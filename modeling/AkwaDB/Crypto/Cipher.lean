import AkwaDB.Wal.Record

/-!
# AkwaDB.Crypto.Cipher

Encryption of a part of a file in counter mode.

AES is any function from blocks to blocks, one for each key. `cipher.NewCTR` encrypts the numbers from the IV on,
modulo 2^128, and adds the blocks to the data. `CryptAtOffset` counts the base IV up to the block of its offset, in two
halves with a carry, and drops the bytes in front of the offset.

`cryptAtOffset_consistent`: it adds the file's own keystream, so that it does not matter in which pieces a buffer is
encrypted, and a second time undoes the first.
-/

namespace AkwaDB
namespace Crypto

open Wal (crypt crypt_crypt)

abbrev Block := Bytes → Vector UInt8 16

def counter (iv : Bytes) (n : Nat) : Bytes := bePut 16 (beGet iv + n)

def keystream (b : Block) (iv : Bytes) (pos : Nat) : UInt8 :=
  (b (counter iv (pos / 16))).get ⟨pos % 16, Nat.mod_lt _ (by decide)⟩

/-- `cipher.NewCTR`, with the number of bytes it has been used for. -/
structure CTR where
  block : Block
  iv : Bytes
  used : Nat

def CTR.xorKeyStream (s : CTR) (src : Bytes) : Bytes × CTR :=
  (crypt (keystream s.block s.iv) s.used src, { s with used := s.used + src.length })

/-! ## A part of a file -/

def blockOf (baseIV : Bytes) : Bytes := (baseIV ++ List.replicate 16 0).take 16

def advance (iv : Bytes) (blockNum : UInt64) : Bytes :=
  let low := UInt64.ofNat (beGet (iv.drop 8))
  let sum := low + blockNum
  let high := UInt64.ofNat (beGet (iv.take 8))
  bePut 8 (if sum < low then high + 1 else high).toNat ++ bePut 8 sum.toNat

/-- `none` where `aes.NewCipher` refuses the key. -/
def cryptAtOffset (aes : Bytes → Option Block) (key baseIV : Bytes) (offset : Int64) (data : Bytes) : Option Bytes :=
  if data.length = 0 then some data
  else
    (aes key).map fun block =>
      let stream : CTR := ⟨block, advance (blockOf baseIV) (offset / 16).toUInt64, 0⟩
      let rem := (offset % 16).toInt
      let stream := if 0 < rem then (stream.xorKeyStream (List.replicate rem.toNat 0)).2 else stream
      (stream.xorKeyStream data).1

def cryptPieces (aes : Bytes → Option Block) (key baseIV : Bytes) : Int64 → List Bytes → Option Bytes
  | _, [] => some []
  | offset, p :: ps => do
    let front ← cryptAtOffset aes key baseIV offset p
    let back ← cryptPieces aes key baseIV (offset + Int64.ofNat p.length) ps
    return front ++ back

theorem blockOf_length (baseIV : Bytes) : (blockOf baseIV).length = 16 := by
  simp [blockOf]

theorem advance_eq {iv : Bytes} (h : iv.length = 16) (n : UInt64) : advance iv n = counter iv n.toNat := by
  have hhigh := beGet_lt (iv.take 8)
  have hlow := beGet_lt (iv.drop 8)
  have hiv : beGet iv = beGet (iv.take 8) * 256 ^ 8 + beGet (iv.drop 8) := by
    conv => lhs; rw [← List.take_append_drop 8 iv, beGet_append, List.length_drop, h]
  rw [List.length_take, h] at hhigh
  rw [List.length_drop, h] at hlow
  have hl : (UInt64.ofNat (beGet (iv.drop 8))).toNat = beGet (iv.drop 8) := UInt64.toNat_ofNat_of_lt' hlow
  have hh : (UInt64.ofNat (beGet (iv.take 8))).toNat = beGet (iv.take 8) := UInt64.toNat_ofNat_of_lt' hhigh
  have hn := n.toNat_lt
  unfold advance counter
  dsimp only
  rw [hiv]
  generalize beGet (iv.take 8) = high at *
  generalize beGet (iv.drop 8) = low at *
  have hsum : (UInt64.ofNat low + n).toNat = (low + n.toNat) % 256 ^ 8 := by
    rw [UInt64.toNat_add, hl]
    rfl
  have hback : bePut 8 (UInt64.ofNat low + n).toNat = bePut 8 (high * 256 ^ 8 + low + n.toNat) := by
    rw [hsum, bePut_mod, Nat.add_assoc, bePut_add]
  have hdiv : (high * 256 ^ 8 + low + n.toNat) / 256 ^ 8 = high + (low + n.toNat) / 256 ^ 8 := by
    rw [Nat.add_assoc, Nat.add_comm, Nat.add_mul_div_right _ _ (by decide), Nat.add_comm]
  rw [show 16 = 8 + 8 from rfl, bePut_append, ← hback, hdiv]
  congr 1
  by_cases hc : UInt64.ofNat low + n < UInt64.ofNat low
  · rw [if_pos hc]
    rw [UInt64.lt_iff_toNat_lt, hsum, hl] at hc
    have hcarry : (low + n.toNat) / 256 ^ 8 = 1 := by omega
    rw [hcarry, UInt64.toNat_add, hh]
    exact bePut_mod 8 (high + 1)
  · rw [if_neg hc, hh]
    rw [UInt64.lt_iff_toNat_lt, hsum, hl] at hc
    have hcarry : (low + n.toNat) / 256 ^ 8 = 0 := by omega
    rw [hcarry, Nat.add_zero]

theorem counter_counter (iv : Bytes) (m n : Nat) : counter (counter iv m) n = counter iv (m + n) := by
  rw [counter, counter, counter, beGet_bePut, ← bePut_mod, Nat.mod_add_mod, bePut_mod, Nat.add_assoc]

theorem keystream_counter (b : Block) (iv : Bytes) (m pos : Nat) :
    keystream b (counter iv m) pos = keystream b iv (16 * m + pos) := by
  have hdiv : (16 * m + pos) / 16 = m + pos / 16 := by omega
  have hmod : (16 * m + pos) % 16 = pos % 16 := by omega
  simp only [keystream, counter_counter, hdiv, hmod]

theorem crypt_congr {ks ks' : Nat → UInt8} {c off : Nat} (h : ∀ o, ks o = ks' (c + o)) (bs : Bytes) :
    crypt ks off bs = crypt ks' (c + off) bs := by
  induction bs generalizing off with
  | nil => rfl
  | cons b bs ih => rw [crypt, crypt, ih, h, Nat.add_assoc]

theorem crypt_append (ks : Nat → UInt8) (off : Nat) (as bs : Bytes) :
    crypt ks off (as ++ bs) = crypt ks off as ++ crypt ks (off + as.length) bs := by
  induction as generalizing off with
  | nil => rfl
  | cons a as ih =>
    rw [List.cons_append, crypt, crypt, ih, List.cons_append, List.length_cons, Nat.add_assoc, Nat.add_comm 1]

/-! ## The file's keystream -/

variable {aes : Bytes → Option Block} {key baseIV : Bytes}

theorem toNat_div {offset : Int64} {off : Nat} (h : offset.toInt = off) : (offset / 16).toUInt64.toNat = off / 16 := by
  have hlt := offset.toInt_lt
  have hdiv : (offset / 16).toInt = ((off / 16 : Nat) : Int) := by
    rw [Int64.toInt_div, h]
    show (Int.tdiv (off : Int) (16 : Nat)).bmod (2 ^ 64) = _
    rw [← Int.ofNat_tdiv, Int.bmod_eq_of_le (by omega) (by omega)]
  have hpos : (0 : Int64) ≤ offset / 16 := by
    rw [Int64.le_iff_toInt_le, hdiv]
    exact Int.natCast_nonneg _
  rw [Int64.toNat_toUInt64_of_le hpos, Int64.toNatClampNeg, hdiv, Int.toNat_natCast]

theorem cryptAtOffset_eq {b : Block} (hkey : aes key = some b) {offset : Int64} (h : 0 ≤ offset) (data : Bytes) :
    cryptAtOffset aes key baseIV offset data =
      some (crypt (keystream b (blockOf baseIV)) offset.toNatClampNeg data) := by
  obtain ⟨off, hoff⟩ := Int.eq_ofNat_of_zero_le (Int64.le_iff_toInt_le.mp h)
  have hrem : (offset % 16).toInt = ((off % 16 : Nat) : Int) := by
    rw [Int64.toInt_mod, hoff]
    rfl
  rw [cryptAtOffset, Int64.toNatClampNeg, hoff, Int.toNat_natCast, hkey, hrem]
  split
  · rename_i hnil
    rw [List.eq_nil_of_length_eq_zero hnil]
    rfl
  -- where the stream is when the data comes
  have hstream : ∀ stream : CTR, stream.used = 0 →
      (if (0 : Int) < ((off % 16 : Nat) : Int) then
        (stream.xorKeyStream (List.replicate ((off % 16 : Nat) : Int).toNat 0)).2 else stream) =
        { stream with used := off % 16 } := by
    intro stream hused
    split
    · simp only [CTR.xorKeyStream, List.length_replicate, Int.toNat_natCast, hused, Nat.zero_add]
    · have hzero : off % 16 = 0 := by omega
      rw [hzero, ← hused]
  rw [Option.map_some]
  dsimp only
  rw [hstream _ rfl, CTR.xorKeyStream]
  dsimp only
  rw [advance_eq (blockOf_length baseIV), toNat_div hoff]
  rw [crypt_congr (keystream_counter b (blockOf baseIV) (off / 16))]
  congr 2
  omega

theorem cryptPieces_eq {b : Block} (hkey : aes key = some b) (pieces : List Bytes) {offset : Int64} (h : 0 ≤ offset)
    (hend : offset.toInt + pieces.flatten.length < 2 ^ 63) :
    cryptPieces aes key baseIV offset pieces =
      some (crypt (keystream b (blockOf baseIV)) offset.toNatClampNeg pieces.flatten) := by
  induction pieces generalizing offset with
  | nil => rfl
  | cons p ps ih =>
    have hpos : 0 ≤ offset.toInt := Int64.le_iff_toInt_le.mp h
    rw [List.flatten_cons, List.length_append] at hend
    have hnext : (offset + Int64.ofNat p.length).toInt = offset.toInt + p.length := by
      rw [Int64.toInt_add, Int64.toInt_ofNat_of_lt (by omega), Int.bmod_eq_of_le (by omega) (by omega)]
    have hle : (0 : Int64) ≤ offset + Int64.ofNat p.length := by
      rw [Int64.le_iff_toInt_le, hnext]
      exact Int.add_nonneg hpos (Int.natCast_nonneg _)
    have hclamp : (offset + Int64.ofNat p.length).toNatClampNeg = offset.toNatClampNeg + p.length := by
      rw [Int64.toNatClampNeg, Int64.toNatClampNeg, hnext]
      omega
    rw [cryptPieces, cryptAtOffset_eq hkey h, ih hle (by omega), hclamp, List.flatten_cons, crypt_append]
    rfl

/-- **Encryption at an offset adds the keystream of the file**, also piece by piece. -/
theorem cryptAtOffset_consistent (aes : Bytes → Option Block) (key baseIV : Bytes) (b : Block)
    (hkey : aes key = some b) :
    (∀ (offset : Int64) data, 0 ≤ offset → cryptAtOffset aes key baseIV offset data =
      some (crypt (keystream b (blockOf baseIV)) offset.toNatClampNeg data)) ∧
    (∀ (offset : Int64) (pieces : List Bytes), 0 ≤ offset → offset.toInt + pieces.flatten.length < 2 ^ 63 →
      cryptPieces aes key baseIV offset pieces = cryptAtOffset aes key baseIV offset pieces.flatten) ∧
    ∀ (offset : Int64) data, 0 ≤ offset →
      (cryptAtOffset aes key baseIV offset data).bind (cryptAtOffset aes key baseIV offset) = some data := by
  refine ⟨fun offset data h => cryptAtOffset_eq hkey h data, fun offset pieces h hend => ?_, fun offset data h => ?_⟩
  · rw [cryptPieces_eq hkey pieces h hend, cryptAtOffset_eq hkey h]
  · rw [cryptAtOffset_eq hkey h, Option.bind_some, cryptAtOffset_eq hkey h, crypt_crypt]

theorem cryptAtOffset_carry :
    let aes : Bytes → Option Block := fun _ => some fun c => Vector.ofFn fun i => c.getD i.val 0 + 1
    let iv := List.replicate 16 (255 : UInt8)
    cryptAtOffset aes [] iv 15 [0, 0] = some [0, 1] ∧
      cryptPieces aes [] iv 15 [[0], [0]] = cryptAtOffset aes [] iv 15 [0, 0] := by
  intro aes iv
  exact ⟨by decide, (cryptAtOffset_consistent aes [] iv _ rfl).2.1 15 [[0], [0]] (by decide) (by decide)⟩

end Crypto
end AkwaDB
