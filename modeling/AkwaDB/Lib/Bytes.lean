import Mathlib.Data.List.Lex
import Mathlib.Tactic.Ring
import Mathlib.Tactic.Positivity

/-!
# AkwaDB.Lib.Bytes

Byte strings and the fixed-width integers stored in them.

* `Bytes` is a list of bytes, ordered lexicographically.
* `bePut w n` — the `w` low bytes of `n`, most significant first.
* `beGet bs`  — the number a byte string denotes, most significant byte first.
* `crc32 bs`  — the IEEE CRC-32 checksum, computed bit by bit.

The two codecs are inverse (`beGet_bePut` up to the width, `bePut_beGet`); a field cut out of a
longer string is read back with `take`/`drop` and the length lemma `bePut_length`.
-/

namespace AkwaDB

abbrev Bytes := List UInt8

instance bytesLawful : LawfulBEq Bytes := inferInstance

instance byteOrder : LinearOrder UInt8 where
  le_refl a := Nat.le_refl _
  le_trans _ _ _ := Nat.le_trans
  lt_iff_le_not_ge a b := by
    rw [UInt8.lt_iff_toNat_lt, UInt8.le_iff_toNat_le, UInt8.le_iff_toNat_le]; omega
  le_antisymm a b h1 h2 := by
    rw [UInt8.le_iff_toNat_le] at h1 h2
    exact UInt8.toNat_inj.mp (by omega)
  le_total a b := by
    rw [UInt8.le_iff_toNat_le, UInt8.le_iff_toNat_le]; omega
  toDecidableLE := inferInstance

theorem prefix_of_between {p a b : Bytes} (hpa : p ≤ a) (hab : a ≤ b) (hpb : p <+: b) : p <+: a := by
  induction p generalizing a b with
  | nil => exact List.nil_prefix
  | cons c p ih =>
    obtain ⟨rest, rfl⟩ := hpb
    cases a with
    | nil => exact absurd (not_lt.mpr hpa) (not_not.mpr List.Lex.nil)
    | cons d a =>
      have hcd : c ≤ d := not_lt.mp fun h => not_lt.mpr hpa (List.Lex.rel h)
      have hdc : d ≤ c := not_lt.mp fun h => not_lt.mpr hab (List.Lex.rel h)
      obtain rfl : c = d := le_antisymm hcd hdc
      have hpa' : p ≤ a := not_lt.mp fun h => not_lt.mpr hpa (List.Lex.cons h)
      have hab' : a ≤ p ++ rest := not_lt.mp fun h => not_lt.mpr hab (List.Lex.cons h)
      exact List.cons_prefix_cons.mpr ⟨rfl, ih hpa' hab' (List.prefix_append p rest)⟩

/-- The `w` low bytes of `n`, most significant first. -/
def bePut : Nat → Nat → Bytes
  | 0, _ => []
  | w + 1, n => UInt8.ofNat (n / 256 ^ w) :: bePut w n

/-- The number a byte string denotes, most significant byte first. -/
def beGet : Bytes → Nat
  | [] => 0
  | b :: bs => b.toNat * 256 ^ bs.length + beGet bs

@[simp] theorem bePut_length (w n : Nat) : (bePut w n).length = w := by
  induction w with
  | zero => rfl
  | succ w ih => simp [bePut, ih]

theorem beGet_bePut (w n : Nat) : beGet (bePut w n) = n % 256 ^ w := by
  induction w with
  | zero => simp [bePut, beGet, Nat.mod_one]
  | succ w ih =>
    rw [bePut, beGet, ih, bePut_length, Nat.mod_pow_succ, UInt8.toNat_ofNat']
    ring

theorem beGet_bePut_of_lt {w n : Nat} (h : n < 256 ^ w) : beGet (bePut w n) = n := by
  rw [beGet_bePut, Nat.mod_eq_of_lt h]

theorem beGet_lt (bs : Bytes) : beGet bs < 256 ^ bs.length := by
  induction bs with
  | nil => simp [beGet]
  | cons b bs ih =>
    have hb : b.toNat * 256 ^ bs.length ≤ 255 * 256 ^ bs.length :=
      Nat.mul_le_mul_right _ (by have := b.toNat_lt; omega)
    rw [beGet, List.length_cons, Nat.pow_succ]
    omega

theorem bePut_add (w c n : Nat) : bePut w (c * 256 ^ w + n) = bePut w n := by
  induction w generalizing c with
  | zero => rfl
  | succ w ih =>
    have e : c * 256 ^ (w + 1) + n = c * 256 * 256 ^ w + n := by ring
    have hd : (c * 256 * 256 ^ w + n) / 256 ^ w = c * 256 + n / 256 ^ w := by
      rw [Nat.add_comm, Nat.add_mul_div_right _ _ (by positivity), Nat.add_comm]
    rw [bePut, bePut, e, ih, hd]
    congr 1
    apply UInt8.toNat_inj.mp
    simp only [UInt8.toNat_ofNat']
    omega

theorem bePut_beGet {w : Nat} {bs : Bytes} (h : bs.length = w) : bePut w (beGet bs) = bs := by
  induction bs generalizing w with
  | nil => subst h; rfl
  | cons b bs ih =>
    obtain rfl : w = bs.length + 1 := h.symm
    have hb := b.toNat_lt
    have hlt := beGet_lt bs
    have hd : (b.toNat * 256 ^ bs.length + beGet bs) / 256 ^ bs.length = b.toNat := by
      rw [Nat.add_comm, Nat.add_mul_div_right _ _ (by positivity), Nat.div_eq_of_lt hlt, Nat.zero_add]
    rw [beGet, bePut, bePut_add, ih rfl, hd, UInt8.ofNat_toNat]

theorem bePut_mod (w n : Nat) : bePut w (n % 256 ^ w) = bePut w n := by
  conv => rhs; rw [← Nat.div_add_mod' n (256 ^ w), bePut_add]

theorem bePut_append (v w n : Nat) : bePut (v + w) n = bePut v (n / 256 ^ w) ++ bePut w n := by
  induction v with
  | zero => rw [Nat.zero_add, bePut, List.nil_append]
  | succ v ih =>
    have hdiv : n / 256 ^ w / 256 ^ v = n / 256 ^ (v + w) := by
      rw [Nat.div_div_eq_div_mul, ← Nat.pow_add, Nat.add_comm]
    rw [Nat.succ_add, bePut, bePut, ih, hdiv, List.cons_append]

theorem beGet_append (as bs : Bytes) : beGet (as ++ bs) = beGet as * 256 ^ bs.length + beGet bs := by
  induction as with
  | nil => simp [beGet]
  | cons a as ih =>
    rw [List.cons_append, beGet, beGet, ih, List.length_append, Nat.pow_add]
    ring

section
variable {bs : Bytes} {a w : Nat}

theorem length_field (h : a + w ≤ bs.length) : ((bs.drop a).take w).length = w := by
  rw [List.length_take, List.length_drop]
  omega

theorem field_append (bs : Bytes) (a w v : Nat) :
    (bs.drop a).take w ++ (bs.drop (a + w)).take v = (bs.drop a).take (w + v) := by
  rw [List.take_add, List.drop_drop]

theorem beGet_field_lt (h : a + w ≤ bs.length) : beGet ((bs.drop a).take w) < 256 ^ w := by
  have hlt := beGet_lt ((bs.drop a).take w)
  rwa [length_field h] at hlt

theorem ofNat_beGet_bePut (u : UInt64) : UInt64.ofNat (beGet (bePut 8 u.toNat)) = u := by
  rw [beGet_bePut_of_lt (by simpa using u.toNat_lt), UInt64.ofNat_toNat]

theorem bePut_field (h : a + w ≤ bs.length) : bePut w (beGet ((bs.drop a).take w)) = (bs.drop a).take w :=
  bePut_beGet (length_field h)

theorem bePut_word (h : a + 8 ≤ bs.length) :
    bePut 8 (UInt64.ofNat (beGet ((bs.drop a).take 8))).toNat = (bs.drop a).take 8 := by
  have hlt : beGet ((bs.drop a).take 8) < 2 ^ 64 := beGet_field_lt h
  rw [UInt64.toNat_ofNat_of_lt' hlt, bePut_field h]

end

/-- One bit of the reflected IEEE polynomial division. -/
def crcBit (crc : UInt32) : UInt32 :=
  if crc &&& 1 = 1 then (crc >>> 1) ^^^ 0xEDB88320 else crc >>> 1

def crcByte (crc : UInt32) (b : UInt8) : UInt32 :=
  crcBit (crcBit (crcBit (crcBit (crcBit (crcBit (crcBit (crcBit (crc ^^^ b.toUInt32))))))))

def crc32 (bs : Bytes) : UInt32 := bs.foldl crcByte 0xFFFFFFFF ^^^ 0xFFFFFFFF

theorem crc32_lt (bs : Bytes) : (crc32 bs).toNat < 256 ^ 4 := (crc32 bs).toNat_lt

example : crc32 [49, 50, 51, 52, 53, 54, 55, 56, 57] = 0xCBF43926 := by decide +kernel

end AkwaDB
