import AkwaDB.Lib.Scan

/-!
# AkwaDB.Wal.Record

The write-ahead log: 37 bytes of header, the key and the value for each record.

Keys and values may be encrypted with a keystream that depends on the offset in the file; the
keystream of an unencrypted file is all zero. An encrypted file begins with a header of its own, so
the records start at an offset `start`.

`readRecord_eq_some` says what `Recover` accepts, and with that the log is a `Format`: what was
written is read back, and of a log cut at any byte exactly the whole records
(`recover_write_take`).
-/

namespace AkwaDB
namespace Wal

structure Record where
  op : UInt8
  key : Bytes
  value : Bytes
  expiresAt : Int64
  version : UInt64
  timestamp : Int64
  deriving DecidableEq, Repr

def opPut : UInt8 := 1

def opDelete : UInt8 := 2

/-- `CryptAtOffset`: the keystream of counter mode depends on the offset alone. -/
def crypt (ks : Nat → UInt8) : Nat → Bytes → Bytes
  | _, [] => []
  | off, b :: bs => (b ^^^ ks off) :: crypt ks (off + 1) bs

@[simp] theorem crypt_length (ks : Nat → UInt8) (off : Nat) (bs : Bytes) :
    (crypt ks off bs).length = bs.length := by
  induction bs generalizing off with
  | nil => rfl
  | cons b bs ih => simp [crypt, ih]

@[simp] theorem crypt_crypt (ks : Nat → UInt8) (off : Nat) (bs : Bytes) :
    crypt ks off (crypt ks off bs) = bs := by
  induction bs generalizing off with
  | nil => rfl
  | cons b bs ih => rw [crypt, crypt, ih, UInt8.xor_assoc, UInt8.xor_self, UInt8.xor_zero]

def walHeaderSize : Nat := 37

/-- The header up to its checksum, which covers it together with the key and the value. -/
def header (op : UInt8) (kLen vLen : Nat) (expiresAt : Int64) (version : UInt64)
    (timestamp : Int64) : Bytes :=
  op :: (bePut 4 kLen ++ bePut 4 vLen ++ bePut 8 expiresAt.toUInt64.toNat ++
    bePut 8 version.toNat ++ bePut 8 timestamp.toUInt64.toNat)

/-- `writeDirect` of a record at offset `off` of the file. -/
def writeDirect (ks : Nat → UInt8) (off : Nat) (r : Record) : Bytes :=
  let encKey := crypt ks (off + walHeaderSize) r.key
  let encVal := crypt ks (off + walHeaderSize + r.key.length) r.value
  let head := header r.op encKey.length encVal.length r.expiresAt r.version r.timestamp
  head ++ bePut 4 (crc32 (head ++ encKey ++ encVal)).toNat ++ encKey ++ encVal

/-- One turn of the loop of `Recover` at offset `off` of the file, or `none` where it breaks. -/
def readRecord (ks : Nat → UInt8) (off : Nat) (bs : Bytes) : Option (Record × Nat) :=
  if bs.length < walHeaderSize then none
  else
    let op := bs.getD 0 0
    let kLen := beGet ((bs.drop 1).take 4)
    let vLen := beGet ((bs.drop 5).take 4)
    let expiresAt := (UInt64.ofNat (beGet ((bs.drop 9).take 8))).toInt64
    let version := UInt64.ofNat (beGet ((bs.drop 17).take 8))
    let timestamp := (UInt64.ofNat (beGet ((bs.drop 25).take 8))).toInt64
    let expectedCRC := beGet ((bs.drop 33).take 4)
    if bs.length < walHeaderSize + kLen + vLen then none
    else
      let key := (bs.drop walHeaderSize).take kLen
      let val := (bs.drop (walHeaderSize + kLen)).take vLen
      if (crc32 (header op kLen vLen expiresAt version timestamp ++ key ++ val)).toNat ≠ expectedCRC
      then none
      else some (⟨op, crypt ks (off + walHeaderSize) key, crypt ks (off + walHeaderSize + kLen) val,
        expiresAt, version, timestamp⟩, walHeaderSize + kLen + vLen)

def Record.Fits (r : Record) : Prop := r.key.length < 256 ^ 4 ∧ r.value.length < 256 ^ 4

@[simp] theorem header_length (op : UInt8) (kLen vLen : Nat) (expiresAt : Int64) (version : UInt64)
    (timestamp : Int64) : (header op kLen vLen expiresAt version timestamp).length = 33 := by
  simp [header]

@[simp] theorem writeDirect_length (ks : Nat → UInt8) (off : Nat) (r : Record) :
    (writeDirect ks off r).length = walHeaderSize + r.key.length + r.value.length := by
  simp [writeDirect, walHeaderSize]
  omega

theorem header_fields (bs : Bytes) (h : 33 ≤ bs.length) :
    header (bs.getD 0 0) (beGet ((bs.drop 1).take 4)) (beGet ((bs.drop 5).take 4))
      (UInt64.ofNat (beGet ((bs.drop 9).take 8))).toInt64
      (UInt64.ofNat (beGet ((bs.drop 17).take 8)))
      (UInt64.ofNat (beGet ((bs.drop 25).take 8))).toInt64 = bs.take 33 := by
  cases bs with
  | nil => simp at h
  | cons b rest =>
    simp only [header, UInt64.toUInt64_toInt64]
    rw [bePut_word (by omega), bePut_word (by omega), bePut_word (by omega), bePut_field (by omega),
      bePut_field (by omega), field_append _ 1 4 4, field_append _ 1 8 8, field_append _ 1 16 8, field_append _ 1 24 8]
    rfl

theorem header_parts (op : UInt8) {kLen vLen : Nat} (hk : kLen < 256 ^ 4) (hv : vLen < 256 ^ 4)
    (expiresAt : Int64) (version : UInt64) (timestamp : Int64) :
    let head := header op kLen vLen expiresAt version timestamp
    head.getD 0 0 = op ∧ beGet ((head.drop 1).take 4) = kLen ∧ beGet ((head.drop 5).take 4) = vLen ∧
      (UInt64.ofNat (beGet ((head.drop 9).take 8))).toInt64 = expiresAt ∧
      UInt64.ofNat (beGet ((head.drop 17).take 8)) = version ∧
      (UInt64.ofNat (beGet ((head.drop 25).take 8))).toInt64 = timestamp := by
  intro head
  have e9 : (head.drop 9).take 8 = bePut 8 expiresAt.toUInt64.toNat := by
    simp [head, header, List.drop_append, List.drop_eq_nil_of_le]
  have e17 : (head.drop 17).take 8 = bePut 8 version.toNat := by
    simp [head, header, List.drop_append, List.drop_eq_nil_of_le]
  have e25 : (head.drop 25).take 8 = bePut 8 timestamp.toUInt64.toNat := by
    simp [head, header, List.drop_append, List.drop_eq_nil_of_le]
  refine ⟨rfl, ?_, ?_, ?_, ?_, ?_⟩
  · simp [head, header, beGet_bePut_of_lt hk]
  · simp [head, header, beGet_bePut_of_lt hv]
  · rw [e9, ofNat_beGet_bePut, Int64.toInt64_toUInt64]
  · rw [e17, ofNat_beGet_bePut]
  · rw [e25, ofNat_beGet_bePut, Int64.toInt64_toUInt64]

theorem writeDirect_fields (ks : Nat → UInt8) (off : Nat) (r : Record) (rest : Bytes) :
    let encKey := crypt ks (off + walHeaderSize) r.key
    let encVal := crypt ks (off + walHeaderSize + r.key.length) r.value
    let head := header r.op encKey.length encVal.length r.expiresAt r.version r.timestamp
    let bs := writeDirect ks off r ++ rest
    bs.take 33 = head ∧ (bs.drop 33).take 4 = bePut 4 (crc32 (head ++ encKey ++ encVal)).toNat ∧
      (bs.drop walHeaderSize).take r.key.length = encKey ∧
      (bs.drop (walHeaderSize + r.key.length)).take r.value.length = encVal := by
  intro encKey encVal head bs
  have hhead : head.length = 33 := header_length ..
  have hkey : encKey.length = r.key.length := crypt_length ..
  have hval : encVal.length = r.value.length := crypt_length ..
  have hbs : bs = head ++ (bePut 4 (crc32 (head ++ encKey ++ encVal)).toNat ++
      (encKey ++ (encVal ++ rest))) := by
    simp only [bs, writeDirect, List.append_assoc]
    rfl
  have h33 : bs.drop 33 = bePut 4 (crc32 (head ++ encKey ++ encVal)).toNat ++
      (encKey ++ (encVal ++ rest)) := by
    rw [hbs, List.drop_left' hhead]
  have h37 : bs.drop walHeaderSize = encKey ++ (encVal ++ rest) := by
    rw [show walHeaderSize = 33 + 4 from rfl, ← List.drop_drop, h33, List.drop_left' (bePut_length _ _)]
  refine ⟨?_, ?_, ?_, ?_⟩
  · rw [hbs, List.take_left' hhead]
  · rw [h33, List.take_left' (bePut_length _ _)]
  · rw [h37, List.take_left' hkey]
  · rw [← List.drop_drop, h37, List.drop_left' hkey, List.take_left' hval]

theorem field_of_take {bs head : Bytes} (h : bs.take 33 = head) {a w : Nat} (haw : a + w ≤ 33) :
    (bs.drop a).take w = (head.drop a).take w := by
  rw [← h, List.drop_take, List.take_take, Nat.min_eq_left (by omega)]

theorem getD_of_take {bs head : Bytes} (h : bs.take 33 = head) : bs.getD 0 0 = head.getD 0 0 := by
  rw [← h]
  cases bs <;> rfl

theorem readRecord_eq_some {ks : Nat → UInt8} {off : Nat} {bs : Bytes} {r : Record} {n : Nat} :
    readRecord ks off bs = some (r, n) ↔
      r.Fits ∧ n = (writeDirect ks off r).length ∧ writeDirect ks off r <+: bs := by
  constructor
  · intro h
    simp only [readRecord] at h
    split at h
    · cases h
    split at h
    · cases h
    split at h
    · cases h
    · rename_i h37 hlen hcrc
      cases h
      have hcrc := not_not.mp hcrc
      generalize hk : beGet ((bs.drop 1).take 4) = kLen at hlen hcrc ⊢
      generalize hv : beGet ((bs.drop 5).take 4) = vLen at hlen hcrc ⊢
      simp only [walHeaderSize] at h37 hlen hcrc ⊢
      have hkey : ((bs.drop 37).take kLen).length = kLen := length_field (by omega)
      have hval : ((bs.drop (37 + kLen)).take vLen).length = vLen := length_field (by omega)
      refine ⟨⟨?_, ?_⟩, ?_, ?_⟩
      · rw [crypt_length, hkey, ← hk]
        exact beGet_field_lt (by omega)
      · rw [crypt_length, hval, ← hv]
        exact beGet_field_lt (by omega)
      · simp only [writeDirect_length, crypt_length, hkey, hval, walHeaderSize]
      · -- the bytes written for this record are those that were read
        have hhead := header_fields bs (by omega)
        rw [hk, hv] at hhead
        have e33 : bs.take 33 ++ (bs.drop 33).take 4 = bs.take 37 := by rw [← List.take_add]
        refine ⟨bs.drop (37 + kLen + vLen), ?_⟩
        simp only [writeDirect, crypt_length, crypt_crypt, hkey, hval, walHeaderSize]
        rw [hcrc, hhead, bePut_field (by omega), e33,
          ← List.take_add, ← List.take_add, List.take_append_drop]
  · rintro ⟨⟨hk, hv⟩, rfl, rest, rfl⟩
    obtain ⟨hhead, hcrc, hkey, hval⟩ := writeDirect_fields ks off r rest
    have hlen : (writeDirect ks off r ++ rest).length =
        walHeaderSize + r.key.length + r.value.length + rest.length := by simp
    rw [crypt_length, crypt_length] at hhead hcrc
    obtain ⟨f0, f1, f5, f9, f17, f25⟩ := header_parts r.op hk hv r.expiresAt r.version r.timestamp
    rw [← field_of_take hhead (by omega)] at f1 f5 f9 f17 f25
    rw [← getD_of_take hhead] at f0
    simp only [readRecord, f0, f1, f5, f9, f17, f25, hcrc, hkey, hval, writeDirect_length,
      beGet_bePut_of_lt (crc32_lt _), crypt_crypt]
    rw [if_neg (by omega), if_neg (by omega), if_neg (by simp)]

def format (ks : Nat → UInt8) : Format Record where
  next := readRecord ks
  enc := writeDirect ks
  fits := Record.Fits
  enc_pos off r := by
    rw [writeDirect_length]
    simp only [walHeaderSize]
    omega
  next_iff := readRecord_eq_some

def writeAll (ks : Nat → UInt8) (off : Nat) (rs : List Record) : Bytes :=
  (format ks).writer.write off rs

/-- `Recover`: the records it returns and the file it leaves. -/
def recover (ks : Nat → UInt8) (start : Nat) (file : Bytes) : List Record × Bytes :=
  ((format ks).reader.records start (file.drop start),
    file.take (start + (format ks).reader.consumed start (file.drop start)))

theorem writeAll_append (ks : Nat → UInt8) (off : Nat) (rs qs : List Record) :
    writeAll ks off (rs ++ qs) =
      writeAll ks off rs ++ writeAll ks (off + (writeAll ks off rs).length) qs :=
  (format ks).writer.write_append off rs qs

section
variable {ks : Nat → UInt8} {head : Bytes} {rs qs : List Record}

theorem recover_write (h : ∀ r ∈ rs, r.Fits) :
    recover ks head.length (head ++ writeAll ks head.length rs) =
      (rs, head ++ writeAll ks head.length rs) := by
  obtain ⟨h1, h2⟩ := (format ks).writer.scan_write head.length h []
  simp only [List.append_nil, Reader.records_nil, Reader.consumed_nil, Nat.add_zero] at h1 h2
  simp only [recover, List.drop_left, writeAll, h1, h2, ← List.length_append, List.take_length]

theorem recover_write_take (ks : Nat → UInt8) (head : Bytes) (hr : ∀ r ∈ rs, r.Fits) (hq : ∀ q ∈ qs, q.Fits) (m : Nat) :
    ∃ j ≤ qs.length, (recover ks head.length (head ++ writeAll ks head.length rs ++
      (writeAll ks (head.length + (writeAll ks head.length rs).length) qs).take m)).1 =
        rs ++ qs.take j := by
  obtain ⟨j, hj, hrec, _⟩ := (format ks).writer.scan_write_take
    (head.length + (writeAll ks head.length rs).length) hq m
  refine ⟨j, hj, ?_⟩
  rw [recover, List.append_assoc, List.drop_left]
  show (format ks).reader.records head.length _ = _
  rw [writeAll, ((format ks).writer.scan_write head.length hr _).1]
  exact congrArg (rs ++ ·) hrec

theorem exists_cut_recover (ks : Nat → UInt8) (head : Bytes) (hr : ∀ r ∈ rs, r.Fits) (hq : ∀ q ∈ qs, q.Fits) (j : Nat) :
    ∃ m, (recover ks head.length (head ++ writeAll ks head.length rs ++
      (writeAll ks (head.length + (writeAll ks head.length rs).length) qs).take m)).1 =
        rs ++ qs.take j := by
  let off := head.length + (writeAll ks head.length rs).length
  refine ⟨(writeAll ks off (qs.take j)).length, ?_⟩
  have hcut : (writeAll ks off qs).take (writeAll ks off (qs.take j)).length =
      writeAll ks off (qs.take j) := by
    have hsplit := writeAll_append ks off (qs.take j) (qs.drop j)
    rw [List.take_append_drop] at hsplit
    rw [hsplit, List.take_left]
  have hall : ∀ r ∈ rs ++ qs.take j, r.Fits := by
    intro r hmem
    cases List.mem_append.mp hmem with
    | inl h => exact hr r h
    | inr h => exact hq r (List.mem_of_mem_take h)
  rw [hcut, List.append_assoc, ← writeAll_append, recover_write hall]

end

end Wal
end AkwaDB
