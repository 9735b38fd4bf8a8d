import AkwaDB.Vlog.Log

/-!
# AkwaDB.Vlog.Entry

Reading the entries of a segment front to back, as `Recover` of the value log does.

An entry has its lengths in front and its checksum at the end. Only the value is encrypted, and the checksum
covers it as it is in the file.

`readEntry_eq_some` says what is accepted, and with that a segment is a `Format`. `located_take`: of a segment cut
at any byte the entries are found whose last byte is there, with the offsets of their values.
-/

namespace AkwaDB
namespace Vlog

open Wal (crypt crypt_length crypt_crypt)

def encodeEntry (ks : Nat → UInt8) (off : Nat) (e : ValueEntry) : Bytes :=
  let val := crypt ks (off + entryHeaderSize + e.key.length) e.value
  let head := e.header val.length
  head ++ e.key ++ val ++ bePut 4 (crc32 (head ++ e.key ++ val)).toNat

theorem Segment.entryBytes_eq_encode (s : Segment) (e : ValueEntry) :
    s.entryBytes e = encodeEntry s.ks s.bytes.length e := rfl

/-- One turn of the loop of `Recover` at offset `off` of the segment, or `none` where it breaks. -/
def readEntry (ks : Nat → UInt8) (off : Nat) (bs : Bytes) : Option (ValueEntry × Nat) :=
  if bs.length < entryHeaderSize then none
  else
    let op := bs.getD 0 0
    let kLen := beGet ((bs.drop 1).take 4)
    let vLen := beGet ((bs.drop 5).take 4)
    let expAt := (UInt64.ofNat (beGet ((bs.drop 9).take 8))).toInt64
    if bs.length < entryHeaderSize + kLen + vLen + 4 then none
    else
      let key := (bs.drop entryHeaderSize).take kLen
      let val := (bs.drop (entryHeaderSize + kLen)).take vLen
      let crc := beGet ((bs.drop (entryHeaderSize + kLen + vLen)).take 4)
      let head := op :: (bePut 4 kLen ++ bePut 4 vLen ++ bePut 8 expAt.toUInt64.toNat)
      if (crc32 (head ++ key ++ val)).toNat ≠ crc then none
      else some (⟨op, key, crypt ks (off + entryHeaderSize + kLen) val, expAt⟩, entryHeaderSize + kLen + vLen + 4)

def ValueEntry.Fits (e : ValueEntry) : Prop := e.key.length < 256 ^ 4 ∧ e.value.length < 256 ^ 4

def ValueEntry.size (e : ValueEntry) : Nat := entryHeaderSize + e.key.length + e.value.length + 4

@[simp] theorem ValueEntry.header_length (e : ValueEntry) (vLen : Nat) : (e.header vLen).length = entryHeaderSize := by
  simp [ValueEntry.header, entryHeaderSize]

@[simp] theorem encodeEntry_length (ks : Nat → UInt8) (off : Nat) (e : ValueEntry) :
    (encodeEntry ks off e).length = e.size := by
  simp [encodeEntry, ValueEntry.size]
  omega

theorem header_of_fields (bs : Bytes) (h : 17 ≤ bs.length) :
    bs.getD 0 0 :: (bePut 4 (beGet ((bs.drop 1).take 4)) ++ bePut 4 (beGet ((bs.drop 5).take 4)) ++
      bePut 8 (UInt64.ofNat (beGet ((bs.drop 9).take 8))).toInt64.toUInt64.toNat) = bs.take 17 := by
  cases bs with
  | nil => simp at h
  | cons b rest =>
    rw [UInt64.toUInt64_toInt64, bePut_word (by omega), bePut_field (by omega), bePut_field (by omega),
      field_append _ 1 4 4, field_append _ 1 8 8]
    rfl

theorem encodeEntry_fields {e : ValueEntry} (hfits : e.Fits) (ks : Nat → UInt8) (off : Nat) (rest : Bytes) :
    let val := crypt ks (off + entryHeaderSize + e.key.length) e.value
    let bs := encodeEntry ks off e ++ rest
    bs.getD 0 0 = e.op ∧ beGet ((bs.drop 1).take 4) = e.key.length ∧ beGet ((bs.drop 5).take 4) = e.value.length ∧
      (UInt64.ofNat (beGet ((bs.drop 9).take 8))).toInt64 = e.expiresAt ∧
      (bs.drop entryHeaderSize).take e.key.length = e.key ∧
      (bs.drop (entryHeaderSize + e.key.length)).take e.value.length = val ∧
      (bs.drop (entryHeaderSize + e.key.length + e.value.length)).take 4 =
        bePut 4 (crc32 (e.header e.value.length ++ e.key ++ val)).toNat := by
  intro val bs
  have hval : val.length = e.value.length := crypt_length ..
  have hbs : bs = e.header e.value.length ++ (e.key ++ (val ++
      (bePut 4 (crc32 (e.header e.value.length ++ e.key ++ val)).toNat ++ rest))) := by
    simp only [bs, encodeEntry, List.append_assoc, val, crypt_length]
  have h17 : bs.drop entryHeaderSize = e.key ++ (val ++
      (bePut 4 (crc32 (e.header e.value.length ++ e.key ++ val)).toNat ++ rest)) := by
    rw [hbs, List.drop_left' (e.header_length _)]
  have hkey : bs.drop (entryHeaderSize + e.key.length) =
      val ++ (bePut 4 (crc32 (e.header e.value.length ++ e.key ++ val)).toNat ++ rest) := by
    rw [← List.drop_drop, h17, List.drop_left]
  have hexp : (bs.drop 9).take 8 = bePut 8 e.expiresAt.toUInt64.toNat := by
    rw [hbs]
    simp [ValueEntry.header, List.drop_append, List.drop_eq_nil_of_le]
  refine ⟨?_, ?_, ?_, ?_, ?_, ?_, ?_⟩
  · rw [hbs]; rfl
  · rw [hbs]
    simp [ValueEntry.header, beGet_bePut_of_lt hfits.1]
  · rw [hbs]
    simp [ValueEntry.header, beGet_bePut_of_lt hfits.2]
  · rw [hexp, ofNat_beGet_bePut, Int64.toInt64_toUInt64]
  · rw [h17, List.take_left]
  · rw [hkey, List.take_left' hval]
  · rw [← List.drop_drop, hkey, List.drop_left' hval, List.take_left' (bePut_length _ _)]

theorem readEntry_eq_some {ks : Nat → UInt8} {off : Nat} {bs : Bytes} {e : ValueEntry} {n : Nat} :
    readEntry ks off bs = some (e, n) ↔
      e.Fits ∧ n = (encodeEntry ks off e).length ∧ encodeEntry ks off e <+: bs := by
  constructor
  · intro h
    simp only [readEntry] at h
    split at h
    · cases h
    split at h
    · cases h
    split at h
    · cases h
    · rename_i h17 hlen hcrc
      cases h
      have hcrc := not_not.mp hcrc
      have hhead := header_of_fields bs (by simp only [entryHeaderSize] at h17; omega)
      generalize hk : beGet ((bs.drop 1).take 4) = kLen at hlen hcrc hhead ⊢
      generalize hv : beGet ((bs.drop 5).take 4) = vLen at hlen hcrc hhead ⊢
      simp only [entryHeaderSize] at h17 hlen hcrc ⊢
      have hkey : ((bs.drop 17).take kLen).length = kLen := length_field (by omega)
      have hval : ((bs.drop (17 + kLen)).take vLen).length = vLen := length_field (by omega)
      refine ⟨⟨?_, ?_⟩, ?_, ?_⟩
      · rw [hkey, ← hk]
        exact beGet_field_lt (by omega)
      · rw [crypt_length, hval, ← hv]
        exact beGet_field_lt (by omega)
      · simp only [encodeEntry_length, ValueEntry.size, crypt_length, hkey, hval, entryHeaderSize]
      · refine ⟨bs.drop (17 + kLen + vLen + 4), ?_⟩
        simp only [encodeEntry, ValueEntry.header, crypt_crypt, hkey, hval, entryHeaderSize]
        rw [hcrc, hhead, bePut_field (by omega), ← List.take_add,
          ← List.take_add, ← List.take_add, List.take_append_drop]
  · rintro ⟨hfits, rfl, rest, rfl⟩
    obtain ⟨fop, fk, fv, fexp, fkey, fval, fcrc⟩ := encodeEntry_fields hfits ks off rest
    have hlen : (encodeEntry ks off e ++ rest).length = e.size + rest.length := by simp
    simp only [readEntry, fop, fk, fv, fexp, fkey, fval, fcrc, beGet_bePut_of_lt (crc32_lt _), crypt_crypt,
      encodeEntry_length]
    rw [if_neg (by simp only [hlen, ValueEntry.size]; omega), if_neg (by simp only [hlen, ValueEntry.size]; omega),
      if_neg (by simp [ValueEntry.header])]
    rfl

def entryFormat (ks : Nat → UInt8) : Format ValueEntry where
  next := readEntry ks
  enc := encodeEntry ks
  fits := ValueEntry.Fits
  enc_pos off e := by
    rw [encodeEntry_length, ValueEntry.size]
    omega
  next_iff := readEntry_eq_some

def encodeEntries (ks : Nat → UInt8) (off : Nat) (es : List ValueEntry) : Bytes := (entryFormat ks).writer.write off es

theorem encodeEntries_cons (ks : Nat → UInt8) (off : Nat) (e : ValueEntry) (es : List ValueEntry) :
    encodeEntries ks off (e :: es) = encodeEntry ks off e ++ encodeEntries ks (off + e.size) es := by
  rw [← encodeEntry_length ks off e]
  rfl

theorem encodeEntries_length (ks : Nat → UInt8) (off : Nat) (es : List ValueEntry) :
    (encodeEntries ks off es).length = (es.map ValueEntry.size).sum := by
  induction es generalizing off with
  | nil => rfl
  | cons e es ih => rw [encodeEntries_cons, List.length_append, encodeEntry_length, ih, List.map_cons, List.sum_cons]

theorem encodeEntries_append (ks : Nat → UInt8) (off : Nat) (es fs : List ValueEntry) :
    encodeEntries ks off (es ++ fs) =
      encodeEntries ks off es ++ encodeEntries ks (off + (encodeEntries ks off es).length) fs :=
  (entryFormat ks).writer.write_append off es fs

/-- `Recover` hands on each entry with the offset of its value. -/
def located : Nat → List (ValueEntry × Nat) → List (ValueEntry × Nat)
  | _, [] => []
  | off, (e, n) :: rest => (e, off + entryHeaderSize + e.key.length) :: located (off + n) rest

/-- Where the values of entries written one after another begin. -/
def placed : Nat → List ValueEntry → List (ValueEntry × Nat)
  | _, [] => []
  | off, e :: es => (e, off + entryHeaderSize + e.key.length) :: placed (off + e.size) es

theorem placed_append (off : Nat) (es fs : List ValueEntry) :
    placed off (es ++ fs) = placed off es ++ placed (off + (es.map ValueEntry.size).sum) fs := by
  induction es generalizing off with
  | nil => rfl
  | cons e es ih => simp only [List.cons_append, placed, ih, List.map_cons, List.sum_cons, Nat.add_assoc]

def Inside (len : Nat) (p : ValueEntry × Nat) : Prop := p.2 + p.1.value.length + 4 ≤ len

instance (len : Nat) (p : ValueEntry × Nat) : Decidable (Inside len p) := inferInstanceAs (Decidable (_ ≤ _))

theorem lt_of_mem_placed {off : Nat} {es : List ValueEntry} {p : ValueEntry × Nat} (h : p ∈ placed off es) :
    off + entryHeaderSize + p.1.key.length ≤ p.2 ∧ Inside (off + (es.map ValueEntry.size).sum) p := by
  induction es generalizing off with
  | nil => cases h
  | cons e es ih =>
    rw [List.map_cons, List.sum_cons]
    rcases List.mem_cons.mp h with rfl | h
    · refine ⟨le_refl _, ?_⟩
      simp only [Inside, ValueEntry.size]
      omega
    · obtain ⟨hle, hin⟩ := ih h
      simp only [Inside] at hin ⊢
      exact ⟨by omega, by omega⟩

/-- **A segment cut at any byte**: the entries whose last byte is there are found, and no others. -/
theorem located_take (ks : Nat → UInt8) (off : Nat) {es : List ValueEntry} (hfits : ∀ e ∈ es, e.Fits) (m : Nat) :
    located off ((entryFormat ks).reader.scan off ((encodeEntries ks off es).take m)) =
      (placed off es).filter fun p => decide (Inside (off + m) p) := by
  induction es generalizing off m with
  | nil =>
    have hnil : encodeEntries ks off [] = [] := rfl
    rw [hnil, List.take_nil, Reader.scan_nil]
    rfl
  | cons e es ih =>
    have hfit := hfits e (by simp)
    have hsize := encodeEntry_length ks off e
    by_cases hm : m < e.size
    · -- the first entry is cut, and all others are behind it
      have hnone : readEntry ks off ((encodeEntries ks off (e :: es)).take m) = none := by
        have hnext : (entryFormat ks).reader.next off (encodeEntries ks off (e :: es)) =
            some (e, (encodeEntry ks off e).length) := by
          rw [encodeEntries_cons]
          exact (entryFormat ks).writer.next_enc off e hfit _
        exact (entryFormat ks).reader.short hnext m (by rw [hsize]; exact hm)
      rw [Reader.scan_none _ hnone]
      refine (List.filter_eq_nil_iff.mpr fun p hp => ?_).symm
      have hbehind : off + e.size ≤ p.2 + p.1.value.length + 4 := by
        rcases List.mem_cons.mp hp with rfl | hp
        · simp only [ValueEntry.size]
          omega
        · have := (lt_of_mem_placed hp).1
          omega
      rw [decide_eq_true_eq, Inside]
      omega
    · have htake : (encodeEntries ks off (e :: es)).take m =
          encodeEntry ks off e ++ (encodeEntries ks (off + e.size) es).take (m - e.size) := by
        rw [encodeEntries_cons, List.take_append, hsize, List.take_of_length_le (by omega)]
      have hnext : (entryFormat ks).reader.next off ((encodeEntries ks off (e :: es)).take m) = some (e, e.size) := by
        rw [htake, ← hsize]
        exact (entryFormat ks).writer.next_enc off e hfit _
      rw [Reader.scan_some _ hnext, located, placed, htake, List.drop_left' hsize,
        ih (off + e.size) (fun f hf => hfits f (by simp [hf])) (m - e.size)]
      rw [show off + e.size + (m - e.size) = off + m by omega, List.filter_cons_of_pos]
      rw [decide_eq_true_eq, Inside]
      simp only [ValueEntry.size] at hm
      dsimp only
      omega

end Vlog
end AkwaDB
