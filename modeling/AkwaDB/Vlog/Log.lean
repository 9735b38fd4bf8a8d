import AkwaDB.Wal.Replay

/-!
# AkwaDB.Vlog.Log

The value log: long values are appended to numbered segment files, and a pointer tells where.

A segment is modelled by all the bytes appended to it, whether or not they have left the writer's
buffer. Segments only grow, so a pointer that can be read once can be read ever after
(`readValue_mono`), and it reads what was written (`write_spec`).
-/

namespace AkwaDB
namespace Vlog

open Wal (crypt crypt_length crypt_crypt ValuePointer encodeInlineValue encodeValuePointer)

def opPut : UInt8 := 1

structure ValueEntry where
  op : UInt8
  key : Bytes
  value : Bytes
  expiresAt : Int64

structure Segment where
  bytes : Bytes
  ks : Nat → UInt8

def segmentMagic : Nat := 0x564C4F47

def segmentVersion : Nat := 1

def Segment.plain : Segment := ⟨bePut 4 segmentMagic ++ bePut 4 segmentVersion, fun _ => 0⟩

def entryHeaderSize : Nat := 17

def ValueEntry.header (e : ValueEntry) (vLen : Nat) : Bytes :=
  e.op :: (bePut 4 e.key.length ++ bePut 4 vLen ++ bePut 8 e.expiresAt.toUInt64.toNat)

namespace Segment

/-- What `writeEntry` appends. The value alone is encrypted. -/
def entryBytes (s : Segment) (e : ValueEntry) : Bytes :=
  let val := crypt s.ks (s.bytes.length + entryHeaderSize + e.key.length) e.value
  let head := e.header val.length
  head ++ e.key ++ val ++ bePut 4 (crc32 (head ++ e.key ++ val)).toNat

/-- `writeEntry`: where the value begins, and the segment after it. -/
def writeEntry (s : Segment) (e : ValueEntry) : Option (Nat × Segment) :=
  if s.bytes.length + (s.entryBytes e).length < 2 ^ 63 then
    some (s.bytes.length + entryHeaderSize + e.key.length,
      { s with bytes := s.bytes ++ s.entryBytes e })
  else none

def readValue (s : Segment) (offset size : Nat) : Option Bytes :=
  if offset + size ≤ s.bytes.length then some (crypt s.ks offset ((s.bytes.drop offset).take size))
  else none

def Grows (s s' : Segment) : Prop := s.bytes <+: s'.bytes ∧ s'.ks = s.ks

theorem Grows.refl (s : Segment) : s.Grows s := ⟨List.prefix_rfl, rfl⟩

variable {s s' : Segment} {offset : Nat}

theorem Grows.trans {s'' : Segment} (h : s.Grows s') (h' : s'.Grows s'') : s.Grows s'' :=
  ⟨h.1.trans h'.1, h'.2.trans h.2⟩

theorem readValue_mono (h : s.Grows s') {size : Nat} {v : Bytes}
    (hv : s.readValue offset size = some v) : s'.readValue offset size = some v := by
  obtain ⟨⟨rest, hrest⟩, hks⟩ := h
  unfold readValue at hv ⊢
  split at hv
  · rename_i hle
    cases hv
    rw [if_pos (by rw [← hrest, List.length_append]; omega), hks, ← hrest, List.drop_append,
      List.take_append_of_le_length (by rw [List.length_drop]; omega)]
  · cases hv

theorem readValue_length {size : Nat} {v : Bytes} (hv : s.readValue offset size = some v) :
    v.length = size := by
  unfold readValue at hv
  split at hv
  · cases hv
    rw [crypt_length, List.length_take, List.length_drop]
    omega
  · cases hv

theorem entryBytes_eq (s : Segment) (e : ValueEntry) : ∃ front crc,
    s.entryBytes e =
      front ++ (crypt s.ks (s.bytes.length + entryHeaderSize + e.key.length) e.value ++ crc) ∧
    front.length = entryHeaderSize + e.key.length := by
  let val := crypt s.ks (s.bytes.length + entryHeaderSize + e.key.length) e.value
  let head := e.header val.length
  refine ⟨head ++ e.key, bePut 4 (crc32 (head ++ e.key ++ val)).toNat, ?_, ?_⟩
  · simp only [entryBytes, List.append_assoc, head, val]
  · simp [head, ValueEntry.header, entryHeaderSize]
    omega

theorem readValue_writeEntry {e : ValueEntry} (h : s.writeEntry e = some (offset, s')) :
    s.Grows s' ∧
      offset + e.value.length < 2 ^ 63 ∧ s'.readValue offset e.value.length = some e.value := by
  unfold writeEntry at h
  split at h
  · rename_i hlt
    cases h
    obtain ⟨front, crc, hbytes, hfront⟩ := s.entryBytes_eq e
    have hlen : (s.entryBytes e).length =
        entryHeaderSize + e.key.length + (e.value.length + crc.length) := by
      rw [hbytes, List.length_append, hfront, List.length_append, crypt_length]
    refine ⟨⟨List.prefix_append _ _, rfl⟩, by omega, ?_⟩
    have hdrop : (s.bytes ++ s.entryBytes e).drop (s.bytes.length + entryHeaderSize + e.key.length) =
        crypt s.ks (s.bytes.length + entryHeaderSize + e.key.length) e.value ++ crc := by
      rw [hbytes, ← List.append_assoc]
      exact List.drop_left' (by rw [List.length_append, hfront, Nat.add_assoc])
    simp only [readValue]
    rw [if_pos (by rw [List.length_append]; omega), hdrop, List.take_left' (crypt_length _ _ _),
      crypt_crypt]
  · cases h

end Segment

structure ValueLog where
  segments : UInt32 → Option Segment
  active : UInt32
  maxSize : Nat

namespace ValueLog

def setSegment (vl : ValueLog) (fid : UInt32) (s : Segment) : ValueLog :=
  { vl with segments := fun f => if f = fid then some s else vl.segments f }

/-- `openSegment` of the next active file: created unless it exists. -/
def openActive (vl : ValueLog) (fid : UInt32) (fresh : Segment) : ValueLog :=
  { vl.setSegment fid ((vl.segments fid).getD fresh) with active := fid }

def rotate (vl : ValueLog) (fresh : Segment) : ValueLog := vl.openActive (vl.active + 1) fresh

/-- The segment that `Write` appends to: a full one is rotated away. -/
def makeRoom (vl : ValueLog) (fresh : Segment) : ValueLog :=
  match vl.segments vl.active with
  | some s => if vl.maxSize ≤ s.bytes.length then vl.rotate fresh else vl
  | none => vl

def write (vl : ValueLog) (fresh : Segment) (e : ValueEntry) : Option (ValuePointer × ValueLog) :=
  let vl := vl.makeRoom fresh
  (vl.segments vl.active).bind fun s =>
    (s.writeEntry e).map fun r =>
      (⟨vl.active, UInt64.ofNat r.1, UInt32.ofNat e.value.length⟩, vl.setSegment vl.active r.2)

def readValue (vl : ValueLog) (vp : ValuePointer) : Option Bytes :=
  if vp.size = 0 then some []
  else (vl.segments vp.fid).bind fun s => s.readValue vp.offset.toNat vp.size.toNat

/-- Nothing is lost from one state of the log to the next. -/
def Extends (vl vl' : ValueLog) : Prop :=
  ∀ fid s, vl.segments fid = some s → ∃ s', vl'.segments fid = some s' ∧ s.Grows s'

theorem Extends.refl (vl : ValueLog) : vl.Extends vl := fun _ s h => ⟨s, h, Segment.Grows.refl s⟩

variable {vl vl' : ValueLog} {vp : ValuePointer}

theorem Extends.trans {vl'' : ValueLog} (h : vl.Extends vl') (h' : vl'.Extends vl'') :
    vl.Extends vl'' := by
  intro fid s hs
  obtain ⟨s', hs', hg⟩ := h fid s hs
  obtain ⟨s'', hs'', hg'⟩ := h' fid s' hs'
  exact ⟨s'', hs'', hg.trans hg'⟩

theorem setSegment_extends {fid : UInt32} {s : Segment}
    (h : ∀ old, vl.segments fid = some old → old.Grows s) : vl.Extends (vl.setSegment fid s) := by
  intro f old hold
  by_cases hf : f = fid
  · subst hf
    exact ⟨s, if_pos rfl, h old hold⟩
  · exact ⟨old, (if_neg hf).trans hold, Segment.Grows.refl old⟩

theorem openActive_extends (vl : ValueLog) (fid : UInt32) (fresh : Segment) :
    vl.Extends (vl.openActive fid fresh) := by
  refine setSegment_extends fun old hold => ?_
  rw [hold]
  exact Segment.Grows.refl old

theorem makeRoom_extends (vl : ValueLog) (fresh : Segment) : vl.Extends (vl.makeRoom fresh) := by
  unfold makeRoom
  split
  · split
    · exact openActive_extends vl _ fresh
    · exact Extends.refl vl
  · exact Extends.refl vl

theorem readValue_mono (h : vl.Extends vl') {v : Bytes} (hv : vl.readValue vp = some v) :
    vl'.readValue vp = some v := by
  unfold readValue at hv ⊢
  split
  · rename_i hsize
    rwa [if_pos hsize] at hv
  · rename_i hsize
    rw [if_neg hsize] at hv
    obtain ⟨s, hs, hread⟩ := Option.bind_eq_some_iff.mp hv
    obtain ⟨s', hs', hg⟩ := h _ s hs
    rw [hs']
    exact Segment.readValue_mono hg hread

theorem readValue_length {v : Bytes} (hv : vl.readValue vp = some v) :
    v.length = vp.size.toNat := by
  unfold readValue at hv
  split at hv
  · rename_i hsize
    cases hv
    rw [hsize]
    rfl
  · obtain ⟨s, _, hread⟩ := Option.bind_eq_some_iff.mp hv
    exact Segment.readValue_length hread

theorem readValue_entry {fid : UInt32} {s s' : Segment} {e : ValueEntry} {offset : Nat}
    (hw : s.writeEntry e = some (offset, s')) (hs : vl.segments fid = some s')
    (hlen : e.value.length < 2 ^ 32) :
    vl.readValue ⟨fid, UInt64.ofNat offset, UInt32.ofNat e.value.length⟩ = some e.value := by
  obtain ⟨_, hlt, hread⟩ := Segment.readValue_writeEntry hw
  have hsize : (UInt32.ofNat e.value.length).toNat = e.value.length :=
    UInt32.toNat_ofNat_of_lt' (by simpa using hlen)
  have hoff : (UInt64.ofNat offset).toNat = offset :=
    UInt64.toNat_ofNat_of_lt' (by simp only [UInt64.size]; omega)
  unfold readValue
  split
  · rename_i hzero
    have hnil : e.value.length = 0 := by
      rw [← hsize]
      exact congrArg UInt32.toNat hzero
    rw [List.length_eq_zero_iff.mp hnil]
  · simp only [hs, Option.bind_some, hsize, hoff]
    exact hread

theorem write_spec {fresh : Segment} {e : ValueEntry} (h : vl.write fresh e = some (vp, vl')) :
    vl.Extends vl' ∧ (e.value.length < 2 ^ 32 → vl'.readValue vp = some e.value) := by
  obtain ⟨s, hs, h⟩ := Option.bind_eq_some_iff.mp h
  obtain ⟨⟨offset, s'⟩, hw, heq⟩ := Option.map_eq_some_iff.mp h
  cases heq
  refine ⟨(makeRoom_extends vl fresh).trans (setSegment_extends fun old hold => ?_), fun hlen => ?_⟩
  · rw [hs] at hold
    cases hold
    exact (Segment.readValue_writeEntry hw).1
  · exact readValue_entry hw (if_pos rfl) hlen

end ValueLog

/-! ## One write after another -/

/-- Which writes the file system lets fail, and the header of a file created for a write. -/
structure Files where
  fails : Nat → Bool
  fresh : Nat → Segment

namespace Files
variable (files : Files)

/-- The value at position `i`, if there is one for the value log. -/
def tryWrite (i : Nat) (vl : ValueLog) : Option ValueEntry → Option (ValuePointer × ValueLog)
  | none => none
  | some e => if files.fails i then none else vl.write (files.fresh i) e

def logAfter : Nat → ValueLog → List (Option ValueEntry) → ValueLog
  | _, vl, [] => vl
  | i, vl, e :: es => logAfter (i + 1) (((files.tryWrite i vl e).map Prod.snd).getD vl) es

def pointerAt (vl : ValueLog) (es : List (Option ValueEntry)) (i : Nat) : Option ValuePointer :=
  (files.tryWrite i (files.logAfter 0 vl (es.take i)) (es[i]?.join)).map Prod.fst

variable {files}

theorem tryWrite_spec {i : Nat} {vl vl' : ValueLog} {e : Option ValueEntry} {vp : ValuePointer}
    (h : files.tryWrite i vl e = some (vp, vl')) : vl.Extends vl' ∧
      ∃ v, e = some v ∧ (v.value.length < 2 ^ 32 → vl'.readValue vp = some v.value) := by
  cases e with
  | none => cases h
  | some v =>
    rw [tryWrite] at h
    split at h
    · cases h
    · obtain ⟨hext, hread⟩ := ValueLog.write_spec h
      exact ⟨hext, v, rfl, hread⟩

theorem logAfter_extends (i : Nat) (vl : ValueLog) (es : List (Option ValueEntry)) :
    vl.Extends (files.logAfter i vl es) := by
  induction es generalizing i vl with
  | nil => exact ValueLog.Extends.refl vl
  | cons e es ih =>
    refine ValueLog.Extends.trans ?_ (ih (i + 1) _)
    cases h : files.tryWrite i vl e with
    | none => exact ValueLog.Extends.refl vl
    | some r => exact (tryWrite_spec h).1

theorem logAfter_append (i : Nat) (vl : ValueLog) (es fs : List (Option ValueEntry)) :
    files.logAfter i vl (es ++ fs) = files.logAfter (i + es.length) (files.logAfter i vl es) fs := by
  induction es generalizing i vl with
  | nil => rfl
  | cons e es ih =>
    rw [List.cons_append, logAfter, ih, logAfter, List.length_cons, Nat.add_assoc, Nat.add_comm 1]

theorem pointerAt_spec {vl : ValueLog} {es : List (Option ValueEntry)} {i : Nat} {vp : ValuePointer}
    (h : files.pointerAt vl es i = some vp) : ∃ v, es[i]? = some (some v) ∧
      (v.value.length < 2 ^ 32 → (files.logAfter 0 vl es).readValue vp = some v.value) := by
  obtain ⟨⟨vp, vl'⟩, hwrite, rfl⟩ := Option.map_eq_some_iff.mp h
  obtain ⟨_, v, he, hread⟩ := tryWrite_spec hwrite
  have hi : es[i]? = some (some v) := Option.join_eq_some_iff.mp he
  refine ⟨v, hi, fun hlen => ValueLog.readValue_mono ?_ (hread hlen)⟩
  obtain ⟨hlt, hget⟩ := List.getElem?_eq_some_iff.mp hi
  have hsplit : es = es.take i ++ some v :: es.drop (i + 1) := by
    rw [← hget, List.getElem_cons_drop, List.take_append_drop]
  have hpos : 0 + (es.take i).length = i := by
    rw [Nat.zero_add, List.length_take_of_le (Nat.le_of_lt hlt)]
  rw [he] at hwrite
  rw [hsplit, logAfter_append, hpos, logAfter, hwrite]
  exact logAfter_extends (i + 1) vl' _

end Files

def isValuePointer (b : Bytes) : Bool := decide (b.length = 17) && decide (b.head? = some 1)

def decodeValuePointer (b : Bytes) : ValuePointer :=
  ⟨UInt32.ofNat (beGet ((b.drop 1).take 4)), UInt64.ofNat (beGet ((b.drop 5).take 8)),
    UInt32.ofNat (beGet ((b.drop 13).take 4))⟩

/-- `resolveValue`; `none` is an error. Old entries have no flag. -/
def resolveValue (vl : ValueLog) (raw : Bytes) : Option Bytes :=
  match raw with
  | [] => some []
  | b :: v =>
    if b = 0 then some v
    else if isValuePointer raw then vl.readValue (decodeValuePointer raw)
    else some raw

@[simp] theorem resolveValue_inline (vl : ValueLog) (v : Bytes) :
    resolveValue vl (encodeInlineValue v) = some v := rfl

theorem decodeValuePointer_encode (vp : ValuePointer) :
    decodeValuePointer (encodeValuePointer vp) = vp := by
  have hfront : encodeValuePointer vp = [1] ++ vp.bytes := rfl
  obtain ⟨hfid, hoff, hsize⟩ := vp.bytes_fields hfront (n := 1) rfl
  rw [decodeValuePointer, hfid, hoff, hsize]

@[simp] theorem resolveValue_pointer (vl : ValueLog) (vp : ValuePointer) :
    resolveValue vl (encodeValuePointer vp) = vl.readValue vp := by
  have hptr : isValuePointer (encodeValuePointer vp) = true := by
    simp [isValuePointer, encodeValuePointer, ValuePointer.bytes]
  have hdec := decodeValuePointer_encode vp
  rw [encodeValuePointer] at hptr hdec ⊢
  rw [resolveValue, if_neg (by decide), if_pos hptr, hdec]

end Vlog
end AkwaDB
