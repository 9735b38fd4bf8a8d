import AkwaDB.Lib.Reach
import AkwaDB.Vlog.Entry
import AkwaDB.Wal.Recovery

/-!
# AkwaDB.Vlog.Torn

The files of the value log, and what is left of them when the last one loses its end.

Every opening reads the headers of the segments it finds and begins a new one behind them. An old segment is
never appended to again, so a pointer into the part that was lost stays unreadable, and what is there is read as
it was written. A segment that has lost its header altogether gets a new one. A segment with a part of its header
is passed over, and is then found again when the next segment is to be opened: its number is the first that is
free, and the opening fails.

- `Sound`: every segment is a part of a header and the entries that were written to it. Writing, rotating and
  opening again keep it (`Sound.step`).
- `Promise`: what can be read, which places are taken, and what `Recover` finds. It follows from `Sound`.
- `torn_tail_iff`: the lengths to which the last segment may be cut.
-/

namespace AkwaDB
namespace Vlog

open Wal (KeyRegistry BaseIV crypt crypt_length crypt_crypt ValuePointer)

/-! ## Opening a segment -/

def segmentVersionEncrypt : Nat := 2

def segmentHeaderSize : Nat := 8

def encSegmentHeaderSize : Nat := 32

/-- A segment that is open: its file, and what its header says. -/
structure OpenSegment where
  bytes : Bytes
  ks : Nat → UInt8
  encrypted : Bool

namespace OpenSegment

def segment (g : OpenSegment) : Segment := ⟨g.bytes, g.ks⟩

def new (iv : BaseIV) : Option KeyRegistry → OpenSegment
  | none => ⟨bePut 4 segmentMagic ++ bePut 4 segmentVersion, fun _ => 0, false⟩
  | some reg => ⟨bePut 4 segmentMagic ++ bePut 4 segmentVersionEncrypt ++ bePut 8 reg.activeKey.toNat ++ iv.bytes,
      reg.stream iv, true⟩

end OpenSegment

/-- `openSegment`, with the base IV that a new file would get; `none` is an error. -/
def openSegment (reg : Option KeyRegistry) (iv : BaseIV) (file : Bytes) : Option OpenSegment :=
  if file = [] then some (.new iv reg)
  else if file.length < segmentHeaderSize then none
  else if beGet (file.take 4) = segmentMagic ∧ beGet ((file.drop 4).take 4) = segmentVersionEncrypt then
    if file.length < encSegmentHeaderSize then none
    else
      reg.bind fun reg => (reg.getKey (UInt64.ofNat (beGet ((file.drop 8).take 8)))).map fun stream =>
        ⟨file, stream ((file.drop 16).take 16), true⟩
  else some ⟨file, fun _ => 0, false⟩

/-- `Recover` of one segment: the entries that it hands on, or an error. -/
def OpenSegment.recover (g : OpenSegment) : Option (List (ValueEntry × Nat)) :=
  if g.bytes = [] then some []
  else if g.bytes.length < segmentHeaderSize ∨ beGet (g.bytes.take 4) ≠ segmentMagic then none
  else if g.encrypted ∧ g.bytes.length < encSegmentHeaderSize then none
  else
    let start := if g.encrypted then encSegmentHeaderSize else segmentHeaderSize
    some (located start ((entryFormat g.ks).reader.scan start (g.bytes.drop start)))

/-- The segments by number, the one that is written to, and the limit for their sizes. -/
structure LogDir where
  segments : List (UInt32 × OpenSegment)
  active : UInt32
  maxSize : Int

def lookupFid {α : Type} (l : List (UInt32 × α)) (fid : UInt32) : Option α :=
  (l.find? fun p => p.1 == fid).map Prod.snd

/-- Put in place of the one with this number, or behind all others. -/
def putFid {α : Type} (l : List (UInt32 × α)) (fid : UInt32) (a : α) : List (UInt32 × α) :=
  if fid ∈ l.map Prod.fst then l.map fun p => if p.1 = fid then (fid, a) else p else l ++ [(fid, a)]

namespace LogDir

/-- `openWithMaxSize`: a segment that cannot be opened is passed over. -/
def openFiles (reg : Option KeyRegistry) (ivs : UInt32 → BaseIV) (maxSize : Int) (files : List (UInt32 × Bytes)) :
    Option LogDir :=
  let found := files.filterMap fun f => (openSegment reg (ivs f.1) f.2).map fun g => (f.1, g)
  let nextFid := (found.map Prod.fst).foldl max 0 + 1
  -- a file with the next number that was found has its header by now
  let file := match lookupFid found nextFid with
    | some g => g.bytes
    | none => (lookupFid files nextFid).getD []
  (openSegment reg (ivs nextFid) file).map fun g => ⟨putFid found nextFid g, nextFid, maxSize⟩

def activeSegment (d : LogDir) : Option OpenSegment := lookupFid d.segments d.active

def rotate (reg : Option KeyRegistry) (iv : BaseIV) (d : LogDir) : Option LogDir :=
  let nextFid := d.active + 1
  let file := ((lookupFid d.segments nextFid).map OpenSegment.bytes).getD []
  (openSegment reg iv file).map fun g => ⟨putFid d.segments nextFid g, nextFid, d.maxSize⟩

def full (d : LogDir) : Bool := d.activeSegment.any fun g => decide (d.maxSize ≤ g.bytes.length)

def append (d : LogDir) (e : ValueEntry) : Option (ValuePointer × LogDir) :=
  d.activeSegment.bind fun g => (g.segment.writeEntry e).map fun w =>
    (⟨d.active, UInt64.ofNat w.1, UInt32.ofNat e.value.length⟩,
      { d with segments := putFid d.segments d.active { g with bytes := w.2.bytes } })

def write (reg : Option KeyRegistry) (iv : BaseIV) (d : LogDir) (e : ValueEntry) : Option (ValuePointer × LogDir) :=
  if d.full then (d.rotate reg iv).bind fun d => d.append e else d.append e

def readValue (d : LogDir) (vp : ValuePointer) : Option Bytes :=
  if vp.size = 0 then some []
  else (lookupFid d.segments vp.fid).bind fun g => g.segment.readValue vp.offset.toNat vp.size.toNat

def tornFiles (d : LogDir) (kept : Nat) : List (UInt32 × Bytes) :=
  d.segments.map fun p => (p.1, if p.1 = d.active then p.2.bytes.take kept else p.2.bytes)

end LogDir

structure VlogState where
  dir : LogDir
  written : List (ValuePointer × ValueEntry)

inductive VlogOp where
  | write (iv : BaseIV) (e : ValueEntry)
  | rotate (iv : BaseIV)
  /-- A crash that leaves so many bytes of the active segment, and an opening; all of them if there are fewer. -/
  | reopen (kept : Nat) (ivs : UInt32 → BaseIV)

namespace VlogState

def step (reg : Option KeyRegistry) (s : VlogState) : VlogOp → Option VlogState
  | .write iv e => (s.dir.write reg iv e).map fun r => ⟨r.2, s.written ++ [(r.1, e)]⟩
  | .rotate iv => (s.dir.rotate reg iv).map fun d => ⟨d, s.written⟩
  | .reopen kept ivs => (LogDir.openFiles reg ivs s.dir.maxSize (s.dir.tornFiles kept)).map fun d => ⟨d, s.written⟩

def Room (s : VlogState) : Prop := s.dir.active.toNat + 1 < 2 ^ 32

instance (s : VlogState) : Decidable s.Room := inferInstanceAs (Decidable (_ < _))

/-- Entries fit their fields, and numbers do not start again. -/
def StepOk (s : VlogState) : VlogOp → Prop
  | .write _ e => e.Fits ∧ (s.dir.full = true → s.Room)
  | .rotate _ | .reopen _ _ => s.Room

instance (s : VlogState) (op : VlogOp) : Decidable (s.StepOk op) :=
  match op with
  | .write _ _ => inferInstanceAs (Decidable ((_ ∧ _) ∧ (_ → _)))
  | .rotate _ | .reopen _ _ => inferInstanceAs (Decidable (Room _))

def Survives (s : VlogState) (vp : ValuePointer) : Prop :=
  ∃ g, lookupFid s.dir.segments vp.fid = some g ∧ vp.offset.toNat + vp.size.toNat ≤ g.bytes.length

/-- What the log has promised for what was written to it. -/
structure Promise (s : VlogState) : Prop where
  reads : ∀ w ∈ s.written, (s.Survives w.1 ∨ w.2.value = [] → s.dir.readValue w.1 = some w.2.value) ∧
    (¬(s.Survives w.1 ∨ w.2.value = []) → s.dir.readValue w.1 = none)
  apart : s.written.Pairwise fun a b => a.1.fid = b.1.fid → a.1.offset ≠ b.1.offset
  /-- `Recover` finds the entries that are there with their last byte, at the places of their pointers. -/
  recovers : ∀ fid g, lookupFid s.dir.segments fid = some g →
    g.recover = some ((s.written.filter fun w => decide (w.1.fid = fid ∧
      Inside g.bytes.length (w.2, w.1.offset.toNat))).map fun w => (w.2, w.1.offset.toNat))

end VlogState

def headerSize (reg : Option KeyRegistry) : Nat := if reg.isSome then encSegmentHeaderSize else segmentHeaderSize

section Header

variable {reg : Option KeyRegistry} (iv iv' : BaseIV) (rest : Bytes)

@[simp] theorem new_length : (OpenSegment.new iv reg).bytes.length = headerSize reg := by
  cases reg with
  | none => simp [OpenSegment.new, headerSize, segmentHeaderSize]
  | some reg => simp [OpenSegment.new, headerSize, encSegmentHeaderSize, iv.length_eq]

theorem eight_le_headerSize (reg : Option KeyRegistry) : 8 ≤ headerSize reg := by
  unfold headerSize
  split <;> decide

theorem new_fields : beGet (((OpenSegment.new iv reg).bytes ++ rest).take 4) = segmentMagic ∧
    beGet ((((OpenSegment.new iv reg).bytes ++ rest).drop 4).take 4) =
      if reg.isSome then segmentVersionEncrypt else segmentVersion := by
  have hmagic : beGet (bePut 4 segmentMagic) = segmentMagic := by decide
  have hversion : beGet (bePut 4 segmentVersion) = segmentVersion := by decide
  have hencrypt : beGet (bePut 4 segmentVersionEncrypt) = segmentVersionEncrypt := by decide
  cases reg with
  | none => simp [OpenSegment.new, hmagic, hversion]
  | some reg => simp [OpenSegment.new, hmagic, hencrypt]

theorem new_append_ne_nil : (OpenSegment.new iv reg).bytes ++ rest ≠ [] := by
  intro h
  have hlen := congrArg List.length h
  rw [List.length_append, new_length, List.length_nil] at hlen
  have := eight_le_headerSize reg
  omega

theorem openSegment_header : openSegment reg iv' ((OpenSegment.new iv reg).bytes ++ rest) =
    some ⟨(OpenSegment.new iv reg).bytes ++ rest, (OpenSegment.new iv reg).ks, reg.isSome⟩ := by
  obtain ⟨hmagic, hversion⟩ := @new_fields reg iv rest
  have h8 := eight_le_headerSize reg
  have hlen : ((OpenSegment.new iv reg).bytes ++ rest).length = headerSize reg + rest.length := by
    rw [List.length_append, new_length]
  rw [openSegment, if_neg (new_append_ne_nil iv rest), if_neg (by rw [hlen, segmentHeaderSize]; omega), hmagic,
    hversion]
  cases reg with
  | none => rfl
  | some reg =>
    have hkey : UInt64.ofNat (beGet ((((OpenSegment.new iv (some reg)).bytes ++ rest).drop 8).take 8)) =
        reg.activeKey := by
      have hcut : (((OpenSegment.new iv (some reg)).bytes ++ rest).drop 8).take 8 = bePut 8 reg.activeKey.toNat := by
        simp [OpenSegment.new, List.drop_append, List.drop_eq_nil_of_le]
      rw [hcut, ofNat_beGet_bePut]
    have hiv : (((OpenSegment.new iv (some reg)).bytes ++ rest).drop 16).take 16 = iv.bytes := by
      simp [OpenSegment.new, List.drop_append, List.drop_eq_nil_of_le, iv.length_eq]
    obtain ⟨stream, hstream⟩ := Option.isSome_iff_exists.mp reg.active_known
    have hks : (OpenSegment.new iv (some reg)).ks = stream iv.bytes := reg.stream_eq hstream iv
    have hlong : ¬((OpenSegment.new iv (some reg)).bytes ++ rest).length < encSegmentHeaderSize := by
      rw [hlen]
      exact not_lt.mpr (Nat.le_add_right _ _)
    rw [if_pos ⟨rfl, rfl⟩, if_neg hlong, Option.bind_some, hkey, hstream, Option.map_some, hiv, hks]
    rfl

theorem openSegment_torn {m : Nat} (hpos : 0 < m) (hlt : m < headerSize reg) :
    openSegment reg iv' (((OpenSegment.new iv reg).bytes ++ rest).take m) = none := by
  have hlen : (((OpenSegment.new iv reg).bytes ++ rest).take m).length = m := by
    rw [List.length_take, List.length_append, new_length]
    omega
  have hne : ((OpenSegment.new iv reg).bytes ++ rest).take m ≠ [] := by
    intro h
    rw [h, List.length_nil] at hlen
    omega
  rw [openSegment, if_neg hne, hlen]
  by_cases h8 : m < segmentHeaderSize
  · rw [if_pos h8]
  · cases reg with
    | none => exact absurd hlt h8
    | some reg =>
      -- the version says that there is more of the header
      obtain ⟨hmagic, hversion⟩ := @new_fields (some reg) iv rest
      rw [segmentHeaderSize] at h8
      have h4 : (((OpenSegment.new iv (some reg)).bytes ++ rest).take m).take 4 =
          ((OpenSegment.new iv (some reg)).bytes ++ rest).take 4 := by
        rw [List.take_take, Nat.min_eq_left (by omega)]
      have h48 : ((((OpenSegment.new iv (some reg)).bytes ++ rest).take m).drop 4).take 4 =
          (((OpenSegment.new iv (some reg)).bytes ++ rest).drop 4).take 4 := by
        rw [List.drop_take, List.take_take, Nat.min_eq_left (by omega)]
      rw [if_neg (by rw [segmentHeaderSize]; omega), h4, h48, hmagic, hversion, if_pos ⟨rfl, rfl⟩]
      exact if_pos hlt

end Header

/-! ## Parts of segments -/

def wholeFile (reg : Option KeyRegistry) (iv : BaseIV) (es : List ValueEntry) : Bytes :=
  (OpenSegment.new iv reg).bytes ++ encodeEntries (OpenSegment.new iv reg).ks (headerSize reg) es

/-- The header and as much of the entries as there is. -/
structure PartOf (reg : Option KeyRegistry) (iv : BaseIV) (es : List ValueEntry) (g : OpenSegment) : Prop where
  ks : g.ks = (OpenSegment.new iv reg).ks
  encrypted : g.encrypted = reg.isSome
  long : headerSize reg ≤ g.bytes.length
  cut : g.bytes <+: wholeFile reg iv es

theorem partOf_new (reg : Option KeyRegistry) (iv : BaseIV) (es : List ValueEntry) :
    PartOf reg iv es (.new iv reg) where
  ks := rfl
  encrypted := by cases reg <;> rfl
  long := le_of_eq (new_length iv).symm
  cut := List.prefix_append _ _

theorem value_of_mem_placed (ks : Nat → UInt8) {off : Nat} {es : List ValueEntry} {p : ValueEntry × Nat}
    (h : p ∈ placed off es) :
    ((encodeEntries ks off es).drop (p.2 - off)).take p.1.value.length = crypt ks p.2 p.1.value := by
  induction es generalizing off with
  | nil => cases h
  | cons e es ih =>
    rw [encodeEntries_cons]
    rcases List.mem_cons.mp h with rfl | h
    · dsimp only
      rw [show off + entryHeaderSize + e.key.length - off = entryHeaderSize + e.key.length by omega]
      have hval : (crypt ks (off + entryHeaderSize + e.key.length) e.value).length = e.value.length := crypt_length ..
      have hfront : ((e.header (crypt ks (off + entryHeaderSize + e.key.length) e.value).length) ++ e.key).length =
          entryHeaderSize + e.key.length := by simp
      rw [encodeEntry, List.append_assoc, List.append_assoc (_ ++ e.key), List.drop_left' hfront, List.take_left' hval]
    · have hle := (lt_of_mem_placed h).1
      rw [show p.2 - off = e.size + (p.2 - (off + e.size)) by omega, ← List.drop_drop,
        List.drop_left' (encodeEntry_length ..)]
      exact ih h

namespace PartOf

variable {reg : Option KeyRegistry} {iv : BaseIV} {es : List ValueEntry} {g : OpenSegment}

section
variable (h : PartOf reg iv es g)
include h

theorem eq_header : ∃ rest, g.bytes = (OpenSegment.new iv reg).bytes ++ rest ∧
    rest <+: encodeEntries (OpenSegment.new iv reg).ks (headerSize reg) es := by
  have hhead : (OpenSegment.new iv reg).bytes <+: g.bytes :=
    List.prefix_of_prefix_length_le (List.prefix_append _ _) h.cut (by rw [new_length]; exact h.long)
  obtain ⟨rest, hrest⟩ := hhead
  refine ⟨rest, hrest.symm, (List.prefix_append_right_inj (OpenSegment.new iv reg).bytes).mp ?_⟩
  rw [hrest]
  exact h.cut

theorem reopen (iv' : BaseIV) : openSegment reg iv' g.bytes = some g := by
  obtain ⟨rest, hbytes, -⟩ := h.eq_header
  rw [hbytes, openSegment_header, ← hbytes, ← h.ks, ← h.encrypted]

theorem take {kept : Nat} (hk : headerSize reg ≤ kept) :
    PartOf reg iv es { g with bytes := g.bytes.take kept } where
  ks := h.ks
  encrypted := h.encrypted
  long := by
    rw [List.length_take]
    exact Nat.le_min.mpr ⟨hk, h.long⟩
  cut := (List.take_prefix _ _).trans h.cut

theorem torn (iv' : BaseIV) {kept : Nat} (hpos : 0 < kept) (hlt : kept < headerSize reg) :
    openSegment reg iv' (g.bytes.take kept) = none := by
  obtain ⟨rest, hbytes, -⟩ := h.eq_header
  rw [hbytes]
  exact openSegment_torn iv iv' rest hpos hlt

theorem recover (hfits : ∀ e ∈ es, e.Fits) :
    g.recover = some ((placed (headerSize reg) es).filter fun p => decide (Inside g.bytes.length p)) := by
  obtain ⟨rest, hbytes, hrest⟩ := h.eq_header
  have hne : g.bytes ≠ [] := by
    rw [hbytes]
    exact new_append_ne_nil iv rest
  have hlong := h.long
  have h8 := eight_le_headerSize reg
  have hstart : (if g.encrypted then encSegmentHeaderSize else segmentHeaderSize) = headerSize reg := by
    rw [h.encrypted, headerSize]
  have henc : ¬(g.encrypted = true ∧ g.bytes.length < encSegmentHeaderSize) := by
    rintro ⟨he, hlt⟩
    rw [he, if_pos rfl] at hstart
    omega
  have hmagic : ¬(g.bytes.length < segmentHeaderSize ∨ beGet (g.bytes.take 4) ≠ segmentMagic) := by
    rw [not_or, not_not, hbytes]
    refine ⟨?_, (new_fields iv rest).1⟩
    rw [← hbytes, segmentHeaderSize]
    omega
  have hdrop : g.bytes.drop (headerSize reg) =
      (encodeEntries (OpenSegment.new iv reg).ks (headerSize reg) es).take (g.bytes.length - headerSize reg) := by
    rw [hbytes, List.drop_left' (new_length iv), List.length_append, new_length, Nat.add_sub_cancel_left]
    exact List.prefix_iff_eq_take.mp hrest
  rw [OpenSegment.recover, if_neg hne, if_neg hmagic, if_neg henc]
  dsimp only
  rw [hstart, hdrop, h.ks, located_take _ _ hfits, Nat.add_sub_cancel' hlong]

theorem readValue {p : ValueEntry × Nat} (hp : p ∈ placed (headerSize reg) es) :
    g.segment.readValue p.2 p.1.value.length =
      if p.2 + p.1.value.length ≤ g.bytes.length then some p.1.value else none := by
  change (if p.2 + p.1.value.length ≤ g.bytes.length then _ else _) = _
  refine ite_congr rfl (fun hle => congrArg some ?_) fun _ => rfl
  have hoff := (lt_of_mem_placed hp).1
  have hread : (g.bytes.drop p.2).take p.1.value.length =
      ((wholeFile reg iv es).drop p.2).take p.1.value.length := by
    obtain ⟨more, hmore⟩ := h.cut
    rw [← hmore, List.drop_append_of_le_length (by omega),
      List.take_append_of_le_length (by rw [List.length_drop]; omega)]
  have hwhole : (wholeFile reg iv es).drop p.2 =
      (encodeEntries (OpenSegment.new iv reg).ks (headerSize reg) es).drop (p.2 - headerSize reg) := by
    rw [show p.2 = headerSize reg + (p.2 - headerSize reg) by omega, ← List.drop_drop, wholeFile,
      List.drop_left' (new_length iv), Nat.add_sub_cancel_left]
  change crypt g.ks p.2 ((g.bytes.drop p.2).take p.1.value.length) = _
  rw [hread, hwhole, value_of_mem_placed _ hp, h.ks, crypt_crypt]

end

end PartOf

section Numbers

variable {α : Type} {l : List (UInt32 × α)} {fid : UInt32} {a : α}

theorem lookupFid_eq_some (hn : (l.map Prod.fst).Nodup) : lookupFid l fid = some a ↔ (fid, a) ∈ l := by
  induction l with
  | nil => simp [lookupFid]
  | cons p l ih =>
    rw [List.map_cons, List.nodup_cons] at hn
    by_cases hp : p.1 = fid
    · have hout : (fid, a) ∉ l := fun h => hn.1 (hp ▸ List.mem_map_of_mem h)
      have hhead : lookupFid (p :: l) fid = some p.2 := by simp [lookupFid, hp]
      rw [hhead, List.mem_cons, or_iff_left hout, Option.some_inj, ← hp]
      grind
    · have htail : lookupFid (p :: l) fid = lookupFid l fid := by simp [lookupFid, hp]
      rw [htail, ih hn.2, List.mem_cons]
      grind

theorem lookupFid_eq_none (h : fid ∉ l.map Prod.fst) : lookupFid l fid = none := by
  rw [lookupFid, Option.map_eq_none_iff, List.find?_eq_none]
  intro p hp heq
  exact h (List.mem_map.mpr ⟨p, hp, eq_of_beq heq⟩)

theorem putFid_fids (h : fid ∈ l.map Prod.fst) : (putFid l fid a).map Prod.fst = l.map Prod.fst := by
  rw [putFid, if_pos h, List.map_map]
  refine List.map_congr_left fun p _ => ?_
  dsimp only [Function.comp_apply]
  split
  · rename_i hp
    exact hp.symm
  · rfl

theorem mem_putFid {p : UInt32 × α} (h : p ∈ putFid l fid a) : p = (fid, a) ∨ p.1 ≠ fid ∧ p ∈ l := by
  unfold putFid at h
  split at h
  · obtain ⟨q, hq, rfl⟩ := List.mem_map.mp h
    split
    · exact .inl rfl
    · rename_i hne
      exact .inr ⟨hne, hq⟩
  · rename_i hnew
    rcases List.mem_append.mp h with h | h
    · exact .inr ⟨fun heq => hnew (heq ▸ List.mem_map_of_mem h), h⟩
    · exact .inl (List.mem_singleton.mp h)

def fidsTo (n : Nat) : List UInt32 := (List.range n).map fun i => UInt32.ofNat (i + 1)

theorem fidsTo_succ (n : Nat) : fidsTo (n + 1) = fidsTo n ++ [UInt32.ofNat (n + 1)] := by
  rw [fidsTo, List.range_succ, List.map_append, fidsTo]
  rfl

theorem mem_fidsTo {n : Nat} (hn : n < 2 ^ 32) : fid ∈ fidsTo n ↔ 0 < fid.toNat ∧ fid.toNat ≤ n := by
  constructor
  · intro h
    obtain ⟨i, hi, rfl⟩ := List.mem_map.mp h
    have hi := List.mem_range.mp hi
    rw [UInt32.toNat_ofNat_of_lt' (by simp only [UInt32.size]; omega)]
    omega
  · rintro ⟨hpos, hle⟩
    refine List.mem_map.mpr ⟨fid.toNat - 1, List.mem_range.mpr (by omega), ?_⟩
    rw [Nat.sub_add_cancel hpos, UInt32.ofNat_toNat]

theorem nodup_fidsTo {n : Nat} (hn : n < 2 ^ 32) : (fidsTo n).Nodup := by
  refine List.Nodup.map_on (fun i hi j hj heq => ?_) List.nodup_range
  have hi := List.mem_range.mp hi
  have hj := List.mem_range.mp hj
  have := congrArg UInt32.toNat heq
  rw [UInt32.toNat_ofNat_of_lt' (by simp only [UInt32.size]; omega),
    UInt32.toNat_ofNat_of_lt' (by simp only [UInt32.size]; omega)] at this
  omega

theorem foldl_max_fidsTo {n : Nat} (hn : n < 2 ^ 32) : (fidsTo n).foldl max 0 = UInt32.ofNat n := by
  induction n with
  | zero => rfl
  | succ n ih =>
    rw [fidsTo_succ, List.foldl_append, ih (by omega), List.foldl_cons, List.foldl_nil]
    have hle : UInt32.ofNat n ≤ UInt32.ofNat (n + 1) := by
      rw [UInt32.le_iff_toNat_le, UInt32.toNat_ofNat_of_lt' (by simp only [UInt32.size]; omega),
        UInt32.toNat_ofNat_of_lt' (by simp only [UInt32.size]; omega)]
      exact Nat.le_succ n
    exact if_pos hle

end Numbers

/-! ## What every run keeps -/

def entriesAt (fid : UInt32) (written : List (ValuePointer × ValueEntry)) : List ValueEntry :=
  (written.filter fun w => decide (w.1.fid = fid)).map Prod.snd

theorem entriesAt_append (fid : UInt32) (ws vs : List (ValuePointer × ValueEntry)) :
    entriesAt fid (ws ++ vs) = entriesAt fid ws ++ entriesAt fid vs := by
  simp only [entriesAt, List.filter_append, List.map_append]

def pointed (w : ValuePointer × ValueEntry) : ValueEntry × Nat := (w.2, w.1.offset.toNat)

/-- Segments 1 to `n` are parts of what was written to them. -/
structure Kept (reg : Option KeyRegistry) (n : Nat) (segments : List (UInt32 × OpenSegment))
    (written : List (ValuePointer × ValueEntry)) : Prop where
  fids : segments.map Prod.fst = fidsTo n
  parts : ∀ p ∈ segments, ∃ iv, PartOf reg iv (entriesAt p.1 written) p.2
  fits : ∀ w ∈ written, w.2.Fits ∧ w.1.size.toNat = w.2.value.length
  known : ∀ w ∈ written, 0 < w.1.fid.toNat ∧ w.1.fid.toNat ≤ n
  places : ∀ fid, (written.filter fun w => decide (w.1.fid = fid)).map pointed =
    placed (headerSize reg) (entriesAt fid written)

/-- Every segment is a part of what was written to it, and the active one is the whole. -/
structure Sound (reg : Option KeyRegistry) (s : VlogState) : Prop
    extends Kept reg s.dir.active.toNat s.dir.segments s.written where
  whole : ∃ g iv, (s.dir.active, g) ∈ s.dir.segments ∧ PartOf reg iv (entriesAt s.dir.active s.written) g ∧
    g.bytes = wholeFile reg iv (entriesAt s.dir.active s.written)

theorem placed_increasing (off : Nat) (es : List ValueEntry) : (placed off es).Pairwise fun a b => a.2 < b.2 := by
  induction es generalizing off with
  | nil => exact List.Pairwise.nil
  | cons e es ih =>
    refine List.Pairwise.cons (fun p hp => ?_) (ih _)
    have := (lt_of_mem_placed hp).1
    simp only [ValueEntry.size] at this
    dsimp only
    omega

namespace Sound

variable {reg : Option KeyRegistry} {s s' : VlogState}

theorem active_lt (s : VlogState) : s.dir.active.toNat < 2 ^ 32 := s.dir.active.toNat_lt

section
variable (h : Sound reg s)
include h

theorem nodup : (s.dir.segments.map Prod.fst).Nodup := by
  rw [h.fids]
  exact nodup_fidsTo (active_lt s)

theorem mem_fids {fid : UInt32} :
    fid ∈ s.dir.segments.map Prod.fst ↔ 0 < fid.toNat ∧ fid.toNat ≤ s.dir.active.toNat := by
  rw [h.fids]
  exact mem_fidsTo (active_lt s)

theorem lookup {fid : UInt32} (hpos : 0 < fid.toNat) (hle : fid.toNat ≤ s.dir.active.toNat) :
    ∃ g, lookupFid s.dir.segments fid = some g ∧ (fid, g) ∈ s.dir.segments := by
  obtain ⟨p, hp, rfl⟩ := List.mem_map.mp (h.mem_fids.mpr ⟨hpos, hle⟩)
  exact ⟨p.2, (lookupFid_eq_some h.nodup).mpr hp, hp⟩

theorem pointed_mem {w : ValuePointer × ValueEntry} (hw : w ∈ s.written) :
    pointed w ∈ placed (headerSize reg) (entriesAt w.1.fid s.written) := by
  rw [← h.places]
  exact List.mem_map_of_mem (List.mem_filter.mpr ⟨hw, by simp⟩)

theorem fits_at (fid : UInt32) : ∀ e ∈ entriesAt fid s.written, e.Fits := by
  intro e he
  obtain ⟨w, hw, rfl⟩ := List.mem_map.mp he
  exact (h.fits w (List.mem_of_mem_filter hw)).1

theorem reads : ∀ w ∈ s.written,
    (s.Survives w.1 ∨ w.2.value = [] → s.dir.readValue w.1 = some w.2.value) ∧
    (¬(s.Survives w.1 ∨ w.2.value = []) → s.dir.readValue w.1 = none) := by
  intro w hw
  obtain ⟨hpos, hle⟩ := h.known w hw
  obtain ⟨g, hg, hmem⟩ := h.lookup hpos hle
  obtain ⟨iv, hpart⟩ := h.parts _ hmem
  have hsize := (h.fits w hw).2
  have hread := hpart.readValue (h.pointed_mem hw)
  have hsurvives : s.Survives w.1 ↔ w.1.offset.toNat + w.2.value.length ≤ g.bytes.length := by
    rw [← hsize]
    refine ⟨fun ⟨g', hg', hin⟩ => ?_, fun hin => ⟨g, hg, hin⟩⟩
    rw [Option.some.inj (hg.symm.trans hg')]
    exact hin
  by_cases hempty : w.2.value = []
  · have hzero : w.1.size = 0 := by
      rw [← UInt32.toNat_inj, hsize, hempty]
      rfl
    simp [LogDir.readValue, hzero, hempty]
  · have hne : w.1.size ≠ 0 := by
      intro hz
      rw [hz] at hsize
      exact hempty (List.length_eq_zero_iff.mp hsize.symm)
    have hvalue : s.dir.readValue w.1 =
        if w.1.offset.toNat + w.2.value.length ≤ g.bytes.length then some w.2.value else none := by
      rw [LogDir.readValue, if_neg hne, hg, Option.bind_some, hsize]
      exact hread
    rw [hvalue, hsurvives, or_iff_left hempty]
    exact ⟨fun hin => if_pos hin, fun hout => if_neg hout⟩

theorem apart : s.written.Pairwise fun a b => a.1.fid = b.1.fid → a.1.offset ≠ b.1.offset := by
  rw [List.pairwise_iff_forall_sublist]
  intro a b hab hfid heq
  -- both are in one segment, where the offsets increase
  have hsub := ((hab.filter fun w => decide (w.1.fid = b.1.fid)).map pointed)
  rw [List.filter_cons_of_pos (by simpa using hfid), List.filter_cons_of_pos (by simp), List.filter_nil,
    h.places b.1.fid] at hsub
  have hlt := List.pairwise_iff_forall_sublist.mp (placed_increasing _ _) hsub
  rw [pointed, pointed, heq] at hlt
  exact lt_irrefl _ hlt

theorem recovers : ∀ fid g, lookupFid s.dir.segments fid = some g →
    g.recover = some ((s.written.filter fun w => decide (w.1.fid = fid ∧
      Inside g.bytes.length (w.2, w.1.offset.toNat))).map fun w => (w.2, w.1.offset.toNat)) := by
  intro fid g hg
  obtain ⟨iv, hpart⟩ := h.parts _ ((lookupFid_eq_some h.nodup).mp hg)
  rw [hpart.recover (h.fits_at fid), ← h.places fid, List.filter_map, List.filter_filter]
  refine congrArg (fun l => some (List.map pointed l)) (List.filter_congr fun w _ => ?_)
  rw [Bool.decide_and, Bool.and_comm]
  rfl

theorem promise : s.Promise := ⟨h.reads, h.apart, h.recovers⟩

end

end Sound

theorem openSegment_nil (reg : Option KeyRegistry) (iv : BaseIV) : openSegment reg iv [] = some (.new iv reg) := rfl

theorem entriesAt_eq_nil {fid : UInt32} {written : List (ValuePointer × ValueEntry)}
    (h : ∀ w ∈ written, w.1.fid ≠ fid) : entriesAt fid written = [] := by
  rw [entriesAt, List.filter_eq_nil_iff.mpr fun w hw => by simpa using h w hw]
  rfl

def OpenSegment.appended (g : OpenSegment) (e : ValueEntry) : OpenSegment :=
  { g with bytes := g.bytes ++ encodeEntry g.ks g.bytes.length e }

theorem fits_of_mem_recover {g : OpenSegment} {l : List (ValueEntry × Nat)} (h : g.recover = some l)
    {p : ValueEntry × Nat} (hp : p ∈ l) : p.1.Fits := by
  have hlocated : ∀ scanned off, p ∈ located off scanned → p.1 ∈ scanned.map Prod.fst := by
    intro scanned
    induction scanned with
    | nil => exact fun _ h => absurd h List.not_mem_nil
    | cons q scanned ih =>
      intro off hp
      rcases List.mem_cons.mp hp with rfl | hp
      · exact List.mem_cons_self
      · exact List.mem_cons_of_mem _ (ih _ hp)
  unfold OpenSegment.recover at h
  split at h
  · cases h
    cases hp
  split at h
  · cases h
  split at h
  · cases h
  · cases h
    exact (entryFormat g.ks).fits_of_mem_records (hlocated _ _ hp)

namespace Kept

variable {reg : Option KeyRegistry} {n : Nat} {segments : List (UInt32 × OpenSegment)}
  {written : List (ValuePointer × ValueEntry)}

theorem next_toNat (hn : n + 1 < 2 ^ 32) : (UInt32.ofNat (n + 1)).toNat = n + 1 :=
  UInt32.toNat_ofNat_of_lt' hn

theorem next_not_mem (h : Kept reg n segments written) (hn : n + 1 < 2 ^ 32) :
    UInt32.ofNat (n + 1) ∉ segments.map Prod.fst := by
  rw [h.fids, mem_fidsTo (by omega), next_toNat hn]
  omega

theorem begin (h : Kept reg n segments written) (hn : n + 1 < 2 ^ 32) (iv : BaseIV) (maxSize : Int) :
    Sound reg ⟨⟨putFid segments (UInt32.ofNat (n + 1)) (.new iv reg), UInt32.ofNat (n + 1), maxSize⟩, written⟩ := by
  have hput : putFid segments (UInt32.ofNat (n + 1)) (.new iv reg) =
      segments ++ [(UInt32.ofNat (n + 1), .new iv reg)] := if_neg (h.next_not_mem hn)
  have hnone : entriesAt (UInt32.ofNat (n + 1)) written = [] := by
    refine entriesAt_eq_nil fun w hw heq => ?_
    have := (h.known w hw).2
    rw [heq, next_toNat hn] at this
    omega
  rw [hput]
  refine ⟨⟨?_, fun p hp => ?_, h.fits, fun w hw => ?_, h.places⟩, .new iv reg, iv, by simp, partOf_new .., ?_⟩
  · rw [List.map_append, h.fids, next_toNat hn, fidsTo_succ]
    rfl
  · rcases List.mem_append.mp hp with hp | hp
    · exact h.parts p hp
    · rw [List.mem_singleton.mp hp]
      exact ⟨iv, partOf_new ..⟩
  · obtain ⟨hpos, hle⟩ := h.known w hw
    dsimp only
    rw [next_toNat hn]
    exact ⟨hpos, by omega⟩
  · dsimp only
    rw [hnone, wholeFile]
    exact (List.append_nil _).symm

end Kept

theorem openFiles_eq {reg : Option KeyRegistry} {ivs : UInt32 → BaseIV} {files : List (UInt32 × Bytes)}
    {found : List (UInt32 × OpenSegment)} {n : Nat}
    (hfound : files.filterMap (fun f => (openSegment reg (ivs f.1) f.2).map fun g => (f.1, g)) = found)
    (hfids : found.map Prod.fst = fidsTo n) (hn : n + 1 < 2 ^ 32) (maxSize : Int) :
    LogDir.openFiles reg ivs maxSize files =
      (openSegment reg (ivs (UInt32.ofNat (n + 1))) ((lookupFid files (UInt32.ofNat (n + 1))).getD [])).map fun g =>
        ⟨putFid found (UInt32.ofNat (n + 1)) g, UInt32.ofNat (n + 1), maxSize⟩ := by
  have hnext : (found.map Prod.fst).foldl max 0 + 1 = UInt32.ofNat (n + 1) := by
    rw [hfids, foldl_max_fidsTo (by omega), UInt32.ofNat_add]
    rfl
  have hnone : lookupFid found (UInt32.ofNat (n + 1)) = none := by
    refine lookupFid_eq_none ?_
    rw [hfids, mem_fidsTo (by omega), Kept.next_toNat hn]
    omega
  simp only [LogDir.openFiles, hfound, hnext, hnone]

namespace Sound

variable {reg : Option KeyRegistry} {s s' : VlogState}

theorem next_eq (s : VlogState) : s.dir.active + 1 = UInt32.ofNat (s.dir.active.toNat + 1) := by
  rw [UInt32.ofNat_add, UInt32.ofNat_toNat]
  rfl

theorem rotate (h : Sound reg s) (hroom : s.Room) (iv : BaseIV) :
    ∃ d, s.dir.rotate reg iv = some d ∧ Sound reg ⟨d, s.written⟩ := by
  have hnone : lookupFid s.dir.segments (s.dir.active + 1) = none := by
    rw [next_eq]
    exact lookupFid_eq_none (h.next_not_mem hroom)
  refine ⟨_, ?_, h.begin hroom iv s.dir.maxSize⟩
  simp only [LogDir.rotate, hnone, Option.map_none, Option.getD_none, openSegment_nil, Option.map_some]
  rw [next_eq]

variable {e : ValueEntry} {r : ValuePointer × LogDir} {kept : Nat}

theorem append_eq (h : Sound reg s) (hr : s.dir.append e = some r) :
    ∃ g iv, (s.dir.active, g) ∈ s.dir.segments ∧ PartOf reg iv (entriesAt s.dir.active s.written) g ∧
      g.bytes = wholeFile reg iv (entriesAt s.dir.active s.written) ∧ g.bytes.length + e.size < 2 ^ 63 ∧
      r = (⟨s.dir.active, UInt64.ofNat (g.bytes.length + entryHeaderSize + e.key.length),
          UInt32.ofNat e.value.length⟩,
        { s.dir with segments := putFid s.dir.segments s.dir.active (g.appended e) }) := by
  obtain ⟨g, iv, hmem, hpart, hwhole⟩ := h.whole
  refine ⟨g, iv, hmem, hpart, hwhole, ?_⟩
  rw [LogDir.append, LogDir.activeSegment, (lookupFid_eq_some h.nodup).mpr hmem, Option.bind_some,
    Segment.writeEntry] at hr
  split at hr
  · rename_i hlen
    rw [Segment.entryBytes_eq_encode, encodeEntry_length] at hlen
    exact ⟨hlen, (Option.some.inj hr).symm⟩
  · cases hr

theorem offset_toNat {len : Nat} (hlen : len + e.size < 2 ^ 63) :
    (UInt64.ofNat (len + entryHeaderSize + e.key.length)).toNat = len + entryHeaderSize + e.key.length := by
  refine UInt64.toNat_ofNat_of_lt' ?_
  simp only [ValueEntry.size] at hlen
  simp only [UInt64.size]
  omega

theorem append (h : Sound reg s) (hfits : e.Fits) (hr : s.dir.append e = some r) :
    Sound reg ⟨r.2, s.written ++ [(r.1, e)]⟩ := by
  obtain ⟨g, iv, hmem, hpart, hwhole, hlen, rfl⟩ := h.append_eq hr
  have hactive : s.dir.active ∈ s.dir.segments.map Prod.fst := List.mem_map_of_mem hmem
  obtain ⟨hpos, hle⟩ := h.mem_fids.mp hactive
  have hat : ∀ fid vp, entriesAt fid (s.written ++ [((vp : ValuePointer), e)]) =
      if vp.fid = fid then entriesAt fid s.written ++ [e] else entriesAt fid s.written := by
    intro fid vp
    rw [entriesAt_append]
    split
    · rename_i hfid
      simp [entriesAt, hfid]
    · rename_i hfid
      simp [entriesAt, hfid]
  have hsum : g.bytes.length = headerSize reg + ((entriesAt s.dir.active s.written).map ValueEntry.size).sum := by
    rw [hwhole, wholeFile, List.length_append, new_length, encodeEntries_length]
  have hmore : (g.appended e).bytes = wholeFile reg iv (entriesAt s.dir.active s.written ++ [e]) := by
    rw [OpenSegment.appended, wholeFile, encodeEntries_append, ← List.append_assoc, ← wholeFile, ← hwhole,
      encodeEntries_length, ← hsum,
      encodeEntries_cons, hpart.ks]
    exact congrArg _ (List.append_nil _).symm
  have hpart' : PartOf reg iv (entriesAt s.dir.active s.written ++ [e]) (g.appended e) := by
    refine ⟨hpart.ks, hpart.encrypted, ?_, ?_⟩
    · rw [OpenSegment.appended, List.length_append]
      exact le_trans hpart.long (Nat.le_add_right _ _)
    · rw [hmore]
  refine ⟨⟨?_, fun p hp => ?_, fun w hw => ?_, fun w hw => ?_, fun fid => ?_⟩, ?_⟩
  · exact (putFid_fids hactive).trans h.fids
  · rw [hat]
    rcases mem_putFid hp with rfl | ⟨hne, hp⟩
    · rw [if_pos rfl]
      exact ⟨iv, hpart'⟩
    · rw [if_neg fun heq => hne heq.symm]
      exact h.parts p hp
  · rcases List.mem_append.mp hw with hw | hw
    · exact h.fits w hw
    · rw [List.mem_singleton.mp hw]
      refine ⟨hfits, UInt32.toNat_ofNat_of_lt' ?_⟩
      have := hfits.2
      simp only [UInt32.size]
      omega
  · rcases List.mem_append.mp hw with hw | hw
    · exact h.known w hw
    · rw [List.mem_singleton.mp hw]
      exact ⟨hpos, hle⟩
  · dsimp only
    rw [hat, List.filter_append, List.map_append, h.places fid]
    split
    · rename_i hfid
      rw [placed_append, ← hfid, ← hsum, List.filter_cons_of_pos (by simp), List.filter_nil, List.map_singleton,
        pointed, offset_toNat hlen]
      rfl
    · rename_i hfid
      rw [List.filter_cons_of_neg (by simpa using hfid), List.filter_nil, List.map_nil, List.append_nil]
  · refine ⟨g.appended e, iv, ?_, ?_⟩
    · dsimp only
      rw [putFid, if_pos hactive]
      exact List.mem_map.mpr ⟨_, hmem, if_pos rfl⟩
    · rw [hat, if_pos rfl]
      exact ⟨hpart', hmore⟩

def reopened (reg : Option KeyRegistry) (s : VlogState) (kept : Nat) (ivs : UInt32 → BaseIV)
    (p : UInt32 × OpenSegment) : OpenSegment :=
  if p.1 = s.dir.active then
    if kept = 0 then .new (ivs p.1) reg else { p.2 with bytes := p.2.bytes.take kept }
  else p.2

theorem open_again (h : Sound reg s) (hk : kept = 0 ∨ headerSize reg ≤ kept)
    (ivs : UInt32 → BaseIV) {p : UInt32 × OpenSegment} (hp : p ∈ s.dir.segments) :
    openSegment reg (ivs p.1) (if p.1 = s.dir.active then p.2.bytes.take kept else p.2.bytes) =
        some (reopened reg s kept ivs p) ∧
      ∃ iv, PartOf reg iv (entriesAt p.1 s.written) (reopened reg s kept ivs p) := by
  obtain ⟨iv, hpart⟩ := h.parts p hp
  by_cases hactive : p.1 = s.dir.active
  · rw [reopened, if_pos hactive, if_pos hactive]
    by_cases hzero : kept = 0
    · rw [if_pos hzero, hzero, List.take_zero]
      exact ⟨openSegment_nil .., _, partOf_new ..⟩
    · rw [if_neg hzero]
      have hcut := hpart.take (hk.resolve_left hzero)
      exact ⟨hcut.reopen _, iv, hcut⟩
  · rw [reopened, if_neg hactive, if_neg hactive]
    exact ⟨hpart.reopen _, iv, hpart⟩

theorem lookup_tornFiles (s : VlogState) (kept : Nat) (fid : UInt32) :
    lookupFid (s.dir.tornFiles kept) fid = (lookupFid s.dir.segments fid).map fun g =>
      if fid = s.dir.active then g.bytes.take kept else g.bytes := by
  rw [LogDir.tornFiles]
  induction s.dir.segments with
  | nil => rfl
  | cons p l ih =>
    by_cases hp : p.1 = fid
    · simp [lookupFid, hp]
    · simp only [lookupFid, List.map_cons] at ih ⊢
      rw [List.find?_cons_of_neg (by simpa using hp), List.find?_cons_of_neg (by simpa using hp)]
      exact ih

theorem reopen (h : Sound reg s) (hroom : s.Room) (hk : kept = 0 ∨ headerSize reg ≤ kept)
    (ivs : UInt32 → BaseIV) :
    ∃ d, LogDir.openFiles reg ivs s.dir.maxSize (s.dir.tornFiles kept) = some d ∧ Sound reg ⟨d, s.written⟩ := by
  let found := s.dir.segments.map fun p => (p.1, reopened reg s kept ivs p)
  have hfound : (s.dir.tornFiles kept).filterMap
      (fun f => (openSegment reg (ivs f.1) f.2).map fun g => (f.1, g)) = found := by
    rw [LogDir.tornFiles, List.filterMap_map]
    refine (List.filterMap_congr fun p hp => ?_).trans (congrFun List.filterMap_eq_map _)
    simp only [Function.comp_apply, (h.open_again hk ivs hp).1, Option.map_some]
  have hkept : Kept reg s.dir.active.toNat found s.written := by
    refine ⟨?_, fun q hq => ?_, h.fits, h.known, h.places⟩
    · rw [List.map_map]
      exact h.fids
    · obtain ⟨p, hp, rfl⟩ := List.mem_map.mp hq
      exact (h.open_again hk ivs hp).2
  have hnone : lookupFid (s.dir.tornFiles kept) (UInt32.ofNat (s.dir.active.toNat + 1)) = none := by
    rw [lookup_tornFiles, lookupFid_eq_none (h.next_not_mem hroom)]
    rfl
  refine ⟨_, ?_, hkept.begin hroom (ivs (UInt32.ofNat (s.dir.active.toNat + 1))) s.dir.maxSize⟩
  rw [openFiles_eq hfound hkept.fids hroom, hnone, Option.getD_none, openSegment_nil, Option.map_some]

theorem reopen_torn (h : Sound reg s) (hpos : 0 < kept) (hlt : kept < headerSize reg)
    (ivs : UInt32 → BaseIV) :
    LogDir.openFiles reg ivs s.dir.maxSize (s.dir.tornFiles kept) = none := by
  obtain ⟨g, iv, hmem, hpart, -⟩ := h.whole
  obtain ⟨n, hn⟩ : ∃ n, s.dir.active.toNat = n + 1 :=
    Nat.exists_eq_add_one.mpr (h.mem_fids.mp (List.mem_map_of_mem hmem)).1
  have hlast : UInt32.ofNat (n + 1) = s.dir.active := by rw [← hn, UInt32.ofNat_toNat]
  obtain ⟨init, last, hsegs, hinit, hl⟩ : ∃ init last, s.dir.segments = init ++ last ∧
      init.map Prod.fst = fidsTo n ∧ last.map Prod.fst = [s.dir.active] := by
    have := h.fids
    rw [hn, fidsTo_succ, hlast] at this
    obtain ⟨init, last, heq, hi, hl⟩ := List.map_eq_append_iff.mp this
    exact ⟨init, last, heq, hi, hl⟩
  have hbefore : ∀ p ∈ init, p.1 ≠ s.dir.active := by
    intro p hp heq
    have hin : p.1 ∈ fidsTo n := hinit ▸ List.mem_map_of_mem hp
    have := active_lt s
    rw [heq, mem_fidsTo (by omega)] at hin
    omega
  have hfound : (s.dir.tornFiles kept).filterMap
      (fun f => (openSegment reg (ivs f.1) f.2).map fun g => (f.1, g)) = init := by
    rw [LogDir.tornFiles, List.filterMap_map, hsegs, List.filterMap_append]
    refine (congrArg₂ _ ?_ ?_).trans (List.append_nil init)
    · refine (List.filterMap_congr fun p hp => ?_).trans List.filterMap_some
      obtain ⟨iv, hpart⟩ := h.parts p (hsegs ▸ List.mem_append_left _ hp)
      simp only [Function.comp_apply, if_neg (hbefore p hp), hpart.reopen, Option.map_some]
    · refine List.filterMap_eq_nil_iff.mpr fun p hp => ?_
      obtain ⟨iv, hpart⟩ := h.parts p (hsegs ▸ List.mem_append_right _ hp)
      have hfid : p.1 = s.dir.active := List.mem_singleton.mp (hl ▸ List.mem_map_of_mem hp)
      simp only [Function.comp_apply, if_pos hfid, hpart.torn _ hpos hlt, Option.map_none]
  rw [openFiles_eq hfound hinit (by have := active_lt s; omega), hlast, lookup_tornFiles,
    (lookupFid_eq_some h.nodup).mpr hmem, Option.map_some, if_pos rfl, Option.getD_some, hpart.torn _ hpos hlt]
  rfl

theorem write_eq (h : Sound reg s) (hroom : s.dir.full = true → s.Room) {iv : BaseIV}
    (hw : s.dir.write reg iv e = some r) :
    ∃ d : LogDir, Sound reg ⟨d, s.written⟩ ∧ d.append e = some r := by
  unfold LogDir.write at hw
  split at hw
  · rename_i hfull
    obtain ⟨d, hd, hsound⟩ := h.rotate (hroom hfull) iv
    rw [hd, Option.bind_some] at hw
    exact ⟨d, hsound, hw⟩
  · exact ⟨s.dir, h, hw⟩

theorem step {op : VlogOp} (h : Sound reg s) (hok : s.StepOk op) (hs : s.step reg op = some s') : Sound reg s' := by
  cases op with
  | write iv e =>
    obtain ⟨r, hr, rfl⟩ := Option.map_eq_some_iff.mp hs
    obtain ⟨d, hd, happend⟩ := h.write_eq hok.2 hr
    exact hd.append hok.1 happend
  | rotate iv =>
    obtain ⟨d, hd, hsound⟩ := h.rotate hok iv
    rw [VlogState.step, hd] at hs
    cases hs
    exact hsound
  | reopen kept ivs =>
    by_cases hk : kept = 0 ∨ headerSize reg ≤ kept
    · obtain ⟨d, hd, hsound⟩ := h.reopen hok hk ivs
      rw [VlogState.step, hd] at hs
      cases hs
      exact hsound
    · rw [not_or, not_le] at hk
      rw [VlogState.step, h.reopen_torn (Nat.pos_of_ne_zero hk.1) hk.2] at hs
      cases hs

theorem fits_of_promise (h : Sound reg s) (hr : s.dir.append e = some r)
    (hpromise : VlogState.Promise ⟨r.2, s.written ++ [(r.1, e)]⟩) : e.Fits := by
  obtain ⟨g, iv, hmem, -, -, hlen, rfl⟩ := h.append_eq hr
  have hactive : s.dir.active ∈ s.dir.segments.map Prod.fst := List.mem_map_of_mem hmem
  have hlookup : lookupFid (putFid s.dir.segments s.dir.active (g.appended e)) s.dir.active = some (g.appended e) := by
    refine (lookupFid_eq_some ?_).mpr ?_
    · rw [putFid_fids hactive]
      exact h.nodup
    · rw [putFid, if_pos hactive]
      exact List.mem_map.mpr ⟨_, hmem, if_pos rfl⟩
  have hrecover := hpromise.recovers s.dir.active (g.appended e) hlookup
  refine fits_of_mem_recover hrecover (List.mem_map.mpr ⟨_, List.mem_filter.mpr ⟨List.mem_append_right _
    (List.mem_singleton.mpr rfl), ?_⟩, rfl⟩)
  rw [decide_eq_true_eq]
  refine ⟨rfl, ?_⟩
  rw [Inside, offset_toNat hlen, OpenSegment.appended, List.length_append, encodeEntry_length]
  simp only [ValueEntry.size]
  omega

end Sound

theorem sound_empty (reg : Option KeyRegistry) (ivs : UInt32 → BaseIV) (maxSize : Int) :
    ∃ d, LogDir.openFiles reg ivs maxSize [] = some d ∧ Sound reg ⟨d, []⟩ := by
  have hkept : Kept reg 0 [] [] := ⟨rfl, nofun, nofun, nofun, fun _ => rfl⟩
  refine ⟨_, ?_, hkept.begin (by norm_num) (ivs (UInt32.ofNat (0 + 1))) maxSize⟩
  exact @openFiles_eq reg ivs [] [] 0 rfl hkept.fids (by norm_num) maxSize

/-- **Torn tails of the value log**: when it opens once more, and what it keeps. -/
theorem torn_tail_iff {reg : Option KeyRegistry} {ivs : UInt32 → BaseIV} {maxSize : Int} {ops : List VlogOp}
    {d : LogDir} {s : VlogState} (hopen : LogDir.openFiles reg ivs maxSize [] = some d)
    (hg : Guarded (VlogState.step reg) VlogState.StepOk ⟨d, []⟩ ops)
    (hr : run (VlogState.step reg) ⟨d, []⟩ ops = some s) :
    s.Promise ∧
      (s.Room → ∀ kept ivs, (∃ s', s.step reg (.reopen kept ivs) = some s' ∧ s'.Promise) ↔
        kept = 0 ∨ headerSize reg ≤ kept) ∧
      ∀ iv e s', (s.dir.full = true → s.Room) → s.step reg (.write iv e) = some s' → (s'.Promise ↔ e.Fits) := by
  obtain ⟨d', hd', hempty⟩ := sound_empty reg ivs maxSize
  rw [Option.some.inj (hd'.symm.trans hopen)] at hempty
  have hsound : Sound reg s := run_invariant (fun h hok hs => h.step hok hs) hempty hg hr
  refine ⟨hsound.promise, fun hroom kept ivs => ⟨fun ⟨s', hs, _⟩ => ?_, fun hk => ?_⟩, fun iv e s' hroom hs => ⟨?_, ?_⟩⟩
  · by_contra hk
    rw [not_or, not_le] at hk
    rw [VlogState.step, hsound.reopen_torn (Nat.pos_of_ne_zero hk.1) hk.2] at hs
    cases hs
  · obtain ⟨d, hd, hagain⟩ := hsound.reopen hroom hk ivs
    exact ⟨⟨d, s.written⟩, by rw [VlogState.step, hd, Option.map_some], hagain.promise⟩
  · intro hpromise
    obtain ⟨r, hr, rfl⟩ := Option.map_eq_some_iff.mp hs
    obtain ⟨d, hd, happend⟩ := hsound.write_eq hroom hr
    exact hd.fits_of_promise happend hpromise
  · intro hfits
    have hok : s.StepOk (.write iv e) := ⟨hfits, hroom⟩
    exact (hsound.step hok hs).promise

/-- A log of two entries, whose second is cut inside its value: one can be read, and the other cannot. -/
theorem cut_entry_not_read :
    let iv : BaseIV := ⟨List.replicate 16 0, rfl⟩
    let e : ValueEntry := ⟨1, [107], [118, 119], 0⟩
    ∃ d s, LogDir.openFiles none (fun _ => iv) 100 [] = some d ∧
      run (VlogState.step none) ⟨d, []⟩ [.write iv e, .write iv e, .reopen 51 fun _ => iv, .write iv e] = some s ∧
      s.Promise ∧ s.written.map (fun w => (w.1.fid, w.1.offset, s.dir.readValue w.1)) =
        [(1, 26, some [118, 119]), (1, 50, none), (2, 26, some [118, 119])] := by
  intro iv e
  obtain ⟨d, hd⟩ : ∃ d, LogDir.openFiles none (fun _ => iv) 100 [] = some d := ⟨_, rfl⟩
  obtain ⟨s, hs, htest⟩ := @exists_of_any _ (run (VlogState.step none) ⟨d, []⟩
      [.write iv e, .write iv e, .reopen 51 fun _ => iv, .write iv e])
    (fun s => decide (s.written.map (fun w => (w.1.fid, w.1.offset, s.dir.readValue w.1)) =
        [(1, 26, some [118, 119]), (1, 50, none), (2, 26, some [118, 119])])) (by
      cases hd
      decide +kernel)
  refine ⟨d, s, hd, hs, (torn_tail_iff hd ?_ hs).1, of_decide_eq_true htest⟩
  cases hd
  decide +kernel

/-- The last segment is cut inside its header: the log is not opened again. -/
theorem cut_header_not_opened :
    let iv : BaseIV := ⟨List.replicate 16 0, rfl⟩
    let e : ValueEntry := ⟨1, [107], [118, 119], 0⟩
    let reg : KeyRegistry := ⟨1, fun _ => some fun _ _ => 90, rfl⟩
    (∃ d s, LogDir.openFiles none (fun _ => iv) 100 [] = some d ∧
      run (VlogState.step none) ⟨d, []⟩ [.write iv e] = some s ∧
      (s.step none (.reopen 3 fun _ => iv)).isNone = true) ∧
    ∃ d s, LogDir.openFiles (some reg) (fun _ => iv) 100 [] = some d ∧
      run (VlogState.step (some reg)) ⟨d, []⟩ [.write iv e, .rotate iv] = some s ∧
      (s.step (some reg) (.reopen 20 fun _ => iv)).isNone = true := by
  intro iv e reg
  refine ⟨⟨_, _, rfl, rfl, ?_⟩, _, _, rfl, rfl, ?_⟩
  · decide +kernel
  · decide +kernel

end Vlog
end AkwaDB
