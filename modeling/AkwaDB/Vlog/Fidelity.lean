import AkwaDB.Vlog.Log
import AkwaDB.Wal.Batch

/-!
# AkwaDB.Vlog.Fidelity

A value from the request that writes it to the memtable that recovery builds.

A short value stands in the record itself, a long one in the value log and the record holds a
pointer. Recovery tells the two apart by the contents of the record: 20 bytes that begin with `VLPT`
are a pointer. `value_recovered_iff` says which values come back: those whose length fits the
fields, and of the short ones those that do not look like a pointer to something else.
-/

namespace AkwaDB
namespace Vlog

open Wal

/-- `applyEntry`: it has the same three branches as the loop of `applyBatch`. -/
def applyEntry (env : BatchEnv) (version : UInt64) (b : BatchWriteEntry) : Option (Record × Entry) :=
  batchItem env version 0 b

inductive Write where
  | entry (b : BatchWriteEntry)
  | batch (bs : List BatchWriteEntry)

namespace Write

def entries : Write → List BatchWriteEntry
  | entry b => [b]
  | batch bs => bs

def records (env : BatchEnv) (version : UInt64) : Write → Option (List Record)
  | entry b => (applyEntry env version b).map fun item => [item.1]
  | batch bs => if completes env version bs then some (appended env version bs) else none

theorem records_eq_some {env : BatchEnv} {version : UInt64} {q : Write} {rs : List Record}
    (h : q.records env version = some rs) :
    completes env version q.entries = true ∧ rs = appended env version q.entries := by
  cases q with
  | entry b =>
    obtain ⟨item, hitem, rfl⟩ := Option.map_eq_some_iff.mp h
    rw [applyEntry] at hitem
    simp [completes, appended, entries, batchItems, hitem]
  | batch bs =>
    rw [records] at h
    split at h
    · rename_i hc
      cases h
      exact ⟨hc, rfl⟩
    · cases h

end Write

structure WriteEnv where
  threshold : Nat
  clock : Nat → Int64
  files : Files
  log : ValueLog

namespace WriteEnv

def long (w : WriteEnv) (b : BatchWriteEntry) : Option ValueEntry :=
  if b.deleted ∨ b.value.length < w.threshold then none
  else some ⟨opPut, b.key, b.value, b.expiresAt⟩

def batchEnv (w : WriteEnv) (bs : List BatchWriteEntry) : BatchEnv :=
  ⟨w.threshold, fun i _ => w.files.pointerAt w.log (bs.map w.long) i, w.clock⟩

def logAfter (w : WriteEnv) (bs : List BatchWriteEntry) : ValueLog :=
  w.files.logAfter 0 w.log (bs.map w.long)

end WriteEnv

structure Recovery where
  now : Int
  threshold : Nat
  files : Files
  log : ValueLog

namespace Recovery

/-- What the replay loop writes to the value log for a record. -/
def long (rc : Recovery) (r : Record) : Option ValueEntry :=
  if (0 < r.expiresAt.toInt ∧ r.expiresAt.toInt ≤ rc.now) ∨ r.op ≠ Wal.opPut ∨
      (decodeWalValuePointer r.value).isSome ∨ r.value.length < rc.threshold then none
  else some ⟨opPut, r.key, r.value, r.expiresAt⟩

def replayEnv (rc : Recovery) (rs : List Record) : ReplayEnv :=
  ⟨rc.now, rc.threshold, fun i _ => rc.files.pointerAt rc.log (rs.map rc.long) i⟩

def logAfter (rc : Recovery) (rs : List Record) : ValueLog :=
  rc.files.logAfter 0 rc.log (rs.map rc.long)

end Recovery

/-- The record at position `i` has become a node that reads as the entry. -/
def Recovered (rc : Recovery) (rs : List Record) (i : Nat) (version : UInt64)
    (b : BatchWriteEntry) : Prop :=
  ∃ r x, rs[i]? = some r ∧ restored (rc.replayEnv rs) i r r.version.toNat = some x ∧
    x ∈ (replay (rc.replayEnv rs) rs).nodes ∧ x.key = b.key ∧ x.version = version.toNat ∧
    x.deleted = false ∧ x.expiresAt = b.expiresAt.toInt ∧
    resolveValue (rc.logAfter rs) x.value = some b.value

theorem mem_replayFrom_mono {env : ReplayEnv} {i : Nat} {mem : SkipList} {rs : List Record} {x : Entry}
    (h : x ∈ mem.nodes) : x ∈ (replayFrom env i mem rs).nodes := by
  induction rs generalizing i mem with
  | nil => exact h
  | cons r rs ih =>
    refine ih ?_
    rw [replayRecord_eq]
    split
    · exact SkipList.mem_insertNode.mpr (Or.inr h)
    · exact h

theorem mem_replay_of_restored {env : ReplayEnv} {rs : List Record} {i : Nat} {r : Record} {x : Entry}
    (hi : rs[i]? = some r) (hv : r.version ≠ 0)
    (hx : restored env i r r.version.toNat = some x) : x ∈ (replay env rs).nodes := by
  obtain ⟨hlt, hget⟩ := List.getElem?_eq_some_iff.mp hi
  have hsplit : rs = rs.take i ++ r :: rs.drop (i + 1) := by
    rw [← hget, List.getElem_cons_drop, List.take_append_drop]
  have hpos : 0 + (rs.take i).length = i := by
    rw [Nat.zero_add, List.length_take_of_le (Nat.le_of_lt hlt)]
  have hne : r.version.toNat ≠ 0 := fun h => hv (UInt64.toNat_inj.mp h)
  rw [replay, hsplit, replayFrom_append, hpos, replayFrom]
  refine mem_replayFrom_mono ?_
  rw [replayRecord_eq, SkipList.pickVersion, if_neg hne, hx]
  exact SkipList.mem_insertNode.mpr (Or.inl rfl)

section
variable {rc : Recovery} {rs : List Record} {i : Nat} {r : Record}

theorem restored_put (hop : r.op = Wal.opPut)
    (hlive : ¬ (0 < r.expiresAt.toInt ∧ r.expiresAt.toInt ≤ rc.now)) :
    restored (rc.replayEnv rs) i r r.version.toNat =
      some ⟨r.key, restoredValue (rc.replayEnv rs) i r, false, r.expiresAt.toInt, r.version.toNat⟩ := by
  exact (if_neg hlive).trans (if_pos hop)

theorem resolveValue_of_pointer {vp : ValuePointer} (h : decodeWalValuePointer r.value = some vp) :
    resolveValue (rc.logAfter rs) (restoredValue (rc.replayEnv rs) i r) =
      (rc.logAfter rs).readValue vp := by
  rw [restoredValue, h, resolveValue_pointer]

theorem resolveValue_of_inline (hi : rs[i]? = some r) (hlen : r.value.length < 2 ^ 32)
    (h : decodeWalValuePointer r.value = none) :
    resolveValue (rc.logAfter rs) (restoredValue (rc.replayEnv rs) i r) = some r.value := by
  rw [restoredValue, h]
  dsimp only
  split
  · exact resolveValue_inline _ _
  · cases hvp : (rc.replayEnv rs).vlogWrite i r with
    | none => exact resolveValue_inline _ _
    | some vp =>
      obtain ⟨v, hv, hread⟩ := Files.pointerAt_spec hvp
      rw [List.getElem?_map, hi, Option.map_some, Option.some.injEq, Recovery.long] at hv
      split at hv
      · cases hv
      · cases hv
        exact (resolveValue_pointer _ _).trans (hread hlen)

theorem resolveValue_restored_length (hr : r.Fits) {v : Bytes}
    (h : resolveValue (rc.logAfter rs) (restoredValue (rc.replayEnv rs) i r) = some v) :
    v.length < 256 ^ 4 := by
  have hread : ∀ vp, (rc.logAfter rs).readValue vp = some v → v.length < 256 ^ 4 := by
    intro vp hv
    rw [ValueLog.readValue_length hv]
    exact vp.size.toNat_lt
  cases hvp : decodeWalValuePointer r.value with
  | some vp => exact hread vp ((resolveValue_of_pointer hvp).symm.trans h)
  | none =>
    rw [restoredValue, hvp] at h
    dsimp only at h
    split at h
    · cases h
      exact hr.2
    · split at h
      · cases h
        exact hr.2
      · rw [resolveValue_pointer] at h
        exact hread _ h

theorem Recovered.fits {version : UInt64} {b : BatchWriteEntry} (hrs : ∀ r ∈ rs, r.Fits)
    (h : Recovered rc rs i version b) : b.Fits := by
  obtain ⟨r, x, hr, hx, _, hkey, _, hdel, _, hval⟩ := h
  have hfits := hrs r (List.mem_of_getElem? hr)
  unfold restored at hx
  split at hx
  · cases hx
    cases hdel
  · split at hx
    · cases hx
      rw [BatchWriteEntry.Fits, ← hkey]
      exact ⟨hfits.1, resolveValue_restored_length hfits hval⟩
    · split at hx
      · cases hx
        cases hdel
      · cases hx

end

/-! ## From the request to the node -/

theorem batchItem_put {env : BatchEnv} {version : UInt64} {i : Nat} {b : BatchWriteEntry}
    {item : Record × Entry} (hput : b.deleted = false) (h : batchItem env version i b = some item) :
    ∃ val, item.1 = ⟨Wal.opPut, b.key, val, b.expiresAt, version, env.clock i⟩ ∧
      (b.value.length < env.threshold → val = b.value) ∧
      (¬ b.value.length < env.threshold → ∃ vp, env.vlogWrite i b = some vp ∧
        val = encodeWalValuePointer vp) := by
  rw [batchItem, if_neg (by simp [hput])] at h
  split at h
  · rename_i hlt
    cases h
    exact ⟨b.value, rfl, fun _ => rfl, fun hn => absurd hlt hn⟩
  · rename_i hlt
    obtain ⟨vp, hvp, rfl⟩ := Option.map_eq_some_iff.mp h
    exact ⟨_, rfl, fun hl => absurd hl hlt, fun _ => ⟨vp, hvp, rfl⟩⟩

theorem recover_getElem? (ks : Nat → UInt8) (head : Bytes) {pre : List Record}
    (hpre : ∀ r ∈ pre, r.Fits) {env : BatchEnv} {version : UInt64} {bs : List BatchWriteEntry} {i : Nat}
    (hfits : ∀ c ∈ bs.take (i + 1), c.Fits) {item : Record × Entry}
    (hitem : (batchItems env version 0 bs).1[i]? = some item) (rest : Bytes) :
    (recover ks head.length (head ++ writeAll ks head.length (pre ++ appended env version bs) ++
      rest)).1[pre.length + i]? = some item.1 := by
  let read := pre ++ (appended env version bs).take (i + 1)
  have htaken : appended env version (bs.take (i + 1)) = (appended env version bs).take (i + 1) := by
    rw [appended, batchItems_take, List.map_take, appended]
  have hread : ∀ r ∈ read, r.Fits := by
    intro r hr
    cases List.mem_append.mp hr with
    | inl h => exact hpre r h
    | inr h => exact appended_fits hfits (htaken ▸ h)
  have hsplit : pre ++ appended env version bs = read ++ (appended env version bs).drop (i + 1) := by
    rw [List.append_assoc, List.take_append_drop]
  have hscan : ∃ others, (recover ks head.length (head ++
      writeAll ks head.length (pre ++ appended env version bs) ++ rest)).1 = read ++ others := by
    rw [recover, List.append_assoc, List.drop_left, hsplit, writeAll_append, List.append_assoc]
    exact ⟨_, ((format ks).writer.scan_write head.length hread _).1⟩
  obtain ⟨others, hothers⟩ := hscan
  have hget : (appended env version bs)[i]? = some item.1 := by
    rw [appended, List.getElem?_map, hitem, Option.map_some]
  have hlt : i < (appended env version bs).length := (List.getElem?_eq_some_iff.mp hget).1
  rw [hothers, List.append_assoc, List.getElem?_append_right (by omega), Nat.add_sub_cancel_left,
    List.getElem?_append_left (by rw [List.length_take]; omega), List.getElem?_take_of_lt (by omega),
    hget]

/-- **Which values come back**: those that fit and are not taken for a pointer. -/
theorem value_recovered_iff (ks : Nat → UInt8) (head : Bytes) (w : WriteEnv) (rc : Recovery)
    {pre written : List Record} (hpre : ∀ r ∈ pre, r.Fits) (rest : Bytes) {q : Write} {version : UInt64}
    (hv : version ≠ 0) (hq : q.records (w.batchEnv q.entries) version = some written)
    (hlog : (w.logAfter q.entries).Extends rc.log) {i : Nat} {b : BatchWriteEntry}
    (hb : q.entries[i]? = some b) (hput : b.deleted = false)
    (hlive : ¬ (0 < b.expiresAt.toInt ∧ b.expiresAt.toInt ≤ rc.now))
    (hbefore : ∀ c ∈ q.entries.take i, c.Fits) :
    let rs := (recover ks head.length (head ++ writeAll ks head.length (pre ++ written) ++ rest)).1
    Recovered rc rs (pre.length + i) version b ↔
      b.Fits ∧ (b.value.length < w.threshold → ∀ vp, decodeWalValuePointer b.value = some vp →
        (rc.logAfter rs).readValue vp = some b.value) := by
  obtain ⟨hdone, rfl⟩ := Write.records_eq_some hq
  intro rs
  obtain ⟨item, hitem, hget⟩ := batchItems_getElem? hdone hb
  rw [Nat.zero_add] at hitem
  obtain ⟨val, hrec, hshort, hlong⟩ := batchItem_put hput hitem
  -- the record is found once the lengths are known to fit
  have hfound : b.Fits → rs[pre.length + i]? = some item.1 := by
    intro hfits
    refine recover_getElem? ks head hpre ?_ hget rest
    intro c hc
    rw [List.take_add_one, hb, List.mem_append] at hc
    cases hc with
    | inl hc => exact hbefore c hc
    | inr hc =>
      obtain rfl : c = b := by simpa using hc
      exact hfits
  have hrest : restored (rc.replayEnv rs) (pre.length + i) item.1 item.1.version.toNat =
      some ⟨b.key, restoredValue (rc.replayEnv rs) (pre.length + i) item.1, false, b.expiresAt.toInt,
        version.toNat⟩ := by
    rw [hrec]
    exact restored_put rfl hlive
  constructor
  · intro h
    have hfits : b.Fits := h.fits fun r hr => (format ks).fits_of_mem_records hr
    refine ⟨hfits, fun hlt vp hvp => ?_⟩
    obtain ⟨r, x, hr, hx, _, _, _, _, _, hval⟩ := h
    rw [hfound hfits] at hr
    cases hr
    rw [hrest] at hx
    cases hx
    rw [← resolveValue_of_pointer (r := item.1) (i := pre.length + i), hval]
    rw [hrec, hshort hlt]
    exact hvp
  · rintro ⟨hfits, hinline⟩
    refine ⟨item.1, _, hfound hfits, hrest, mem_replay_of_restored (hfound hfits) ?_ hrest, rfl, rfl, rfl,
      rfl, ?_⟩
    · rw [hrec]
      exact hv
    have hlen : b.value.length < 2 ^ 32 := hfits.2
    by_cases hlt : b.value.length < w.threshold
    · have hvalue : item.1.value = b.value := by rw [hrec, hshort hlt]
      cases hvp : decodeWalValuePointer b.value with
      | none =>
        rw [← hvalue]
        rw [← hvalue] at hlen hvp
        exact resolveValue_of_inline (hfound hfits) hlen hvp
      | some vp =>
        have hdec : decodeWalValuePointer item.1.value = some vp := by rw [hvalue, hvp]
        rw [resolveValue_of_pointer hdec]
        exact hinline hlt vp hvp
    · obtain ⟨vp, hvp, hval⟩ := hlong hlt
      obtain ⟨v, hentry, hread⟩ := Files.pointerAt_spec hvp
      rw [List.getElem?_map, hb, Option.map_some, Option.some.injEq, WriteEnv.long,
        if_neg (by simp [hput, hlt])] at hentry
      cases hentry
      have hdec : decodeWalValuePointer item.1.value = some vp := by
        rw [hrec, hval, decodeWalValuePointer_encode]
      rw [resolveValue_of_pointer hdec]
      exact ValueLog.readValue_mono (hlog.trans (Files.logAfter_extends 0 _ _)) (hread hlen)

/-! ## One value of each kind -/

def newLog : ValueLog := ⟨fun f => if f = 1 then some Segment.plain else none, 1, 2 ^ 27⟩

def newFiles : Files := ⟨fun _ => false, fun _ => Segment.plain⟩

def shortLimit : WriteEnv := ⟨2, fun _ => 0, newFiles, newLog⟩

def longAndShort : List BatchWriteEntry := [⟨[97], [1, 2, 3], 0, false⟩, ⟨[98], [4], 0, false⟩]

theorem value_recovered_long :
    let rc : Recovery := ⟨0, 128, newFiles, shortLimit.logAfter longAndShort⟩
    let written := appended (shortLimit.batchEnv longAndShort) 2 longAndShort
    (shortLimit.long ⟨[97], [1, 2, 3], 0, false⟩).isSome ∧
    Recovered rc (recover zeroStream 0 (writeAll zeroStream 0 written)).1 0 2
      ⟨[97], [1, 2, 3], 0, false⟩ := by
  intro rc written
  have hfile : writeAll zeroStream 0 written =
      [] ++ writeAll zeroStream ([] : Bytes).length ([] ++ written) ++ [] := by simp
  have hnil : ∀ r ∈ ([] : List Record), r.Fits := by simp
  have hdone : completes (shortLimit.batchEnv longAndShort) 2 longAndShort = true := by decide +kernel
  have hq : (Write.batch longAndShort).records (shortLimit.batchEnv longAndShort) 2 = some written := by
    rw [Write.records, hdone, if_pos rfl]
  have two_ne : (2 : UInt64) ≠ 0 := by decide
  have hiff := value_recovered_iff zeroStream [] shortLimit rc hnil [] (q := .batch longAndShort)
    two_ne hq (ValueLog.Extends.refl _) (b := ⟨[97], [1, 2, 3], 0, false⟩) (i := 0) rfl rfl
    (by decide) (by simp)
  refine ⟨by decide, ?_⟩
  rw [hfile]
  refine hiff.mpr ⟨⟨by decide, by decide⟩, ?_⟩
  intro hlt
  exact absurd hlt (by decide)

def imitation : BatchWriteEntry := ⟨[107], walValuePtrMagic ++ List.replicate 16 0, 0, false⟩

def usualLimit : WriteEnv := ⟨128, fun _ => 0, newFiles, newLog⟩

/-- Written inline, it comes back as a pointer to nothing: the value read is empty. -/
theorem imitation_lost :
    let rc : Recovery := ⟨0, 128, newFiles, newLog⟩
    let written := appended (usualLimit.batchEnv [imitation]) 2 [imitation]
    let rs := (recover zeroStream 0 (writeAll zeroStream 0 written)).1
    (Write.entry imitation).records (usualLimit.batchEnv [imitation]) 2 = some written ∧
    rs = written ∧
    (replay (rc.replayEnv rs) rs).nodes = [⟨[107], encodeValuePointer ⟨0, 0, 0⟩, false, 0, 2⟩] ∧
    resolveValue (rc.logAfter rs) (encodeValuePointer ⟨0, 0, 0⟩) = some [] ∧
    ¬ Recovered rc rs 0 2 imitation := by
  intro rc written rs
  have hnodes : (replay (rc.replayEnv rs) rs).nodes =
      [⟨[107], encodeValuePointer ⟨0, 0, 0⟩, false, 0, 2⟩] := by decide +kernel
  have hread : resolveValue (rc.logAfter rs) (encodeValuePointer ⟨0, 0, 0⟩) = some [] := by
    rw [resolveValue_pointer]
    rfl
  refine ⟨rfl, by decide +kernel, hnodes, hread, ?_⟩
  rintro ⟨r, x, _, _, hx, _, _, _, _, hval⟩
  rw [hnodes, List.mem_singleton] at hx
  rw [hx, hread] at hval
  exact absurd hval (by decide)

end Vlog
end AkwaDB
