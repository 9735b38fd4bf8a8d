import AkwaDB.Wal.Replay

/-!
# AkwaDB.Wal.Batch

Batches: `applyBatch` appends one record after another to the log and then puts all entries into
the memtable. A value too long to stay inline goes to the value log first; if that fails, the log is
cut back to where the batch began.

Nothing in the log marks the end of a batch. `batch_atomic_iff`: a crash while the records are being
appended leaves all of the batch or none of it, at every byte, exactly when the batch brings at most
one new node (and no more than that if it fails).
-/

namespace AkwaDB
namespace Wal

structure BatchWriteEntry where
  key : Bytes
  value : Bytes
  expiresAt : Int64
  deleted : Bool

/-- The threshold for inline values, the answers of the value log, and the times of the records. -/
structure BatchEnv where
  threshold : Nat
  vlogWrite : Nat → BatchWriteEntry → Option ValuePointer
  clock : Nat → Int64

/-- The record and the node of the entry at position `i`; `none` when the value log fails. -/
def batchItem (env : BatchEnv) (version : UInt64) (i : Nat) (b : BatchWriteEntry) :
    Option (Record × Entry) :=
  if b.deleted then
    some (⟨opDelete, b.key, [], 0, version, env.clock i⟩, ⟨b.key, [], true, 0, version.toNat⟩)
  else if b.value.length < env.threshold then
    some (⟨opPut, b.key, b.value, b.expiresAt, version, env.clock i⟩,
      ⟨b.key, encodeInlineValue b.value, false, b.expiresAt.toInt, version.toNat⟩)
  else
    (env.vlogWrite i b).map fun vp =>
      (⟨opPut, b.key, encodeWalValuePointer vp, b.expiresAt, version, env.clock i⟩,
        ⟨b.key, encodeValuePointer vp, false, b.expiresAt.toInt, version.toNat⟩)

/-- The loop of `applyBatch`: what is appended, and whether it came to the end of the batch. -/
def batchItems (env : BatchEnv) (version : UInt64) :
    Nat → List BatchWriteEntry → List (Record × Entry) × Bool
  | _, [] => ([], true)
  | i, b :: batch =>
    match batchItem env version i b with
    | none => ([], false)
    | some item =>
      let (items, ok) := batchItems env version (i + 1) batch
      (item :: items, ok)

/-- `applyBatch` on the log and the memtable; a failed batch is cut off the log again. -/
def applyBatch (env : BatchEnv) (version : UInt64) (batch : List BatchWriteEntry)
    (wal : List Record) (mem : SkipList) : List Record × SkipList :=
  let (items, ok) := batchItems env version 0 batch
  if ok then (wal ++ items.map Prod.fst, (items.map Prod.snd).foldl SkipList.insertNode mem)
  else (wal, mem)

def appended (env : BatchEnv) (version : UInt64) (batch : List BatchWriteEntry) : List Record :=
  (batchItems env version 0 batch).1.map Prod.fst

def completes (env : BatchEnv) (version : UInt64) (batch : List BatchWriteEntry) : Bool :=
  (batchItems env version 0 batch).2

def crashed (ks : Nat → UInt8) (head : Bytes) (pre rs : List Record) (m : Nat) : Bytes :=
  head ++ writeAll ks head.length pre ++
    (writeAll ks (head.length + (writeAll ks head.length pre).length) rs).take m

def SameNodes (s t : SkipList) : Prop := ∀ x, x ∈ s.nodes ↔ x ∈ t.nodes

/-- A node that the records bring to a log that does not have it. -/
def Brings (env : ReplayEnv) (pre rs : List Record) (x : Entry) : Prop :=
  some x ∈ restoredFrom env pre.length rs ∧ x ∉ (replay env pre).nodes

/-! ## The records of a batch -/

def BatchWriteEntry.Fits (b : BatchWriteEntry) : Prop :=
  b.key.length < 256 ^ 4 ∧ b.value.length < 256 ^ 4

section
variable {env : BatchEnv} {version : UInt64} {i : Nat} {batch : List BatchWriteEntry} {r : Record}

theorem batchItem_spec {b : BatchWriteEntry} {item : Record × Entry}
    (h : batchItem env version i b = some item) :
    item.1.version = version ∧ item.2.version = version.toNat ∧ (b.Fits → item.1.Fits) := by
  unfold batchItem at h
  split at h
  · cases h
    exact ⟨rfl, rfl, fun hf => ⟨hf.1, by simp⟩⟩
  · split at h
    · cases h
      exact ⟨rfl, rfl, fun hf => hf⟩
    · obtain ⟨vp, _, rfl⟩ := Option.map_eq_some_iff.mp h
      exact ⟨rfl, rfl, fun hf => ⟨hf.1, by simp⟩⟩

theorem mem_batchItems {item : Record × Entry} (h : item ∈ (batchItems env version i batch).1) :
    ∃ j, ∃ b ∈ batch, batchItem env version j b = some item := by
  induction batch generalizing i with
  | nil => cases h
  | cons b batch ih =>
    rw [batchItems] at h
    cases hb : batchItem env version i b with
    | none =>
      rw [hb] at h
      cases h
    | some first =>
      rw [hb] at h
      cases List.mem_cons.mp h with
      | inl heq =>
        subst heq
        exact ⟨i, b, by simp, hb⟩
      | inr h =>
        obtain ⟨j, c, hc, hitem⟩ := ih h
        exact ⟨j, c, by simp [hc], hitem⟩

theorem batchItems_take (i j : Nat) (batch : List BatchWriteEntry) :
    (batchItems env version i (batch.take j)).1 = (batchItems env version i batch).1.take j := by
  induction batch generalizing i j with
  | nil => simp [batchItems]
  | cons b batch ih =>
    cases j with
    | zero => rfl
    | succ j =>
      rw [List.take_succ_cons, batchItems, batchItems]
      cases batchItem env version i b with
      | none => rfl
      | some item => simp [ih]

theorem batchItems_getElem? {j : Nat} {b : BatchWriteEntry}
    (h : (batchItems env version i batch).2 = true) (hb : batch[j]? = some b) :
    ∃ item, batchItem env version (i + j) b = some item ∧
      (batchItems env version i batch).1[j]? = some item := by
  induction batch generalizing i j with
  | nil => cases hb
  | cons c batch ih =>
    rw [batchItems] at h ⊢
    cases hc : batchItem env version i c with
    | none =>
      rw [hc] at h
      cases h
    | some item =>
      rw [hc] at h
      cases j with
      | zero =>
        cases hb
        exact ⟨item, hc, rfl⟩
      | succ j =>
        obtain ⟨item', hitem, hget⟩ := ih (i := i + 1) h hb
        exact ⟨item', by rw [← hitem]; congr 1; omega, hget⟩

theorem appended_version (h : r ∈ appended env version batch) : r.version = version := by
  obtain ⟨item, hitem, rfl⟩ := List.mem_map.mp h
  obtain ⟨_, _, _, hb⟩ := mem_batchItems hitem
  exact (batchItem_spec hb).1

theorem appended_fits (hb : ∀ b ∈ batch, b.Fits) (h : r ∈ appended env version batch) : r.Fits := by
  obtain ⟨item, hitem, rfl⟩ := List.mem_map.mp h
  obtain ⟨_, b, hmem, hitem⟩ := mem_batchItems hitem
  exact (batchItem_spec hitem).2.2 (hb b hmem)

theorem appended_op (h : r ∈ appended env version batch) : r.op = opPut ∨ r.op = opDelete := by
  obtain ⟨item, hitem, rfl⟩ := List.mem_map.mp h
  obtain ⟨_, b, _, hb⟩ := mem_batchItems hitem
  unfold batchItem at hb
  split at hb
  · cases hb
    exact Or.inr rfl
  · split at hb
    · cases hb
      exact Or.inl rfl
    · obtain ⟨vp, _, rfl⟩ := Option.map_eq_some_iff.mp hb
      exact Or.inl rfl

theorem mem_applyBatch {wal : List Record} {mem : SkipList}
    (h : r ∈ (applyBatch env version batch wal mem).1) :
    r ∈ wal ∨ r ∈ appended env version batch := by
  simp only [applyBatch] at h
  split at h
  · exact List.mem_append.mp h
  · exact Or.inl h

theorem applyBatch_version {wal : List Record} {mem : SkipList} :
    (∀ r ∈ (applyBatch env version batch wal mem).1, r ∈ wal ∨ r.version = version) ∧
      ∀ x ∈ (applyBatch env version batch wal mem).2.nodes, x ∈ mem.nodes ∨
        x.version = version.toNat := by
  refine ⟨fun r hr => (mem_applyBatch hr).imp_right appended_version, ?_⟩
  simp only [applyBatch]
  split
  · intro x hx
    cases SkipList.mem_insertAll.mp hx with
    | inl hx =>
      obtain ⟨item, hitem, rfl⟩ := List.mem_map.mp hx
      obtain ⟨_, _, _, hb⟩ := mem_batchItems hitem
      exact Or.inr (batchItem_spec hb).2.1
    | inr hx => exact Or.inl hx
  · exact fun x hx => Or.inl hx

end

section
variable {pre rs : List Record} {renv : ReplayEnv}

theorem forall_crashed (ks : Nat → UInt8) (head : Bytes) (hpre : ∀ r ∈ pre, r.Fits) (hrs : ∀ r ∈ rs, r.Fits)
    {P : List Record → Prop} :
    (∀ m, P (recover ks head.length (crashed ks head pre rs m)).1) ↔ ∀ j, P (pre ++ rs.take j) := by
  constructor
  · intro h j
    obtain ⟨m, hm⟩ := exists_cut_recover ks head hpre hrs j
    rw [← hm]
    exact h m
  · intro h m
    obtain ⟨j, _, hj⟩ := recover_write_take ks head hpre hrs m
    rw [crashed, hj]
    exact h j

theorem sameNodes_none_iff (hv : ∀ r ∈ rs, r.version ≠ 0) (j : Nat) :
    SameNodes (replay renv (pre ++ rs.take j)) (replay renv pre) ↔
      ∀ o ∈ (restoredFrom renv pre.length rs).take j, ∀ x, o = some x → x ∈ (replay renv pre).nodes := by
  have hmem := mem_replay_append renv pre (rs.take j) fun q hq => hv q (List.mem_of_mem_take hq)
  rw [restoredFrom_take] at hmem
  constructor
  · rintro h _ ho x rfl
    exact (h x).mp ((hmem x).mpr (Or.inr ho))
  · intro h x
    rw [hmem]
    exact ⟨fun hx => hx.elim id fun ho => h _ ho x rfl, Or.inl⟩

theorem sameNodes_all_iff (hv : ∀ r ∈ rs, r.version ≠ 0) (j : Nat) :
    SameNodes (replay renv (pre ++ rs.take j)) (replay renv (pre ++ rs)) ↔
      ∀ o ∈ restoredFrom renv pre.length rs,
        (∀ x, o = some x → x ∈ (replay renv pre).nodes) ∨ o ∈ (restoredFrom renv pre.length rs).take j := by
  have hmem := mem_replay_append renv pre (rs.take j) fun q hq => hv q (List.mem_of_mem_take hq)
  rw [restoredFrom_take] at hmem
  have hall := mem_replay_append renv pre rs hv
  constructor
  · intro h o ho
    cases o with
    | none => exact Or.inl fun x hx => nomatch hx
    | some y =>
      cases (hmem y).mp ((h y).mpr ((hall y).mpr (Or.inr ho))) with
      | inl hy => exact Or.inl fun x hx => Option.some.inj hx ▸ hy
      | inr hy => exact Or.inr hy
  · intro h x
    rw [hmem, hall]
    constructor
    · exact fun hx => hx.imp_right List.mem_of_mem_take
    · intro hx
      cases hx with
      | inl hx => exact Or.inl hx
      | inr ho => exact (h _ ho).imp_left fun hk => hk x rfl

end

/-- **Batches are atomic exactly when they bring at most one new node**, and none if they fail. -/
theorem batch_atomic_iff (ks : Nat → UInt8) (head : Bytes) (env : BatchEnv) (renv : ReplayEnv)
    {pre : List Record} (hpre : ∀ r ∈ pre, r.Fits) {version : UInt64} (hv : version ≠ 0)
    {batch : List BatchWriteEntry} (hb : ∀ b ∈ batch, b.Fits) :
    (∀ m, let recovered := replay renv
            (recover ks head.length (crashed ks head pre (appended env version batch) m)).1
        SameNodes recovered (replay renv pre) ∨
          (completes env version batch = true ∧
            SameNodes recovered (replay renv (pre ++ appended env version batch)))) ↔
      ∀ x y, Brings renv pre (appended env version batch) x →
        Brings renv pre (appended env version batch) y → completes env version batch = true ∧ x = y := by
  generalize hrs : appended env version batch = rs
  have hfits : ∀ r ∈ rs, r.Fits := fun r hr => appended_fits hb (hrs ▸ hr)
  have hver : ∀ r ∈ rs, r.version ≠ 0 := by
    intro r hr
    rw [appended_version (hrs ▸ hr)]
    exact hv
  have hcrash := forall_crashed ks head hpre hfits (P := fun recs =>
    SameNodes (replay renv recs) (replay renv pre) ∨ (completes env version batch = true ∧
      SameNodes (replay renv recs) (replay renv (pre ++ rs))))
  refine hcrash.trans ?_
  simp only [sameNodes_none_iff hver, sameNodes_all_iff hver]
  rw [allOrNone_iff]
  constructor
  · rintro h x y ⟨hx, hnx⟩ ⟨hy, hny⟩
    obtain ⟨hc, heq⟩ := h _ hx _ hy (fun hk => hnx (hk x rfl)) fun hk => hny (hk y rfl)
    exact ⟨hc, Option.some.inj heq⟩
  · intro h o ho p hp hno hnp
    push Not at hno hnp
    obtain ⟨x, rfl, hnx⟩ := hno
    obtain ⟨y, rfl, hny⟩ := hnp
    obtain ⟨hc, rfl⟩ := h x y ⟨ho, hnx⟩ ⟨hp, hny⟩
    exact ⟨hc, rfl⟩

/-! ## One put and two -/

def zeroStream : Nat → UInt8 := fun _ => 0

def inlineEnv : BatchEnv := ⟨128, fun _ _ => none, fun _ => 0⟩

def inlineReplay : ReplayEnv := ⟨0, 128, fun _ _ => none⟩

def putA : BatchWriteEntry := ⟨[97], [1], 0, false⟩

def putB : BatchWriteEntry := ⟨[98], [2], 0, false⟩

theorem batch_atomic_iff_putA : appended inlineEnv 2 [putA] ≠ [] ∧ ∀ m,
    let recovered := replay inlineReplay
      (recover zeroStream 0 (crashed zeroStream [] [] (appended inlineEnv 2 [putA]) m)).1
    SameNodes recovered (replay inlineReplay []) ∨
      (completes inlineEnv 2 [putA] = true ∧
        SameNodes recovered (replay inlineReplay (appended inlineEnv 2 [putA]))) := by
  have hnil : ∀ r ∈ ([] : List Record), r.Fits := by simp
  have hfits : ∀ b ∈ [putA], b.Fits := by simp [BatchWriteEntry.Fits, putA]
  refine ⟨List.cons_ne_nil _ _, (batch_atomic_iff zeroStream [] inlineEnv inlineReplay hnil
    (by decide) hfits).mpr ?_⟩
  have hone : restoredFrom inlineReplay 0 (appended inlineEnv 2 [putA]) =
      [some ⟨[97], [0, 1], false, 0, 2⟩] := by decide +kernel
  rintro x y ⟨hx, _⟩ ⟨hy, _⟩
  simp only [List.length_nil, hone, List.mem_singleton, Option.some.injEq] at hx hy
  exact ⟨rfl, hx.trans hy.symm⟩

/-- A crash behind the first record of two leaves the first write of the batch alone. -/
theorem batch_torn :
    completes inlineEnv 2 [putA, putB] = true ∧
    (replay inlineReplay []).nodes = [] ∧
    (replay inlineReplay (appended inlineEnv 2 [putA, putB])).nodes =
      [⟨[97], [0, 1], false, 0, 2⟩, ⟨[98], [0, 2], false, 0, 2⟩] ∧
    (replay inlineReplay
      (recover zeroStream 0 (crashed zeroStream [] [] (appended inlineEnv 2 [putA, putB]) 39)).1).nodes =
      [⟨[97], [0, 1], false, 0, 2⟩] := by
  decide +kernel

end Wal
end AkwaDB
