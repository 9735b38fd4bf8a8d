import AkwaDB.Engine.Order
import AkwaDB.Lib.Reach

/-!
# AkwaDB.Engine.Race

Any number of writers next to rotations and flushes, step by step.

A writer takes its version in `dispatch` or `CheckAndCommit`, and only then pins the active memtable
under the read lock of `memTableMu`, applies its entries, and marks the version applied. A rotation
needs the lock exclusively, so it waits for pinned memtables, but not for versions already taken.

`rotation_keeps_order`: the layers stay in version order, and point reads find the highest version,
in every run that rotates the memtable only when each version taken and not yet applied is above
what the memtable holds of its key. Otherwise an older version lands in a newer layer
(`rotation_between_writers`).
-/

namespace AkwaDB
namespace Engine

inductive Writer where
  | idle
  | versioned (version : Nat) (es : List Entry)
  | pinned (version : Nat) (es : List Entry)
  | applied (version : Nat)

namespace Writer

def pending : Writer → List Entry
  | versioned _ es => es
  | pinned _ es => es
  | _ => []

def isPinned : Writer → Bool
  | pinned _ _ => true
  | _ => false

end Writer

structure Race where
  engine : Engine
  writers : List Writer
  log : List Entry

namespace Race

inductive Act where
  | take (i : Nat) (txn : Bool) (request : List Entry)
  | pin (i : Nat)
  | apply (i : Nat)
  | skip (i : Nat)
  | mark (i : Nat)
  | rotate
  | flush

def stamp (version : Nat) (request : List Entry) : List Entry :=
  request.map fun x => { x with version }

variable (cfg : Config)

def step (s : Race) : Act → Option Race
  | .take i txn request =>
    match s.writers[i]? with
    | some .idle =>
      let (v, oracle) := s.engine.oracle.newCommitTs
      -- only `dispatch` raises the table counter to the version
      let nextSeq := if txn then s.engine.nextSeq else max s.engine.nextSeq v
      some { s with
        engine := { s.engine with oracle, nextSeq }
        writers := s.writers.set i (.versioned v (stamp v request)) }
    | _ => none
  | .pin i =>
    match s.writers[i]? with
    | some (.versioned v es) => some { s with writers := s.writers.set i (.pinned v es) }
    | _ => none
  | .apply i =>
    match s.writers[i]? with
    | some (.pinned v es) =>
      some ⟨{ s.engine with mem := es.foldl SkipList.insertNode s.engine.mem },
        s.writers.set i (.applied v), s.log ++ es⟩
    | _ => none
  | .skip i =>
    -- a delete whose key does not exist
    match s.writers[i]? with
    | some (.pinned v _) => some { s with writers := s.writers.set i (.applied v) }
    | _ => none
  | .mark i =>
    match s.writers[i]? with
    | some (.applied v) =>
      some { s with
        engine := { s.engine with oracle := s.engine.oracle.markApplied v }
        writers := s.writers.set i .idle }
    | _ => none
  | .rotate =>
    if s.writers.any Writer.isPinned then none
    else s.engine.rotate.map fun engine => { s with engine }
  | .flush => (s.engine.executeFlush cfg).map fun engine => { s with engine }

def fresh (now : Int) (writers : Nat) : Race :=
  ⟨Engine.fresh now, List.replicate writers .idle, []⟩

/-- Keys fit the index, and a rotation leaves no version behind that is below what the memtable holds. -/
def StepOk (s : Race) : Act → Prop
  | .take _ _ request => ∀ x ∈ request, x.key ≠ [] ∧ x.key.length ≤ maxIndexKey
  | .rotate => ∀ w ∈ s.writers, Newer w.pending s.engine.mem.nodes
  | _ => True

/-- Versions in the active memtable are above those in the immutable one and in level 0. -/
def VersionOrdered (s : Race) : Prop :=
  ∀ x ∈ s.engine.mem.nodes, ∀ y, (y ∈ s.engine.immNodes ∨ ∃ t ∈ s.engine.levels 0, y ∈ t.entries) →
    x.key = y.key → y.version < x.version

def ReadsHighest (s : Race) (k : Bytes) : Prop :=
  match s.engine.lookup cfg k fun _ => true with
  | none => ∀ h ∈ s.log, h.key ≠ k
  | some x => ∃ h ∈ s.log, h.key = k ∧ x.version = h.version ∧
      x.answer s.engine.now = h.answer s.engine.now ∧
      ∀ g ∈ s.log, g.key = k → g.version ≤ h.version

structure Inv (s : Race) : Prop where
  ordered : s.engine.Ordered cfg
  pendingImm : ∀ w ∈ s.writers, Newer w.pending s.engine.immNodes
  pendingTable : ∀ w ∈ s.writers, ∀ t ∈ allTables s.engine.levels, Newer w.pending t.entries
  pendingOk : ∀ w ∈ s.writers, ∀ x ∈ w.pending,
    x.version ≤ s.engine.oracle.nextTs ∧ x.key.length ≤ maxIndexKey
  logOk : ∀ h ∈ s.log, h.version ≤ s.engine.oracle.nextTs ∧ h.key.length ≤ maxIndexKey
  covers : Covers Entry.key Entry.version (Entry.ReadsAs s.engine.now) (fun _ => False) 0 s.log
    s.engine.layers.flatten

variable {cfg}

theorem inv_fresh (now : Int) (n : Nat) : Inv cfg (fresh now n) := by
  have hpend : ∀ w ∈ (fresh now n).writers, w.pending = [] := by
    intro w hw
    rw [List.eq_of_mem_replicate hw]
    rfl
  refine ⟨ordered_fresh now, ?_, ?_, ?_, by simp [fresh],
    fun x hx => absurd hx (layers_fresh now x), by simp [fresh]⟩
  · intro w hw x hx
    rw [hpend w hw] at hx
    cases hx
  · intro w hw t _ x hx
    rw [hpend w hw] at hx
    cases hx
  · intro w hw x hx
    rw [hpend w hw] at hx
    cases hx

variable {i : Nat} {s s' : Race}

theorem Inv.setWriter (h : Inv cfg s) {w u : Writer} (hw : s.writers[i]? = some w)
    (hsub : ∀ x ∈ u.pending, x ∈ w.pending) : Inv cfg { s with writers := s.writers.set i u } := by
  have hmem : w ∈ s.writers := List.mem_of_getElem? hw
  -- what holds of the entries of all writers holds of those of the new one
  have hall : ∀ (P : Entry → Prop), (∀ v ∈ s.writers, ∀ x ∈ v.pending, P x) →
      ∀ v ∈ s.writers.set i u, ∀ x ∈ v.pending, P x := by
    intro P hP v hv x hx
    rcases List.mem_or_eq_of_mem_set hv with hv | rfl
    · exact hP v hv x hx
    · exact hP w hmem x (hsub x hx)
  exact ⟨h.ordered, hall _ h.pendingImm,
    fun v hv t ht => hall (fun x => ∀ y ∈ t.entries, x.key = y.key → y.version < x.version)
      (fun v hv => h.pendingTable v hv t ht) v hv,
    hall _ h.pendingOk, h.logOk, h.covers⟩

theorem inv_take {txn : Bool} {request : List Entry} (h : Inv cfg s)
    (hok : StepOk s (.take i txn request)) (hs : s.step cfg (.take i txn request) = some s') :
    Inv cfg s' := by
  simp only [step] at hs
  split at hs
  · cases hs
    have hle : ∀ y ∈ s.engine.layers.flatten, y.version ≤ s.engine.oracle.nextTs := by
      intro y hy
      obtain ⟨g, hg, _, hv, _⟩ := h.covers.sound y hy
      rw [hv]
      exact (h.logOk g hg).1
    -- the version just taken is above all that is stored
    have hnew : ∀ l : List Entry, (∀ y ∈ l, y ∈ s.engine.layers.flatten) →
        Newer (stamp (s.engine.oracle.nextTs + 1) request) l := by
      intro l hl x hx y hy _
      obtain ⟨x', _, rfl⟩ := List.mem_map.mp hx
      have := hle y (hl y hy)
      exact Nat.lt_succ_of_le this
    refine ⟨⟨h.ordered.wf, h.ordered.memImm, h.ordered.memTable, h.ordered.immTable,
      h.ordered.level0, h.ordered.across, h.ordered.apart⟩, ?_, ?_, ?_, ?_, h.covers⟩
    · intro w hw
      rcases List.mem_or_eq_of_mem_set hw with hw | rfl
      · exact h.pendingImm w hw
      · exact hnew _ fun y hy => mem_layers.mpr (Or.inr (Or.inl hy))
    · intro w hw t ht
      rcases List.mem_or_eq_of_mem_set hw with hw | rfl
      · exact h.pendingTable w hw t ht
      · exact hnew _ fun y hy => mem_layers.mpr (Or.inr (Or.inr ⟨t, ht, hy⟩))
    · intro w hw x hx
      rcases List.mem_or_eq_of_mem_set hw with hw | rfl
      · exact ⟨Nat.le_succ_of_le (h.pendingOk w hw x hx).1, (h.pendingOk w hw x hx).2⟩
      · obtain ⟨x', hx', rfl⟩ := List.mem_map.mp hx
        exact ⟨Nat.le_refl _, (hok x' hx').2⟩
    · intro g hg
      exact ⟨Nat.le_succ_of_le (h.logOk g hg).1, (h.logOk g hg).2⟩
  · cases hs

theorem inv_apply (h : Inv cfg s) (hs : s.step cfg (.apply i) = some s') : Inv cfg s' := by
  simp only [step] at hs
  split at hs
  · rename_i v es hw
    cases hs
    have hmem : Writer.pinned v es ∈ s.writers := List.mem_of_getElem? hw
    have hset := h.setWriter (u := .applied v) hw (by simp [Writer.pending])
    refine ⟨h.ordered.insertAll (h.pendingImm _ hmem) (h.pendingTable _ hmem), hset.pendingImm,
      hset.pendingTable, hset.pendingOk, ?_, ?_⟩
    · intro g hg
      rcases List.mem_append.mp hg with hg | hg
      · exact h.logOk g hg
      · exact h.pendingOk _ hmem g hg
    · refine h.covers.write (fun _ _ _ _ => rfl) (fun _ _ hno => hno.elim) ?_
      intro y
      rw [mem_layers, mem_layers, SkipList.mem_insertAll, or_assoc]
      rfl
  · cases hs

theorem inv_mark (h : Inv cfg s) (hs : s.step cfg (.mark i) = some s') : Inv cfg s' := by
  simp only [step] at hs
  split at hs
  · rename_i v hw
    cases hs
    have hset := h.setWriter (u := .idle) hw (by simp [Writer.pending])
    have hnext := s.engine.oracle.markApplied_nextTs v
    refine ⟨⟨h.ordered.wf, h.ordered.memImm, h.ordered.memTable, h.ordered.immTable,
      h.ordered.level0, h.ordered.across, h.ordered.apart⟩, hset.pendingImm, hset.pendingTable,
      ?_, ?_, h.covers⟩
    · intro w hw x hx
      show x.version ≤ (s.engine.oracle.markApplied v).nextTs ∧ _
      rw [hnext]
      exact hset.pendingOk w hw x hx
    · intro g hg
      show g.version ≤ (s.engine.oracle.markApplied v).nextTs ∧ _
      rw [hnext]
      exact h.logOk g hg
  · cases hs

theorem inv_rotate (h : Inv cfg s) (hok : StepOk s .rotate) (hs : s.step cfg .rotate = some s') :
    Inv cfg s' := by
  simp only [step] at hs
  split at hs
  · cases hs
  · obtain ⟨e', hr, rfl⟩ := Option.map_eq_some_iff.mp hs
    have hord := h.ordered.rotate hr
    have hcov := h.covers.congr fun x => mem_rotate hr
    unfold Engine.rotate at hr
    split at hr
    · cases hr
    · cases hr
      exact ⟨hord, hok, h.pendingTable, h.pendingOk, h.logOk, hcov⟩

theorem inv_flush (h : Inv cfg s) (hs : s.step cfg .flush = some s') : Inv cfg s' := by
  obtain ⟨e', hf, rfl⟩ := Option.map_eq_some_iff.mp hs
  have hshort : ∀ x ∈ s.engine.immNodes, x.key.length ≤ maxIndexKey := by
    intro x hx
    obtain ⟨g, hg, hk, _⟩ := h.covers.sound x (mem_layers.mpr (Or.inr (Or.inl hx)))
    rw [hk]
    exact (h.logOk g hg).2
  have hnone : ∀ w ∈ s.writers, Newer w.pending [] := by
    intro w _ x _ y hy
    cases hy
  rcases executeFlush_cases hf hshort with ⟨hnil, rfl⟩ | ⟨t, hwf, hent, rfl⟩
  · refine ⟨h.ordered.dropImm, hnone, h.pendingTable, h.pendingOk, h.logOk, h.covers.congr ?_⟩
    intro x
    rw [mem_layers, mem_layers, hnil]
    rfl
  · refine ⟨h.ordered.flush hwf hent, hnone, ?_, h.pendingOk, h.logOk, covers_flush h.covers hent⟩
    intro w hw u hu
    rcases mem_allTables_flush.mp hu with hu | rfl
    · exact h.pendingTable w hw u hu
    · intro x hx y hy hk
      obtain ⟨z, hz, rfl⟩ := (hent y).mp hy
      simpa using h.pendingImm w hw x hx z hz (by simpa using hk)

theorem inv_step {a : Act} (h : Inv cfg s) (hok : StepOk s a) (hs : s.step cfg a = some s') :
    Inv cfg s' := by
  cases a with
  | take i txn request => exact inv_take h hok hs
  | pin i =>
    simp only [step] at hs
    split at hs
    · rename_i v es hw
      cases hs
      exact h.setWriter hw fun x hx => hx
    · cases hs
  | apply i => exact inv_apply h hs
  | skip i =>
    simp only [step] at hs
    split at hs
    · rename_i v es hw
      cases hs
      exact h.setWriter hw (by simp [Writer.pending])
    · cases hs
  | mark i => exact inv_mark h hs
  | rotate => exact inv_rotate h hok hs
  | flush => exact inv_flush h hs

theorem Inv.versionOrdered (h : Inv cfg s) : s.VersionOrdered := by
  intro x hx y hy hk
  rcases hy with hy | ⟨t, ht, hy⟩
  · exact h.ordered.memImm x hx y hy hk
  · exact h.ordered.memTable t (mem_allTables.mpr ⟨0, by decide, ht⟩) x hx y hy hk

theorem Inv.stored (h : Inv cfg s) {g : Entry} (hg : g ∈ s.log) :
    ∃ x ∈ s.engine.layers.flatten, x.key = g.key ∧ x.version = g.version := by
  rcases h.covers.complete g hg (fun _ _ _ hlt => Nat.zero_lt_of_lt hlt) with hx | ⟨hno, _⟩
  · exact hx
  · exact hno.elim

theorem Inv.readsHighest (h : Inv cfg s) {k : Bytes}
    (ha : ∀ t ∈ allTables s.engine.levels, t.Aligned k) : s.ReadsHighest cfg k := by
  unfold ReadsHighest
  rw [h.ordered.lookup_eq_newest ha]
  split
  · rename_i hnone
    intro g hg hk
    obtain ⟨x, hx, hxk, _⟩ := h.stored hg
    have hmiss := newest_eq_none.mp hnone x hx
    rw [Entry.hits_iff.mpr ⟨hxk.trans hk, rfl⟩] at hmiss
    cases hmiss
  · rename_i x hsome
    have hn := newest_spec hsome
    have hxk := (Entry.hits_iff.mp hn.pass).1
    obtain ⟨g, hg, hk, hv, hr⟩ := h.covers.sound x hn.mem
    refine ⟨g, hg, hk.symm.trans hxk, hv, hr _ (le_refl _), ?_⟩
    intro f hf hfk
    obtain ⟨y, hy, hyk, hyv⟩ := h.stored hf
    have := hn.max y hy (Entry.hits_iff.mpr ⟨hyk.trans hfk, rfl⟩)
    omega

/-- **Rotations next to writers** that meet `StepOk` leave the memtable newer than the layers below it. -/
theorem rotation_keeps_order (now : Int) (n : Nat) {as : List Act} {s : Race}
    (hg : Guarded (step cfg) StepOk (fresh now n) as)
    (hr : run (step cfg) (fresh now n) as = some s) :
    s.VersionOrdered ∧
      ∀ k, (∀ t ∈ allTables s.engine.levels, t.Aligned k) → s.ReadsHighest cfg k := by
  have h := run_invariant inv_step (inv_fresh now n) hg hr
  exact ⟨h.versionOrdered, fun k ha => h.readsHighest ha⟩

/-! ## A rotation between two writers -/

def putK (value : UInt8) : List Entry := [⟨[107], [value], false, 0, 0⟩]

def inTurn : List Act :=
  [.take 0 false (putK 1), .pin 0, .apply 0, .mark 0, .rotate,
   .take 1 false (putK 2), .pin 1, .apply 1, .mark 1]

theorem putK_ok (i : Nat) (txn : Bool) (value : UInt8) (s : Race) :
    StepOk s (.take i txn (putK value)) := by
  intro x hx
  rw [List.mem_singleton.mp hx]
  exact ⟨List.cons_ne_nil _ _, by simp [maxIndexKey]⟩

theorem inTurn_guarded : Guarded (step .plain) StepOk (fresh 0 2) inTurn := by
  refine guarded_step (putK_ok _ _ _ _) rfl (guarded_step trivial rfl (guarded_step trivial rfl
    (guarded_step trivial rfl (guarded_step ?_ rfl (guarded_step (putK_ok _ _ _ _) rfl
      (guarded_step trivial rfl (guarded_step trivial rfl (guarded_step trivial rfl trivial))))))))
  -- when the memtable is rotated no version is outstanding
  intro w hw x hx
  have hidle : w = .idle := by simpa [fresh, List.replicate] using hw
  rw [hidle] at hx
  cases hx

theorem rotation_keeps_order_inTurn : ∃ s, run (step .plain) (fresh 0 2) inTurn = some s ∧
    s.VersionOrdered := by
  refine ⟨_, rfl, (rotation_keeps_order 0 2 inTurn_guarded rfl).1⟩

def overtaken : List Act :=
  [.take 0 false (putK 1), .take 1 false (putK 2), .pin 1, .apply 1, .mark 1, .rotate,
   .pin 0, .apply 0, .mark 0]

/-- The lower version sits in the active memtable above the higher one, and a read finds it. -/
theorem rotation_between_writers : ∃ s, run (step .plain) (fresh 0 2) overtaken = some s ∧
    ¬ s.VersionOrdered ∧ ¬ s.ReadsHighest .plain [107] := by
  refine ⟨_, rfl, ?_, ?_⟩
  · intro h
    have hlt := h ⟨[107], [1], false, 0, 2⟩ (by decide +kernel) ⟨[107], [2], false, 0, 3⟩
      (Or.inl (by decide +kernel)) rfl
    exact absurd hlt (by decide)
  · intro h
    unfold ReadsHighest at h
    split at h
    · exact h ⟨[107], [2], false, 0, 3⟩ (by decide +kernel) rfl
    · rename_i x hx
      have hx : some x = some ⟨[107], [1], false, 0, 2⟩ := hx.symm.trans (by decide +kernel)
      obtain ⟨g, _, _, hv, _, hmax⟩ := h
      have hle := hmax ⟨[107], [2], false, 0, 3⟩ (by decide +kernel) rfl
      rw [Option.some.inj hx] at hv
      rw [← hv] at hle
      exact absurd hle (by decide)

end Race
end Engine
end AkwaDB
