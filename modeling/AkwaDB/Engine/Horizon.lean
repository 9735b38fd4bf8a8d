import AkwaDB.Engine.Compact
import AkwaDB.Engine.Reopen
import AkwaDB.Lib.Reach
import AkwaDB.Wal.Batch

/-!
# AkwaDB.Engine.Horizon

The version horizon across reopens.

Commit versions come from the oracle, file numbers from `nextSeq`, and an open sets both counters
to the highest file number or WAL version it finds. A plain write raises `nextSeq` to its version; a
transaction, or a write that brings its version along, does not.

`reopen_above_stored`: after any run in which each memtable that is rotated holds no version above the
number its file gets, an open ends up at or above every version it finds on disk. Plain writes alone
meet that condition (`guarded_of_plain`); one flushed transaction need not (`reopen_below_txn`).
-/

namespace AkwaDB
namespace Engine

/-- `dispatch`, `CheckAndCommit`, or the caller of `BatchApplyWithVersion`. -/
inductive Source where
  | plain
  | txn
  | versioned (version : UInt64)

def takeVersion (e : Engine) : Source → Nat × Oracle × Nat
  | .plain =>
    let (v, oracle) := e.oracle.newCommitTs
    (v, oracle, max e.nextSeq v)
  | .txn =>
    let (v, oracle) := e.oracle.newCommitTs
    (v, oracle.reserveVersion v, e.nextSeq)
  | .versioned v => (v.toNat, e.oracle.reserveVersion v.toNat, e.nextSeq)

/-- A running engine with its table files, which stay when removed, and the records of its logs. -/
structure Durable where
  engine : Engine
  files : List Table
  wal : List Wal.Record
  segments : List (Nat × List Wal.Record)

namespace Durable

def logged (s : Durable) : List Wal.Record := s.segments.flatMap Prod.snd ++ s.wal

inductive Act where
  | write (source : Source) (env : Wal.BatchEnv) (batch : List Wal.BatchWriteEntry) (skipWAL : Bool)
  | rotate
  | flush
  | compact
  | reopen (levelMap : Manifest.Levels) (visited : List Table) (others : List Nat)
      (env : Wal.ReplayEnv) (records : List Wal.Record)

variable (cfg : Config)

/-- A write ends the run where the versions are used up. A reopen finds any tables and records. -/
def step (s : Durable) : Act → Option Durable
  | .write source env batch skipWAL =>
    let (v, oracle, nextSeq) := s.engine.takeVersion source
    if v = 0 ∨ 2 ^ 64 ≤ v then none
    else
      let (wal, mem) := Wal.applyBatch env (UInt64.ofNat v) batch s.wal s.engine.mem
      some { s with
        engine := { s.engine with mem, nextSeq, oracle := oracle.markApplied v }
        wal := if skipWAL then s.wal else wal }
  | .rotate =>
    s.engine.rotate.map fun engine =>
      { s with engine, wal := [], segments := s.segments ++ [(engine.nextSeq, s.wal)] }
  | .flush =>
    match s.engine.imm with
    | none => none
    | some (m, seq) =>
      (s.engine.executeFlush cfg).map fun engine =>
        -- the segment goes with an empty memtable or once its table is there
        let retired := m.allVersions = [] ∨ (s.engine.levels 0).length < (engine.levels 0).length
        { s with
          engine
          files := s.files ++ allTables engine.levels
          segments := if retired then s.segments.filter fun g => decide (g.1 ≠ seq) else s.segments }
  | .compact =>
    let engine := s.engine.compact cfg
    some { s with engine, files := s.files ++ allTables engine.levels }
  | .reopen levelMap visited others env records =>
    if (∀ t ∈ visited, t ∈ s.files) ∧ ∀ r ∈ records, r ∈ s.logged then
      some ⟨openEngine levelMap visited others env records, visited, records, []⟩
    else none

def fresh (now : Int) : Durable := ⟨Engine.fresh now, [], [], []⟩

/-- The file of a rotated memtable gets a number at or above all its versions. -/
def StepOk (s : Durable) : Act → Prop
  | .rotate => ∀ x ∈ s.engine.mem.nodes, x.version ≤ s.engine.nextSeq + 1
  | _ => True

/-- Both counters are at or above every version stored or logged. -/
structure AboveStored (e : Engine) (records : List Wal.Record) : Prop where
  stored : ∀ x ∈ e.layers.flatten, x.version ≤ e.oracle.nextTs ∧ x.version ≤ e.mem.currentVersion
  logged : ∀ r ∈ records, r.version.toNat ≤ e.oracle.nextTs ∧ r.version.toNat ≤ e.mem.currentVersion
  commit : ∀ x ∈ e.layers.flatten, x.version < e.oracle.newCommitTs.1

/-- A table in order whose number is at or above its versions and at or below the counter. -/
structure Numbered (cfg : Config) (nextSeq : Nat) (t : Table) : Prop where
  wf : t.WF cfg.xxhash
  version : ∀ x ∈ t.entries, x.version ≤ t.seq
  seq : t.seq ≤ nextSeq

structure Inv (s : Durable) : Prop where
  file : ∀ t ∈ s.files, Numbered cfg s.engine.nextSeq t
  table : ∀ t ∈ allTables s.engine.levels, t ∈ s.files
  imm : ∀ m seq, s.engine.imm = some (m, seq) →
    seq ≤ s.engine.nextSeq ∧ ∀ x ∈ m.nodes, x.version ≤ seq
  record : ∀ r ∈ s.logged, r.version ≠ 0

variable {cfg}

theorem Numbered.mono {n n' : Nat} {t : Table} (h : Numbered cfg n t) (hn : n ≤ n') :
    Numbered cfg n' t := ⟨h.wf, h.version, Nat.le_trans h.seq hn⟩

theorem inv_fresh (now : Int) : Inv cfg (fresh now) := by
  refine ⟨by simp [fresh], ?_, ?_, by simp [fresh, logged]⟩
  · intro t ht
    obtain ⟨l, _, h⟩ := mem_allTables.mp ht
    cases h
  · intro m seq h
    cases h

theorem nextSeq_le_takeVersion (e : Engine) (source : Source) :
    e.nextSeq ≤ (e.takeVersion source).2.2 := by
  cases source with
  | plain => exact Nat.le_max_left _ _
  | txn => exact Nat.le_refl _
  | versioned v => exact Nat.le_refl _

theorem ofNat_ne_zero {v : Nat} (h0 : v ≠ 0) (hv : v < 2 ^ 64) : UInt64.ofNat v ≠ 0 := by
  intro h
  have := congrArg UInt64.toNat h
  rw [UInt64.toNat_ofNat_of_lt' hv] at this
  exact h0 this

theorem step_write {s s' : Durable} {source : Source} {env : Wal.BatchEnv}
    {batch : List Wal.BatchWriteEntry} {skipWAL : Bool}
    (hs : s.step cfg (.write source env batch skipWAL) = some s') :
    let v := (s.engine.takeVersion source).1
    v ≠ 0 ∧ v < 2 ^ 64 ∧ s'.engine.nextSeq = (s.engine.takeVersion source).2.2 ∧
      s'.engine.imm = s.engine.imm ∧ s'.engine.levels = s.engine.levels ∧ s'.files = s.files ∧
      s'.segments = s.segments ∧
      (∀ r ∈ s'.wal, r ∈ s.wal ∨ r.version = UInt64.ofNat v) ∧
      ∀ x ∈ s'.engine.mem.nodes, x ∈ s.engine.mem.nodes ∨ x.version = v := by
  intro v
  simp only [step] at hs
  split at hs
  · cases hs
  · rename_i hv
    cases hs
    have hlt : v < 2 ^ 64 := Nat.not_le.mp fun h => hv (Or.inr h)
    obtain ⟨hwal, hmem⟩ := @Wal.applyBatch_version env (UInt64.ofNat v) batch s.wal s.engine.mem
    rw [UInt64.toNat_ofNat_of_lt' hlt] at hmem
    refine ⟨fun h => hv (Or.inl h), hlt, rfl, rfl, rfl, rfl, rfl, ?_, hmem⟩
    intro r hr
    cases skipWAL with
    | true => exact Or.inl hr
    | false => exact hwal r hr

theorem inv_write {s s' : Durable} {source : Source} {env : Wal.BatchEnv}
    {batch : List Wal.BatchWriteEntry} {skipWAL : Bool} (h : Inv cfg s)
    (hs : s.step cfg (.write source env batch skipWAL) = some s') : Inv cfg s' := by
  obtain ⟨h0, hlt, hseq, himm, hlev, hfiles, hsegs, hwal, _⟩ := step_write hs
  have hle : s.engine.nextSeq ≤ s'.engine.nextSeq := by
    rw [hseq]
    exact nextSeq_le_takeVersion _ _
  refine ⟨?_, ?_, ?_, ?_⟩
  · intro t ht
    rw [hfiles] at ht
    exact (h.file t ht).mono hle
  · rw [hlev, hfiles]
    exact h.table
  · intro m seq hm
    rw [himm] at hm
    obtain ⟨h1, h2⟩ := h.imm m seq hm
    exact ⟨Nat.le_trans h1 hle, h2⟩
  · intro r hr
    rw [logged, hsegs] at hr
    cases List.mem_append.mp hr with
    | inl hr => exact h.record r (List.mem_append_left _ hr)
    | inr hr =>
      cases hwal r hr with
      | inl hr => exact h.record r (List.mem_append_right _ hr)
      | inr heq =>
        rw [heq]
        exact ofNat_ne_zero h0 hlt

theorem inv_rotate {s s' : Durable} (h : Inv cfg s) (hok : s.StepOk .rotate)
    (hs : s.step cfg .rotate = some s') : Inv cfg s' := by
  obtain ⟨e, he, rfl⟩ := Option.map_eq_some_iff.mp hs
  unfold Engine.rotate at he
  split at he
  · cases he
  · cases he
    refine ⟨fun t ht => (h.file t ht).mono (Nat.le_succ _), h.table, ?_, ?_⟩
    · intro m seq hm
      cases hm
      exact ⟨Nat.le_refl _, hok⟩
    · intro r hr
      refine h.record r ?_
      simpa [logged] using hr

theorem mem_allTables_of_flush {e e' : Engine} (hf : e.executeFlush cfg = some e') {m : SkipList}
    {seq : Nat} (himm : e.imm = some (m, seq)) :
    e'.nextSeq = e.nextSeq ∧ e'.imm = none ∧ e'.mem = e.mem ∧ ∀ t ∈ allTables e'.levels,
      t ∈ allTables e.levels ∨
        (t.WF cfg.xxhash ∧ t.seq = seq ∧ ∀ y ∈ t.entries, ∃ x ∈ m.nodes, y = x.stored) := by
  obtain ⟨m', seq', himm', hcases⟩ := executeFlush_spec hf
  rw [himm] at himm'
  cases himm'
  rcases hcases with ⟨rfl, _⟩ | ⟨t, hwf, hseq, hent, rfl⟩
  · exact ⟨rfl, rfl, rfl, fun t ht => Or.inl ht⟩
  · refine ⟨rfl, rfl, rfl, ?_⟩
    intro u hu
    refine (mem_allTables_flush.mp hu).imp_right ?_
    rintro rfl
    exact ⟨hwf, hseq, fun y hy => (mem_flushed hent).mp hy⟩

theorem inv_flush {s s' : Durable} (h : Inv cfg s) (hs : s.step cfg .flush = some s') :
    Inv cfg s' := by
  simp only [step] at hs
  split at hs
  · cases hs
  · rename_i m seq himm
    obtain ⟨e, he, rfl⟩ := Option.map_eq_some_iff.mp hs
    obtain ⟨hseq, hnone, _, htab⟩ := mem_allTables_of_flush he himm
    obtain ⟨hle, hver⟩ := h.imm m seq himm
    refine ⟨?_, fun t ht => List.mem_append_right _ ht, ?_, ?_⟩
    · intro t ht
      show Numbered cfg e.nextSeq t
      rw [hseq]
      cases List.mem_append.mp ht with
      | inl ht => exact h.file t ht
      | inr ht =>
        cases htab t ht with
        | inl ht => exact h.file t (h.table t ht)
        | inr ht =>
          obtain ⟨hwf, rfl, hent⟩ := ht
          refine ⟨hwf, ?_, hle⟩
          intro y hy
          obtain ⟨x, hx, rfl⟩ := hent y hy
          rw [Entry.stored_version]
          exact hver x hx
    · intro m' seq' hm
      rw [show e.imm = none from hnone] at hm
      cases hm
    · intro r hr
      refine h.record r ?_
      cases List.mem_append.mp hr with
      | inr hr => exact List.mem_append_right _ hr
      | inl hr =>
        obtain ⟨g, hg, hrg⟩ := List.mem_flatMap.mp hr
        refine List.mem_append_left _ (List.mem_flatMap.mpr ⟨g, ?_, hrg⟩)
        split at hg
        · exact List.mem_of_mem_filter hg
        · exact hg

theorem inv_compact {s s' : Durable} (h : Inv cfg s) (hs : s.step cfg .compact = some s') :
    Inv cfg s' := by
  cases hs
  have hwf : ∀ t ∈ allTables s.engine.levels, t.WF cfg.xxhash := fun t ht => (h.file t (h.table t ht)).wf
  -- the counters and the new tables
  have hnew : s.engine.nextSeq ≤ (s.engine.compact cfg).nextSeq ∧
      (s.engine.compact cfg).imm = s.engine.imm ∧
      ∀ t ∈ allTables (s.engine.compact cfg).levels, Numbered cfg (s.engine.compact cfg).nextSeq t := by
    rcases @compact_moves cfg s.engine with heq | ⟨source, target, picked, hlt, ht, hp, heq⟩
    · rw [heq]
      exact ⟨Nat.le_refl _, rfl, fun t ht => h.file t (h.table t ht)⟩
    · have hle := @nextSeq_le_written cfg s.engine target picked
      rw [heq]
      refine ⟨hle, rfl, ?_⟩
      intro t htm
      cases mem_allTables_of_move ht htm with
      | inl htm => exact (h.file t (h.table t htm)).mono hle
      | inr htm =>
        obtain ⟨h1, h2, h3, h4⟩ := mem_written hwf hlt ht hp htm
        refine ⟨h1, ?_, h3⟩
        intro y hy
        obtain ⟨u, hu, x, hx, hxy⟩ := h4 y hy
        have hxu := (h.file u (h.table u hu)).version x hx
        have huseq := (h.file u (h.table u hu)).seq
        omega
  refine ⟨?_, fun t ht => List.mem_append_right _ ht, ?_, h.record⟩
  · intro t ht
    cases List.mem_append.mp ht with
    | inl ht => exact (h.file t ht).mono hnew.1
    | inr ht => exact hnew.2.2 t ht
  · intro m seq hm
    rw [show (s.engine.compact cfg).imm = s.engine.imm from hnew.2.1] at hm
    obtain ⟨h1, h2⟩ := h.imm m seq hm
    exact ⟨Nat.le_trans h1 hnew.1, h2⟩

section
variable {levelMap : Manifest.Levels} {visited : List Table} {others : List Nat}
  {env : Wal.ReplayEnv} {records : List Wal.Record}

theorem seq_le_openEngine {t : Table} (ht : t ∈ visited) :
    t.seq ≤ (openEngine levelMap visited others env records).nextSeq :=
  Nat.le_trans (le_foldl_max (List.mem_append_left _ (List.mem_map_of_mem ht)) 0) (Nat.le_max_left _ _)

theorem nextSeq_le_nextTs :
    (openEngine levelMap visited others env records).nextSeq ≤
      (openEngine levelMap visited others env records).oracle.nextTs := by
  simp only [openEngine]
  split
  · exact Nat.le_max_right _ _
  · omega

theorem openEngine_currentVersion :
    (openEngine levelMap visited others env records).oracle.nextTs ≤
      (openEngine levelMap visited others env records).mem.currentVersion := Nat.le_max_right _ _

theorem openEngine_above {s : Durable} (h : Inv cfg s) (hv : ∀ t ∈ visited, t ∈ s.files)
    (hr : ∀ r ∈ records, r ∈ s.logged) :
    AboveStored (openEngine levelMap visited others env records) records := by
  generalize he : openEngine levelMap visited others env records = e
  have hts : e.nextSeq ≤ e.oracle.nextTs := he ▸ nextSeq_le_nextTs
  have hcur : e.oracle.nextTs ≤ e.mem.currentVersion := he ▸ openEngine_currentVersion
  have hwal : Wal.maxWalVer records ≤ e.nextSeq := he ▸ Nat.le_max_right _ _
  have hstored : ∀ x ∈ e.layers.flatten, x.version ≤ e.nextSeq := by
    intro x hx
    rcases mem_layers.mp hx with hx | hx | ⟨t, ht, hx⟩
    · have hx : x ∈ (Wal.replay env records).nodes := by
        rw [← he] at hx
        exact hx
      exact Nat.le_trans (Wal.replay_version_le env (fun r h' => h.record r (hr r h')) hx) hwal
    · rw [← he] at hx
      cases hx
    · have ht : t ∈ visited := by
        rw [← he] at ht
        exact mem_allTables_loadTables.mp ht
      have hseq : t.seq ≤ e.nextSeq := he ▸ seq_le_openEngine ht
      exact Nat.le_trans ((h.file t (hv t ht)).version x hx) hseq
  refine ⟨?_, ?_, ?_⟩
  · intro x hx
    have := hstored x hx
    omega
  · intro r hmem
    have := Wal.le_maxWalVer hmem
    omega
  · intro x hx
    have := hstored x hx
    show x.version < e.oracle.nextTs + 1
    omega

theorem inv_reopen {s s' : Durable} (h : Inv cfg s)
    (hs : s.step cfg (.reopen levelMap visited others env records) = some s') : Inv cfg s' := by
  simp only [step] at hs
  split at hs
  · rename_i hsub
    cases hs
    refine ⟨?_, fun t ht => mem_allTables_loadTables.mp ht, ?_, ?_⟩
    · intro t ht
      have hn := h.file t (hsub.1 t ht)
      exact ⟨hn.wf, hn.version, seq_le_openEngine ht⟩
    · intro m seq hm
      cases hm
    · intro r hr
      exact h.record r (hsub.2 r hr)
  · cases hs

end

theorem inv_step {s s' : Durable} {a : Act} (h : Inv cfg s) (hok : s.StepOk a)
    (hs : s.step cfg a = some s') : Inv cfg s' := by
  cases a with
  | write source env batch skipWAL => exact inv_write h hs
  | rotate => exact inv_rotate h hok hs
  | flush => exact inv_flush h hs
  | compact => exact inv_compact h hs
  | reopen levelMap visited others env records => exact inv_reopen h hs

/-- **An open is above all it finds**, whatever tables and records these are. -/
theorem reopen_above_stored (now : Int) {as : List Act} {s s' : Durable}
    (hg : Guarded (step cfg) StepOk (fresh now) as) (hr : run (step cfg) (fresh now) as = some s)
    {levelMap : Manifest.Levels} {visited : List Table} {others : List Nat} {env : Wal.ReplayEnv}
    {records : List Wal.Record}
    (ho : s.step cfg (.reopen levelMap visited others env records) = some s') :
    AboveStored s'.engine records := by
  have h := run_invariant inv_step (inv_fresh now) hg hr
  simp only [step] at ho
  split at ho
  · rename_i hsub
    cases ho
    exact openEngine_above h hsub.1 hsub.2
  · cases ho

def PlainWrites : Act → Prop
  | .write source _ _ _ => source = .plain
  | _ => True

def MemBound (s : Durable) : Prop := ∀ x ∈ s.engine.mem.nodes, x.version ≤ s.engine.nextSeq

theorem MemBound.stepOk {s : Durable} (h : s.MemBound) (a : Act) : s.StepOk a := by
  cases a with
  | rotate => exact fun x hx => Nat.le_succ_of_le (h x hx)
  | _ => trivial

theorem memBound_step {s s' : Durable} {a : Act} (hi : Inv cfg s) (h : s.MemBound)
    (hp : PlainWrites a) (hs : s.step cfg a = some s') : s'.MemBound := by
  intro x hx
  cases a with
  | write source env batch skipWAL =>
    obtain ⟨_, _, hseq, _, _, _, _, _, hmem⟩ := step_write hs
    rw [hseq, show source = .plain from hp]
    rw [show source = .plain from hp] at hmem
    cases hmem x hx with
    | inl hx => exact Nat.le_trans (h x hx) (Nat.le_max_left _ _)
    | inr heq =>
      rw [heq]
      exact Nat.le_max_right _ _
  | rotate =>
    obtain ⟨e, he, rfl⟩ := Option.map_eq_some_iff.mp hs
    unfold Engine.rotate at he
    split at he
    · cases he
    · cases he
      cases hx
  | flush =>
    simp only [step] at hs
    split at hs
    · cases hs
    · rename_i m seq himm
      obtain ⟨e, he, rfl⟩ := Option.map_eq_some_iff.mp hs
      obtain ⟨hseq, _, hmem, _⟩ := mem_allTables_of_flush he himm
      show x.version ≤ e.nextSeq
      rw [hseq]
      exact h x (hmem ▸ hx)
  | compact =>
    cases hs
    rcases @compact_moves cfg s.engine with heq | ⟨source, target, picked, _, _, _, heq⟩
    · rw [heq] at hx ⊢
      exact h x hx
    · rw [heq] at hx ⊢
      exact Nat.le_trans (h x hx) (nextSeq_le_written s.engine target picked)
  | reopen levelMap visited others env records =>
    simp only [step] at hs
    split at hs
    · rename_i hsub
      cases hs
      have hle := Wal.replay_version_le env (fun r hr => hi.record r (hsub.2 r hr)) hx
      exact Nat.le_trans hle (Nat.le_max_right _ _)
    · cases hs

theorem guarded_of_plain (now : Int) {as : List Act} (hp : ∀ a ∈ as, PlainWrites a) :
    Guarded (step cfg) StepOk (fresh now) as := by
  have hg : Guarded (step cfg) (fun _ a => PlainWrites a) (fresh now) as :=
    guarded_of_forall (fun _ => hp) _
  refine guarded_of_invariant (fun s => Inv cfg s ∧ s.MemBound) ?_ ?_ ?_ hg
  · intro s a s' h hpa hs
    exact ⟨inv_step h.1 (h.2.stepOk a) hs, memBound_step h.1 h.2 hpa hs⟩
  · exact fun h _ => h.2.stepOk _
  · exact ⟨inv_fresh now, fun x hx => nomatch hx⟩

/-! ## One put, plain and in a transaction -/

def flushedPut (source : Source) : List Act :=
  [.write source Wal.inlineEnv [⟨[107], [118], 0, false⟩] false, .rotate, .flush]

def putTable (seq : Nat) : Table :=
  ⟨seq, 0, [[⟨[107], [0, 118], false, 0, 2⟩]], Filter.newFilter Config.plain.xxhash [[107]], 0⟩

def reopened (seq : Nat) : Act :=
  .reopen (fun n => if n = seq then some 0 else none) [putTable seq] [] Wal.inlineReplay []

theorem flushedPut_guarded :
    Guarded (step .plain) StepOk (fresh 0) (flushedPut .plain) := by
  refine guarded_of_plain 0 ?_
  intro a ha
  simp only [flushedPut, List.mem_cons, List.not_mem_nil, or_false] at ha
  rcases ha with rfl | rfl | rfl
  · rfl
  · trivial
  · trivial

theorem reopen_above_stored_plain : ∃ s s', run (step .plain) (fresh 0) (flushedPut .plain) = some s ∧
    s.step .plain (reopened 3) = some s' ∧ AboveStored s'.engine [] := by
  obtain ⟨s, s', hr, ho⟩ : ∃ s s', run (step .plain) (fresh 0) (flushedPut .plain) = some s ∧
      s.step .plain (reopened 3) = some s' := ⟨_, _, rfl, rfl⟩
  exact ⟨s, s', hr, ho, reopen_above_stored 0 flushedPut_guarded hr ho⟩

/-- The file gets a number below its version; the open starts again there, and `Get` misses the key. -/
theorem reopen_below_txn :
    ∃ s, run (step .plain) (fresh 0) (flushedPut .txn ++ [reopened 1]) = some s ∧
      s.engine.oracle.nextTs = 1 ∧ s.engine.mem.currentVersion = 1 ∧
      ⟨[107], [0, 118], false, 0, 2⟩ ∈ s.engine.layers.flatten ∧
      s.engine.getByAt .plain [107] s.engine.mem.currentVersion = none ∧
      s.engine.oracle.newCommitTs.1 = 2 :=
  ⟨_, rfl, rfl, rfl, by decide +kernel, by decide +kernel, rfl⟩

end Durable
end Engine
end AkwaDB
