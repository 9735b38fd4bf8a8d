import AkwaDB.Engine.Horizon

/-!
# AkwaDB.Engine.Archive

Rotated log segments that wait for the archiver, and what an open makes of them.

With an archiver set, the segment of a flushed memtable is queued and removed only once it has been
archived. An open decides by the MANIFEST: segment `N` is removed if table `N` is listed, and is
replayed otherwise. But a table is also unlisted when a compaction has merged it away, and then its
old records go into the memtable, above every table.

`reopen_highest_iff`: after every run, if the tables found are in order (`TablesInOrder`), the reads of
the next open find the highest versions exactly when no replayed record stands above a newer version
in a table, and no key that was not replayed has a version in a table above the numbers of all files
and records, which is where the clock starts.
-/

namespace AkwaDB
namespace Engine

/-- Where the flush worker is: the table's file is there, or its segment is to go. -/
inductive Flushing where
  | idle
  | created (seq : Nat) (sst : Table)
  | retiring (seq : Nat)

/-- A running engine and its directory, with what a compaction and the archiver have still to do. -/
structure Archived where
  engine : Engine
  disk : Disk
  wal : List Wal.Record
  segments : List (Nat × List Wal.Record)
  flushing : Flushing
  compacting : List DiskStep
  archiver : Bool
  archiveCh : List Nat
  archiving : Option Nat

namespace Archived

inductive Act where
  | setArchiver
  | write (source : Source) (env : Wal.BatchEnv) (batch : List Wal.BatchWriteEntry) (skipWAL : Bool)
  | rotate
  /-- `CreateAtLevelWithRegistry` in `executeFlush`; `fails` when the file cannot be written. -/
  | create (fails : Bool)
  | install
  /-- `removeOrArchive`; `cancelled` when it is stopped from waiting for the archiver. -/
  | retire (cancelled : Bool)
  | dequeue
  /-- `processArchive`; without success the segment stays. -/
  | archive (success : Bool)
  | compact
  | diskStep
  /-- A crash that leaves the first `n` records of `wal.log`, and an open that visits the tables in
  the order `visited`. -/
  | reopen (n : Nat) (visited : List Table) (env : Wal.ReplayEnv)

variable (cfg : Config)

/-- What `compactLevel0` or `compactLevelTable` does to the directory. -/
def moveSteps (e : Engine) (source target : Nat) (picked : List Table) : List DiskStep :=
  let newTables := (e.written cfg target picked).1
  newTables.map DiskStep.create ++
    deleteSteps ((overlapping e.levels target picked).map (fun t => (target, t)) ++
      picked.map fun t => (source, t)) ++
    newTables.map fun t => .log (tableRecord Manifest.actionAdd target t)

def compactSteps (e : Engine) : List DiskStep :=
  match compactPlan cfg e.levels with
  | .nothing => []
  | .level0 =>
    if e.levels 0 = [] then [] else moveSteps cfg e 0 (findBaseLevel cfg e.levels) (e.levels 0)
  | .table lvl pick => if maxLevels - 1 ≤ lvl then [] else moveSteps cfg e lvl (lvl + 1) [pick]

def uncommittedWALs (s : Archived) : List (Nat × List Wal.Record) :=
  (s.segments.filter fun g => (s.disk.levelMap g.1).isNone).insertionSort fun g h => g.1 ≤ h.1

def replayed (s : Archived) (n : Nat) : List Wal.Record :=
  s.uncommittedWALs.flatMap Prod.snd ++ s.wal.take n

def otherFiles (s : Archived) : List Nat :=
  (s.disk.files.filter fun t => (s.disk.levelMap t.seq).isNone).map Table.seq ++ s.segments.map Prod.fst

def step (s : Archived) : Act → Option Archived
  | .setArchiver => some { s with archiver := true }
  | .write source env batch skipWAL =>
    let (v, oracle, nextSeq) := s.engine.takeVersion source
    if v = 0 ∨ 2 ^ 64 ≤ v then none
    else
      let (wal, mem) := Wal.applyBatch env (UInt64.ofNat v) batch s.wal s.engine.mem
      some { s with
        engine := { s.engine with mem, nextSeq, oracle := oracle.markApplied v }
        wal := if skipWAL then s.wal else wal }
  | .rotate =>
    s.engine.rotate.map fun engine =>
      { s with engine, wal := [], segments := s.segments ++ [(engine.nextSeq, s.wal)] }
  | .create fails =>
    match s.flushing, s.engine.imm with
    | .idle, some (m, seq) =>
      if m.allVersions = [] then some { s with flushing := .retiring seq }
      else
        match Table.createAtLevel cfg.xxhash s.engine.now seq 0 m.allVersions, fails with
        | some sst, false => some { s with disk := s.disk.step (.create sst), flushing := .created seq sst }
        | _, _ => some { s with engine := { s.engine with imm := none } }
    | _, _ => none
  | .install =>
    -- `metaMu` keeps it out of a compaction
    match s.flushing, s.compacting with
    | .created seq sst, [] =>
      let levels := setLevel s.engine.levels 0 (s.engine.levels 0 ++ [sst])
      some { s with
        engine := { s.engine with levels }
        disk := s.disk.step (.log (tableRecord Manifest.actionAdd 0 sst))
        flushing := .retiring seq }
    | _, _ => none
  | .retire cancelled =>
    match s.flushing with
    | .retiring seq =>
      let s := { s with engine := { s.engine with imm := none }, flushing := .idle }
      if !s.archiver || cancelled then
        some { s with segments := s.segments.filter fun g => decide (g.1 ≠ seq) }
      else if s.archiveCh.length < 64 then some { s with archiveCh := s.archiveCh ++ [seq] }
      else none
    | _ => none
  | .dequeue =>
    match s.archiving, s.archiveCh with
    | none, seq :: rest => some { s with archiveCh := rest, archiving := some seq }
    | _, _ => none
  | .archive success =>
    match s.archiving with
    | none => none
    | some seq =>
      let s := { s with archiving := none }
      if success then some { s with segments := s.segments.filter fun g => decide (g.1 ≠ seq) }
      else some s
  | .compact =>
    match s.compacting with
    | [] => some { s with engine := s.engine.compact cfg, compacting := compactSteps cfg s.engine }
    | _ => none
  | .diskStep =>
    match s.compacting with
    | [] => none
    | d :: rest => some { s with disk := s.disk.step d, compacting := rest }
  | .reopen n visited env =>
    if visited.Perm s.disk.recover then
      some {
        engine := openEngine s.disk.levelMap visited s.otherFiles env (s.replayed n)
        disk := ⟨(Manifest.readManifest s.disk.manifest).2, s.disk.recover⟩
        wal := s.replayed n
        segments := []
        flushing := .idle
        compacting := []
        archiver := false
        archiveCh := []
        archiving := none }
    else none

def fresh (now : Int) : Archived := ⟨Engine.fresh now, ⟨[], []⟩, [], [], .idle, [], false, [], none⟩

end Archived

variable (cfg : Config)

def found (e : Engine) (k : Bytes) : Option Entry :=
  e.lookup cfg k fun v => decide (v ≤ e.mem.currentVersion)

def FindsHighest (e : Engine) (k : Bytes) : Prop :=
  ∀ y ∈ e.layers.flatten, y.key = k → ∃ x, e.found cfg k = some x ∧ y.version ≤ x.version

def Shadows (records : List Wal.Record) (y : Entry) : Prop :=
  (∃ r ∈ records, r.key = y.key) ∧ ∀ r ∈ records, r.key = y.key → r.version.toNat < y.version

/-- As they are searched, no table has a version below one of the same key in a later table; and no
restart point stands between two versions of a key. -/
structure TablesInOrder (levels : LevelTables) : Prop where
  wf : ∀ t ∈ allTables levels, t.WF cfg.xxhash
  aligned : ∀ t ∈ allTables levels, ∀ k, t.Aligned k
  order : (tableOrder levels).Pairwise fun t u =>
    ∀ x ∈ t.entries, ∀ y ∈ u.entries, x.key = y.key → y.version ≤ x.version

/-- The highest number of a file or record, where the clock starts. -/
def horizon (visited : List Table) (others : List Nat) (records : List Wal.Record) : Nat :=
  max 1 (max ((visited.map Table.seq ++ others).foldl max 0) (Wal.maxWalVer records))

variable {cfg}

/-! ## The memtable of an open -/

section
variable {levelMap : Manifest.Levels} {visited : List Table} {others : List Nat}
  {env : Wal.ReplayEnv} {records : List Wal.Record}

def Written (r : Wal.Record) : Prop := (r.op = Wal.opPut ∨ r.op = Wal.opDelete) ∧ r.version ≠ 0

section
variable (hw : ∀ r ∈ records, Written r)
include hw

theorem mem_openEngine_nodes {x : Entry} :
    x ∈ (openEngine levelMap visited others env records).mem.nodes ↔
      some x ∈ Wal.restoredFrom env 0 records := by
  have h := Wal.mem_replayFrom env (fun r hr => (hw r hr).2) 0 SkipList.newSkipList x
  refine h.trans ⟨fun h => h.resolve_left (fun hx => nomatch hx), Or.inr⟩

theorem node_of_record {r : Wal.Record} (hr : r ∈ records) :
    ∃ x ∈ (openEngine levelMap visited others env records).mem.nodes,
      x.key = r.key ∧ x.version = r.version.toNat := by
  obtain ⟨x, hx, hspec⟩ := Wal.exists_restoredFrom env 0 hr (hw r hr).1
  exact ⟨x, (mem_openEngine_nodes hw).mpr hx, hspec⟩

theorem record_of_node {x : Entry}
    (hx : x ∈ (openEngine levelMap visited others env records).mem.nodes) :
    ∃ r ∈ records, x.key = r.key ∧ x.version = r.version.toNat :=
  Wal.restoredFrom_spec ((mem_openEngine_nodes hw).mp hx)

theorem currentVersion_openEngine :
    (openEngine levelMap visited others env records).mem.currentVersion = horizon visited others records := by
  have hcount : (Wal.replay env records).versionCounter ≤ Wal.maxWalVer records :=
    Wal.replayFrom_counter_le env (fun r hr => ⟨(hw r hr).2, Wal.le_maxWalVer hr⟩) 0 (Nat.zero_le _)
  have hts : (openEngine levelMap visited others env records).oracle.nextTs = horizon visited others records := by
    simp only [openEngine, horizon]
    split
    · rfl
    · simp only [Oracle.newOracle]
      omega
  have hwal : Wal.maxWalVer records ≤ horizon visited others records := le_max_of_le_right (le_max_right _ _)
  rw [← hts] at hwal ⊢
  exact max_eq_right (hcount.trans hwal)

theorem node_visible {x : Entry}
    (hx : x ∈ (openEngine levelMap visited others env records).mem.nodes) :
    x.version ≤ (openEngine levelMap visited others env records).mem.currentVersion := by
  have hle := Wal.replay_version_le env (fun r hr => (hw r hr).2) (x := x) hx
  have hseq : Wal.maxWalVer records ≤ (openEngine levelMap visited others env records).nextSeq :=
    Nat.le_max_right _ _
  exact (hle.trans hseq).trans
    (Durable.nextSeq_le_nextTs.trans Durable.openEngine_currentVersion)

theorem found_replayed {r : Wal.Record} (hr : r ∈ records) :
    ∃ x, (openEngine levelMap visited others env records).found cfg r.key = some x ∧
      (∃ q ∈ records, q.key = r.key ∧ q.version.toNat = x.version) ∧
      ∀ q ∈ records, q.key = r.key → q.version.toNat ≤ x.version := by
  generalize he : openEngine levelMap visited others env records = e
  have hnode : ∀ q ∈ records, q.key = r.key → ∃ y ∈ e.mem.nodes,
      y.hits r.key (fun v => decide (v ≤ e.mem.currentVersion)) = true ∧ y.version = q.version.toNat := by
    intro q hq hk
    rw [← he]
    obtain ⟨y, hy, hyk, hyv⟩ := @node_of_record levelMap visited others env records hw q hq
    exact ⟨y, hy, by simp [hyk, hk, node_visible hw hy], hyv⟩
  obtain ⟨y, hy, hhit, _⟩ := hnode r hr rfl
  obtain ⟨x, hx⟩ := newest_isSome Entry.version hy hhit
  have hspec := newest_spec hx
  refine ⟨x, ?_, ?_, fun q hq hk => ?_⟩
  · rw [found, lookup, SkipList.find_eq_newest, hx]
  · obtain ⟨q, hq, hk, hv⟩ := record_of_node hw (x := x) (by rw [he]; exact hspec.mem)
    exact ⟨q, hq, hk.symm.trans (Entry.hits_iff.mp hspec.pass).1, hv.symm⟩
  · obtain ⟨z, hz, hzhit, hzv⟩ := hnode q hq hk
    rw [← hzv]
    exact hspec.max z hz hzhit

theorem found_elsewhere (htab : TablesInOrder cfg (loadTables levelMap visited)) {k : Bytes}
    (hk : ∀ r ∈ records, r.key ≠ k) :
    (openEngine levelMap visited others env records).found cfg k =
      layered Entry.version (Entry.hits k fun v => decide (v ≤ horizon visited others records))
        ((tableOrder (loadTables levelMap visited)).map Table.entries) := by
  have hnone : ∀ ok, (openEngine levelMap visited others env records).mem.find k ok = none := by
    intro ok
    rw [SkipList.find_eq_newest, newest_eq_none]
    intro x hx
    obtain ⟨r, hr, hxr, _⟩ := record_of_node hw hx
    simp [Entry.hits, hxr, hk r hr]
  rw [found, lookup, hnone, currentVersion_openEngine hw]
  exact findInLevels_eq _ htab.wf fun t ht => htab.aligned t ht k

theorem openEngine_highest_iff (htab : TablesInOrder cfg (loadTables levelMap visited)) :
    let e := openEngine levelMap visited others env records
    (∀ k, e.FindsHighest cfg k) ↔ ∀ t ∈ visited, ∀ y ∈ t.entries, ¬ Shadows records y ∧
      ((∀ r ∈ records, r.key ≠ y.key) → y.version ≤ horizon visited others records) := by
  intro e
  have hreplayed := fun r hr => @found_replayed cfg levelMap visited others env records hw r hr
  have hlayers : ∀ y, y ∈ e.layers.flatten ↔ y ∈ e.mem.nodes ∨ ∃ t ∈ visited, y ∈ t.entries := by
    intro y
    rw [mem_layers]
    have himm : e.immNodes = [] := rfl
    simp only [himm, List.not_mem_nil, false_or]
    have htab : ∀ t, t ∈ allTables e.levels ↔ t ∈ visited := fun t => mem_allTables_loadTables
    simp only [htab]
  constructor
  · intro h t ht y hy
    obtain ⟨x, hx, hle⟩ := h y.key y ((hlayers y).mpr (Or.inr ⟨t, ht, hy⟩)) rfl
    refine ⟨?_, fun hk => ?_⟩
    · rintro ⟨⟨r, hr, hk⟩, hold⟩
      obtain ⟨z, hz, ⟨q, hq, hqk, hqv⟩, _⟩ := hreplayed r hr
      rw [hk] at hz hqk
      rw [show e.found cfg y.key = some z from hz] at hx
      cases hx
      have := hold q hq hqk
      omega
    · rw [found_elsewhere hw htab hk] at hx
      obtain ⟨l, _, hnew⟩ := List.exists_of_findSome?_eq_some hx
      exact hle.trans (of_decide_eq_true (Entry.hits_iff.mp (newest_spec hnew).pass).2)
  · intro h k y hy hk
    subst hk
    rcases (hlayers y).mp hy with hy | ⟨t, ht, hy⟩
    · obtain ⟨r, hr, hrk, hrv⟩ := record_of_node hw hy
      obtain ⟨x, hx, _, hmax⟩ := hreplayed r hr
      exact ⟨x, by rw [hrk]; exact hx, by rw [hrv]; exact hmax r hr rfl⟩
    · obtain ⟨hnot, htables⟩ := h t ht y hy
      by_cases hex : ∃ r ∈ records, r.key = y.key
      · obtain ⟨r, hr, hk⟩ := hex
        obtain ⟨x, hx, _, hmax⟩ := hreplayed r hr
        refine ⟨x, by rw [← hk]; exact hx, ?_⟩
        by_contra hlt
        refine hnot ⟨⟨r, hr, hk⟩, fun q hq hqk => ?_⟩
        have := hmax q hq (hqk.trans hk.symm)
        omega
      · have hno : ∀ r ∈ records, r.key ≠ y.key := fun r hr hk => hex ⟨r, hr, hk⟩
        rw [found_elsewhere hw htab hno]
        refine layered_ge (List.pairwise_map.mpr (htab.order.imp fun h x hx z hz hpx hpz => ?_))
          (List.mem_map_of_mem (mem_tableOrder.mpr (mem_allTables_loadTables.mpr ht))) hy
          (Entry.hits_iff.mpr ⟨rfl, decide_eq_true (htables hno)⟩)
        exact h x hx z hz (Entry.key_eq_of_hits hpx hpz)

end

end

namespace Archived

def LogsWritten (s : Archived) : Prop :=
  (∀ g ∈ s.segments, ∀ r ∈ g.2, Written r) ∧ ∀ r ∈ s.wal, Written r

theorem LogsWritten.replayed {s : Archived} (h : s.LogsWritten) (n : Nat) :
    ∀ r ∈ s.replayed n, Written r := by
  intro r hr
  cases List.mem_append.mp hr with
  | inl hr =>
    obtain ⟨g, hg, hrg⟩ := List.mem_flatMap.mp hr
    have hmem := (List.perm_insertionSort _ _).mem_iff.mp hg
    exact h.1 g (List.mem_of_mem_filter hmem) r hrg
  | inr hr => exact h.2 r (List.mem_of_mem_take hr)

theorem LogsWritten.filter {s : Archived} (h : s.LogsWritten) (p : Nat × List Wal.Record → Bool) :
    ∀ g ∈ s.segments.filter p, ∀ r ∈ g.2, Written r :=
  fun g hg => h.1 g (List.mem_of_mem_filter hg)

theorem logsWritten_write {s s' : Archived} (h : s.LogsWritten) {source : Source} {env : Wal.BatchEnv}
    {batch : List Wal.BatchWriteEntry} {skipWAL : Bool}
    (hs : s.step cfg (.write source env batch skipWAL) = some s') : s'.LogsWritten := by
  simp only [step] at hs
  split at hs
  · cases hs
  · rename_i hv
    cases hs
    refine ⟨h.1, fun r hr => ?_⟩
    cases skipWAL with
    | true => exact h.2 r hr
    | false =>
      cases Wal.mem_applyBatch hr with
      | inl hr => exact h.2 r hr
      | inr hr =>
        refine ⟨Wal.appended_op hr, ?_⟩
        rw [Wal.appended_version hr]
        exact Durable.ofNat_ne_zero (fun h0 => hv (Or.inl h0)) (Nat.not_le.mp fun hle => hv (Or.inr hle))

theorem logsWritten_step {s s' : Archived} {a : Act} (h : s.LogsWritten) (hs : s.step cfg a = some s') :
    s'.LogsWritten := by
  cases a with
  | setArchiver =>
    cases hs
    exact h
  | write source env batch skipWAL => exact logsWritten_write h hs
  | rotate =>
    obtain ⟨e, _, rfl⟩ := Option.map_eq_some_iff.mp hs
    refine ⟨fun g hg => ?_, by simp⟩
    cases List.mem_append.mp hg with
    | inl hg => exact h.1 g hg
    | inr hg =>
      rw [List.mem_singleton.mp hg]
      exact h.2
  | create fails =>
    simp only [step] at hs
    split at hs
    · split at hs
      · cases hs
        exact h
      · split at hs
        · cases hs
          exact h
        · cases hs
          exact h
    · cases hs
  | install =>
    simp only [step] at hs
    split at hs
    · cases hs
      exact h
    · cases hs
  | retire cancelled =>
    simp only [step] at hs
    split at hs
    · split at hs
      · cases hs
        exact ⟨h.filter _, h.2⟩
      · split at hs
        · cases hs
          exact h
        · cases hs
    · cases hs
  | dequeue =>
    simp only [step] at hs
    split at hs
    · cases hs
      exact h
    · cases hs
  | archive success =>
    simp only [step] at hs
    split at hs
    · cases hs
    · split at hs
      · cases hs
        exact ⟨h.filter _, h.2⟩
      · cases hs
        exact h
  | compact =>
    simp only [step] at hs
    split at hs
    · cases hs
      exact h
    · cases hs
  | diskStep =>
    simp only [step] at hs
    split at hs
    · cases hs
    · cases hs
      exact h
  | reopen n visited env =>
    simp only [step] at hs
    split at hs
    · cases hs
      exact ⟨by simp, h.replayed n⟩
    · cases hs

def put (value : Bytes) : Act := .write .plain Wal.inlineEnv [⟨[107], value, 0, false⟩] false

def flushed : List Act := [.rotate, .create false, .install, .retire false]

def eager : Config := { Config.plain with compactionThreshold := 1 }

def sst (seq level version : Nat) (value : Bytes) : Table :=
  ⟨seq, level, [[⟨[107], value, false, 0, version⟩]], Filter.newFilter eager.xxhash [[107]], 0⟩

/-- Segment 3 waits for the archiver while its table is merged; the open replays it and reads version 2. -/
def outlived : List Act :=
  .setArchiver :: put [1] :: flushed ++ .compact :: List.replicate 4 .diskStep ++ put [2] :: flushed

end Archived
end Engine
end AkwaDB
