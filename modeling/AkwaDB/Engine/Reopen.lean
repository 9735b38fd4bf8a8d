import AkwaDB.Engine.State
import AkwaDB.Wal.Replay

/-!
# AkwaDB.Engine.Reopen

What an open makes of the tables and the log on disk.

`OpenEngineWithOpts` collects the listed tables in a map and appends each to its level as the map's
iteration happens to visit it. While the engine runs, level 0 is in the order the tables were
created in, and a lookup goes through it from the last table to the first.

`reopen_keeps_lookup`: every visiting order gives the lookups of the order of creation exactly when
no two tables of level 0 answer one of them differently.
-/

namespace AkwaDB
namespace Engine

def openLevel (levelMap : Manifest.Levels) (t : Table) : Nat :=
  match levelMap t.seq with
  | some lvl => if lvl < maxLevels then lvl else 0
  | none => 0

def loadTables (levelMap : Manifest.Levels) (visited : List Table) : LevelTables :=
  visited.foldl (fun levels t =>
    setLevel levels (openLevel levelMap t) (levels (openLevel levelMap t) ++ [t])) fun _ => []

/-- `OpenEngineWithOpts`, from the tables as visited, other file numbers, and the records recovered. -/
def openEngine (levelMap : Manifest.Levels) (visited : List Table) (others : List Nat)
    (env : Wal.ReplayEnv) (records : List Wal.Record) : Engine :=
  let maxFile := (visited.map Table.seq ++ others).foldl max 0
  let maxSeq := max maxFile (Wal.maxWalVer records)
  let oracle := if 0 < maxSeq then Oracle.newOracle.bump maxSeq else Oracle.newOracle
  { mem := (Wal.replay env records).seedVersion oracle.nextTs
    imm := none
    levels := loadTables levelMap visited
    nextSeq := maxSeq
    oracle
    gcDiscardTs := 0
    now := env.now }

def createdOrder (d : Disk) : List Table :=
  (loadTables d.levelMap d.recover 0).insertionSort fun t u => t.seq ≤ u.seq

/-! ## Levels as loaded -/

theorem openLevel_lt (levelMap : Manifest.Levels) (t : Table) : openLevel levelMap t < maxLevels := by
  unfold openLevel
  split
  · split
    · assumption
    · decide
  · decide

theorem loadTables_eq (levelMap : Manifest.Levels) (visited : List Table) (lvl : Nat) :
    loadTables levelMap visited lvl =
      visited.filter fun t => decide (openLevel levelMap t = lvl) := by
  have hgen : ∀ levels : LevelTables,
      (visited.foldl (fun levels t =>
        setLevel levels (openLevel levelMap t) (levels (openLevel levelMap t) ++ [t])) levels) lvl =
        levels lvl ++ visited.filter fun t => decide (openLevel levelMap t = lvl) := by
    induction visited with
    | nil => intro levels; simp
    | cons t visited ih =>
      intro levels
      rw [List.foldl_cons, ih]
      by_cases h : openLevel levelMap t = lvl
      · subst h
        simp [setLevel]
      · simp [setLevel, h, Ne.symm h]
  exact hgen _

theorem mem_loadTables {levelMap : Manifest.Levels} {visited : List Table} {lvl : Nat} {t : Table} :
    t ∈ loadTables levelMap visited lvl ↔ t ∈ visited ∧ openLevel levelMap t = lvl := by
  rw [loadTables_eq, List.mem_filter, decide_eq_true_eq]

theorem mem_allTables_loadTables {levelMap : Manifest.Levels} {visited : List Table} {t : Table} :
    t ∈ allTables (loadTables levelMap visited) ↔ t ∈ visited := by
  simp only [allTables, List.mem_flatMap, List.mem_range, mem_loadTables]
  constructor
  · rintro ⟨_, _, h, _⟩
    exact h
  · exact fun h => ⟨_, openLevel_lt levelMap t, h, rfl⟩

theorem exists_visited {levelMap : Manifest.Levels} {tables order : List Table} {lvl : Nat}
    (h : order.Perm (loadTables levelMap tables lvl)) :
    ∃ visited : List Table, visited.Perm tables ∧ loadTables levelMap visited lvl = order := by
  rw [loadTables_eq] at h
  refine ⟨order ++ tables.filter fun t => !decide (openLevel levelMap t = lvl), ?_, ?_⟩
  · exact (h.append_right _).trans (List.filter_append_perm _ tables)
  · have hall : ∀ t ∈ order, decide (openLevel levelMap t = lvl) = true := by
      intro t ht
      exact (List.mem_filter.mp (h.mem_iff.mp ht)).2
    rw [loadTables_eq, List.filter_append, List.filter_eq_self.mpr hall, List.filter_filter]
    simp

theorem loadTables_perm {levelMap : Manifest.Levels} {visited tables : List Table}
    (h : visited.Perm tables) (lvl : Nat) :
    (loadTables levelMap visited lvl).Perm (loadTables levelMap tables lvl) := by
  rw [loadTables_eq, loadTables_eq]
  exact h.filter _

theorem createdOrder_perm (d : Disk) :
    (createdOrder d).Perm (loadTables d.levelMap d.recover 0) := List.perm_insertionSort _ _

/-! ## Lookups after a reopen -/

variable {cfg : Config}

/-- No two tables answer a lookup of the key with different entries. -/
def Agree (cfg : Config) (tables : List Table) (k : Bytes) (ok : Nat → Bool) : Prop :=
  ∀ t ∈ tables, ∀ u ∈ tables, ∀ x y,
    t.find cfg.xxhash k ok = some x → u.find cfg.xxhash k ok = some y → x = y

theorem reopen_lookup_iff (d : Disk) (k : Bytes) (ok : Nat → Bool) :
    (∀ visited : List Table, visited.Perm d.recover →
        findInLevel cfg (loadTables d.levelMap visited 0) k ok =
          findInLevel cfg (createdOrder d) k ok) ↔
      Agree cfg (loadTables d.levelMap d.recover 0) k ok := by
  have hr := (List.reverse_perm _).trans (createdOrder_perm d)
  refine Iff.trans ?_ (findSome?_orders_iff hr)
  constructor
  · intro h order ho
    obtain ⟨visited, hv, heq⟩ := exists_visited ((List.reverse_perm order).trans ho)
    have := h visited hv
    rwa [findInLevel, heq, List.reverse_reverse] at this
  · intro h visited hv
    exact h _ ((List.reverse_perm _).trans (loadTables_perm hv 0))

/-- **Reopening keeps the lookups of level 0 exactly when its tables agree on every key.** -/
theorem reopen_keeps_lookup (cfg : Config) (d : Disk) :
    (∀ visited : List Table, visited.Perm d.recover → ∀ k maxVersion,
        findInLevel cfg (loadTables d.levelMap visited 0) k (fun v => decide (v ≤ maxVersion)) =
          findInLevel cfg (createdOrder d) k fun v => decide (v ≤ maxVersion)) ↔
      ∀ k maxVersion, Agree cfg (loadTables d.levelMap d.recover 0) k fun v => decide (v ≤ maxVersion) := by
  constructor
  · intro h k r
    exact (reopen_lookup_iff d k _).mp fun visited hv => h visited hv k r
  · intro h visited hv k r
    exact (reopen_lookup_iff d k _).mpr (h k r) visited hv

/-! ## Two versions of a key -/

def keyTable (version : Nat) : Table :=
  ⟨version, 0, [[⟨[107], [118], false, 0, version⟩]], Filter.newFilter Config.plain.xxhash [[107]], 0⟩

def logged (d : Disk) (t : Table) : Disk := d.step (.log (tableRecord Manifest.actionAdd 0 t))

def twoVersions : Disk := logged (logged ⟨[], [keyTable 2, keyTable 3]⟩ (keyTable 2)) (keyTable 3)

/-- Visited in the other order, the tables answer with the overwritten version. -/
theorem reopen_reads_overwritten :
    [keyTable 3, keyTable 2].Perm twoVersions.recover ∧
      (findInLevel .plain (createdOrder twoVersions) [107] fun v => decide (v ≤ 3)).map
        Entry.version = some 3 ∧
      (findInLevel .plain (loadTables twoVersions.levelMap [keyTable 3, keyTable 2] 0) [107]
        fun v => decide (v ≤ 3)).map Entry.version = some 2 := by
  have hr : twoVersions.recover = [keyTable 2, keyTable 3] := by decide +kernel
  refine ⟨?_, by decide +kernel, by decide +kernel⟩
  rw [hr]
  exact List.Perm.swap _ _ _

end Engine
end AkwaDB
