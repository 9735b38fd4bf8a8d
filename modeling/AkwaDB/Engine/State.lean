import AkwaDB.Compaction.Job
import AkwaDB.Engine.Oracle

/-!
# AkwaDB.Engine.State

The engine between calls: the memtables, the levels, the counters and the oracle, with the writes,
the rotation of the memtable, the flush and the point lookup.

Values are held encoded, as the memtable holds them (inline or as a pointer into the value log);
`resolveValue`, which undoes that encoding at the end of a read, is not part of the model. Writes
that fail before they reach the memtable are not modelled.
-/

namespace AkwaDB

/-- The options of compaction, the hash of the filters, file sizes, and a quotient in floating point. -/
structure Config where
  memTableSize : Nat
  levelSizeRatio : Nat
  compactionThreshold : Nat
  xxhash : Bytes → UInt64
  fileSize : Table → Nat
  quotient : Nat → Nat → Rat

def Config.plain : Config where
  memTableSize := 4194304
  levelSizeRatio := 10
  compactionThreshold := 4
  xxhash := fun _ => 0
  fileSize := fun _ => 0
  quotient := fun a b => (a : Rat) / b

/-- `imm` is the memtable being flushed, with the number its table will get. -/
structure Engine where
  mem : SkipList
  imm : Option (SkipList × Nat)
  levels : LevelTables
  nextSeq : Nat
  oracle : Oracle
  gcDiscardTs : Nat
  now : Int

namespace Engine

def fresh (now : Int) : Engine where
  mem := SkipList.newSkipList.seedVersion Oracle.newOracle.nextTs
  imm := none
  levels := fun _ => []
  nextSeq := 0
  oracle := Oracle.newOracle
  gcDiscardTs := 0
  now := now

variable (cfg : Config)

/-- The scan of one level, from its last table to its first. -/
def findInLevel (tables : List Table) (k : Bytes) (ok : Nat → Bool) : Option Entry :=
  tables.reverse.findSome? fun t => t.find cfg.xxhash k ok

def findInLevels (levels : LevelTables) (k : Bytes) (ok : Nat → Bool) : Option Entry :=
  (List.range maxLevels).findSome? fun lvl => findInLevel cfg (levels lvl) k ok

def lookup (e : Engine) (k : Bytes) (ok : Nat → Bool) : Option Entry :=
  match e.mem.find k ok with
  | some x => some x
  | none =>
    match e.imm.bind fun m => m.1.find k ok with
    | some x => some x
    | none => findInLevels cfg e.levels k ok

def getByAt (e : Engine) (k : Bytes) (maxVersion : Nat) : Option Bytes :=
  (e.lookup cfg k fun v => decide (v ≤ maxVersion)).bind (Entry.answer e.now)

def existsWithoutLock (e : Engine) (k : Bytes) : Bool :=
  match e.lookup cfg k fun _ => true with
  | some x => !x.dead e.now
  | none => false

/-- `dispatch` of one entry by the only writer, with the node of its version if there is one. -/
def dispatch (e : Engine) (node : Nat → Option Entry) : Engine :=
  let (seq, oracle) := e.oracle.newCommitTs
  let e := { e with oracle, nextSeq := max e.nextSeq seq }
  let e := match node seq with
    | some x => { e with mem := e.mem.insertNode x }
    | none => e
  { e with oracle := e.oracle.markApplied seq }

def putNode (key value : Bytes) (expiresAt : Int) (seq : Nat) : Option Entry :=
  some ⟨key, value, false, expiresAt, seq⟩

/-- `Delete` writes its tombstone only over a key that exists. -/
def deleteNode (e : Engine) (key : Bytes) (seq : Nat) : Option Entry :=
  if e.existsWithoutLock cfg key then some ⟨key, [], true, 0, seq⟩ else none

/-! ## Rotation and flush -/

/-- `triggerFlushLocked`, which waits until no memtable is being flushed. -/
def rotate (e : Engine) : Option Engine :=
  match e.imm with
  | some _ => none
  | none => some { e with
      mem := SkipList.newSkipList.seedVersion e.mem.currentVersion
      imm := some (e.mem, e.nextSeq + 1)
      nextSeq := e.nextSeq + 1 }

/-- `executeFlush`: a table that cannot be created is logged and the memtable is let go. -/
def executeFlush (e : Engine) : Option Engine :=
  match e.imm with
  | none => none
  | some (m, seq) =>
    if m.allVersions = [] then some { e with imm := none }
    else
      let made := Table.createAtLevel cfg.xxhash e.now seq 0 m.allVersions
      some { e with imm := none, levels := setLevel e.levels 0 (e.levels 0 ++ made.toList) }

theorem executeFlush_spec {cfg : Config} {e e' : Engine} (hf : e.executeFlush cfg = some e') :
    ∃ m seq, e.imm = some (m, seq) ∧
      ((e' = { e with imm := none } ∧
          (m.nodes = [] ∨ Table.createAtLevel cfg.xxhash e.now seq 0 m.allVersions = none)) ∨
        ∃ t, t.WF cfg.xxhash ∧ t.seq = seq ∧ t.entries = m.allVersions.map Entry.stored ∧
          e' = { e with imm := none, levels := setLevel e.levels 0 (e.levels 0 ++ [t]) }) := by
  unfold executeFlush at hf
  split at hf
  · cases hf
  · rename_i m seq himm
    refine ⟨m, seq, himm, ?_⟩
    split at hf
    · rename_i hempty
      cases hf
      exact Or.inl ⟨rfl, Or.inl (SkipList.allVersions_eq_nil.mp hempty)⟩
    · rename_i hne
      cases hc : Table.createAtLevel cfg.xxhash e.now seq 0 m.allVersions with
      | none =>
        rw [hc] at hf
        simp only [Option.toList_none, List.append_nil, setLevel_self] at hf
        cases hf
        exact Or.inl ⟨rfl, Or.inr rfl⟩
      | some t =>
        rw [hc] at hf
        cases hf
        obtain ⟨hwf, hent, hseq, _⟩ := Table.createAtLevel_wf m.allVersions_sorted hne hc
        exact Or.inr ⟨t, hwf, hseq, hent, rfl⟩

theorem mem_flushed {m : SkipList} {t : Table} (hent : t.entries = m.allVersions.map Entry.stored)
    {y : Entry} : y ∈ t.entries ↔ ∃ x ∈ m.nodes, y = x.stored := by
  rw [hent, List.mem_map]
  constructor
  · rintro ⟨x, hx, rfl⟩
    exact ⟨x, SkipList.mem_allVersions.mp hx, rfl⟩
  · rintro ⟨x, hx, rfl⟩
    exact ⟨x, SkipList.mem_allVersions.mpr hx, rfl⟩

theorem mem_allTables_flush {levels : LevelTables} {t u : Table} :
    u ∈ allTables (setLevel levels 0 (levels 0 ++ [t])) ↔ u ∈ allTables levels ∨ u = t := by
  rw [mem_allTables, mem_allTables]
  constructor
  · rintro ⟨l, hl, hu⟩
    rcases mem_setLevel hu with ⟨rfl, hu⟩ | ⟨_, hu⟩
    · rcases List.mem_append.mp hu with hu | hu
      · exact Or.inl ⟨0, hl, hu⟩
      · exact Or.inr (List.mem_singleton.mp hu)
    · exact Or.inl ⟨l, hl, hu⟩
  · rintro (⟨l, hl, hu⟩ | rfl)
    · by_cases h0 : l = 0
      · subst h0
        exact ⟨0, hl, by rw [setLevel_same]; exact List.mem_append_left _ hu⟩
      · exact ⟨l, hl, by rw [setLevel_other h0]; exact hu⟩
    · exact ⟨0, by decide, by rw [setLevel_same]; simp⟩

/-! ## The layers of a lookup -/

def immNodes (e : Engine) : List Entry :=
  match e.imm with
  | some (m, _) => m.nodes
  | none => []

def tableOrder (levels : LevelTables) : List Table :=
  (List.range maxLevels).flatMap fun lvl => (levels lvl).reverse

def layers (e : Engine) : List (List Entry) :=
  e.mem.nodes :: e.immNodes :: (tableOrder e.levels).map Table.entries

theorem mem_tableOrder {levels : LevelTables} {t : Table} :
    t ∈ tableOrder levels ↔ t ∈ allTables levels := by
  simp [tableOrder, allTables]

theorem mem_layers {e : Engine} {x : Entry} :
    x ∈ e.layers.flatten ↔
      x ∈ e.mem.nodes ∨ x ∈ e.immNodes ∨ ∃ t ∈ allTables e.levels, x ∈ t.entries := by
  simp only [layers, List.flatten_cons, List.mem_append, List.mem_flatten, List.mem_map,
    exists_exists_and_eq_and, mem_tableOrder]

variable {cfg}

theorem findInLevels_eq {levels : LevelTables} {k : Bytes} (ok : Nat → Bool)
    (hwf : ∀ t ∈ allTables levels, t.WF cfg.xxhash)
    (ha : ∀ t ∈ allTables levels, t.Aligned k) :
    findInLevels cfg levels k ok =
      layered Entry.version (Entry.hits k ok) ((tableOrder levels).map Table.entries) := by
  simp only [findInLevels, findInLevel]
  rw [← findSome?_flatMap, layered, List.findSome?_map]
  apply findSome?_congr
  intro t ht
  have ht := mem_tableOrder.mp ht
  exact Table.find_eq_newest (hwf t ht) (ha t ht) ok

theorem immNodes_find (e : Engine) (k : Bytes) (ok : Nat → Bool) :
    (e.imm.bind fun m => m.1.find k ok) = newest Entry.version (Entry.hits k ok) e.immNodes := by
  unfold immNodes
  cases e.imm with
  | none => rfl
  | some m => exact m.1.find_eq_newest k ok

/-- **The lookup goes through the layers.** -/
theorem lookup_eq_layered {e : Engine} {k : Bytes} (ok : Nat → Bool)
    (hwf : ∀ t ∈ allTables e.levels, t.WF cfg.xxhash)
    (ha : ∀ t ∈ allTables e.levels, t.Aligned k) :
    e.lookup cfg k ok = layered Entry.version (Entry.hits k ok) e.layers := by
  rw [lookup, SkipList.find_eq_newest, immNodes_find, findInLevels_eq ok hwf ha]
  simp only [layered, layers, List.findSome?_cons]
  cases newest Entry.version (Entry.hits k ok) e.mem.nodes with
  | some x => rfl
  | none =>
    cases newest Entry.version (Entry.hits k ok) e.immNodes with
    | some x => rfl
    | none => rfl

end Engine
end AkwaDB
