import AkwaDB.Engine.Compact
import AkwaDB.Lib.Interleave
import AkwaDB.Vlog.Log
import Mathlib.Logic.Relation

/-!
# AkwaDB.Engine.Background

The flush worker and the compactors, step by step.

`executeFlush` takes a task, creates the table, installs it in level 0, logs it, and lets the
immutable memtable go. A compaction picks tables of one level, finds those they overlap in a deeper
one, drains them and counts what it discards, installs the new tables, removes the old ones and logs
all of it. Each of these is a step of its own here; a lock is held only inside a step, and `Compact`
takes none around them.

Versions below the newest that every reader sees are discarded, and so is the head of a group that goes for good. A
version that repeats the one kept before it is skipped without being counted, and a value that becomes a tombstone is
lost without being counted.
-/

namespace AkwaDB

/-! ## What a drain discards -/

/-- The versions of one group that the loop discards. -/
def dropVersions (minReadTs : Nat) : Option Nat → Bool → List Entry → List Entry
  | _, _, [] => []
  | prev, keptOlder, g :: gs =>
    if prev = some g.version then dropVersions minReadTs prev keptOlder gs
    else if minReadTs < g.version then dropVersions minReadTs (some g.version) keptOlder gs
    else if keptOlder then g :: dropVersions minReadTs prev keptOlder gs
    else dropVersions minReadTs (some g.version) true gs

def groupDiscards (env : DrainEnv) (levels : LevelTables) (targetLevel : Nat) (group : List Entry) :
    List Entry :=
  let sorted := group.insertionSort fun a b => b.version ≤ a.version
  let kept := keepVersions env.minReadTs none false sorted
  dropVersions env.minReadTs none false sorted ++
    if dropsGroup env levels targetLevel kept then kept else []

def drainDiscards (env : DrainEnv) (levels : LevelTables) (level : Nat) (iters : List (List Entry)) :
    List Bytes :=
  ((groupByKey (kmerge Entry.before iters)).flatMap (groupDiscards env levels level)).map Entry.value

namespace Background

open Vlog (decodeValuePointer isValuePointer)

/-- The engine, the flush tasks that were sent and not taken, the MANIFEST, and `vlogDiscards`. -/
structure Shared where
  engine : Engine
  tasks : List (SkipList × Nat)
  manifest : Bytes
  discards : UInt32 → Nat

def addCompactionDiscard (discards : UInt32 → Nat) (value : Bytes) : UInt32 → Nat :=
  if isValuePointer value then
    let vp := decodeValuePointer value
    fun fid => if fid = vp.fid then discards fid + vp.size.toNat else discards fid
  else discards

/-- The tables of a compaction: those picked, and those they overlap in the target level. -/
structure Choice where
  source : Nat
  target : Nat
  picked : List Table
  overlaps : List Table

namespace Choice

def inputs (c : Choice) : List Table := c.overlaps ++ c.picked

def records (c : Choice) (newTables : List Table) : List Manifest.Record :=
  c.overlaps.map (tableRecord Manifest.actionDel c.target) ++
    c.picked.map (tableRecord Manifest.actionDel c.source) ++
    newTables.map (tableRecord Manifest.actionAdd c.target)

def install (c : Choice) (newTables : List Table) (levels : LevelTables) : LevelTables :=
  let remaining := (levels c.target).filter fun t => decide (t ∉ c.overlaps)
  setLevel levels c.target ((remaining ++ newTables).insertionSort fun t u => t.minKey ≤ u.minKey)

def remove (c : Choice) (levels : LevelTables) : LevelTables :=
  setLevel levels c.source ((levels c.source).filter fun t => decide (t ∉ c.picked))

end Choice

inductive Worker where
  | idle
  | flushing (m : SkipList) (seq : Nat)
  | created (m : SkipList) (t : Table)
  | picked (source target : Nat) (tables : List Table)
  | chosen (c : Choice)
  /-- The new tables are written, and some discards are not counted yet. -/
  | drained (c : Choice) (newTables : List Table) (discards : List Bytes)
  | installed (c : Choice) (newTables : List Table)
  /-- Records are still to be logged, by a flush or by a compaction. -/
  | logging (flush : Bool) (records : List Manifest.Record)

inductive Act where
  | takeTask
  | pick (source target : Nat) (tables : List Table)
  | next

variable (cfg : Config)

namespace Shared

def setLevels (sh : Shared) (levels : LevelTables) : Shared :=
  { sh with engine := { sh.engine with levels } }

def written (sh : Shared) (c : Choice) : List Table × Nat :=
  drainMergedIterator cfg.xxhash sh.engine.drainEnv sh.engine.levels c.target sh.engine.nextSeq
    (c.inputs.map Table.entries)

def discarded (sh : Shared) (c : Choice) : List Bytes :=
  drainDiscards sh.engine.drainEnv sh.engine.levels c.target (c.inputs.map Table.entries)

end Shared

def Worker.next (sh : Shared) : Worker → Option (Shared × Worker)
  | idle => none
  | flushing m seq =>
    if m.allVersions = [] then some (sh, .logging true [])
    else
      match Table.createAtLevel cfg.xxhash sh.engine.now seq 0 m.allVersions with
      | none => some (sh, .logging true [])
      | some t => some (sh, .created m t)
  | created _ t =>
    some (sh.setLevels (setLevel sh.engine.levels 0 (sh.engine.levels 0 ++ [t])),
      .logging true [tableRecord Manifest.actionAdd 0 t])
  | picked source target tables =>
    some (sh, .chosen ⟨source, target, tables, overlapping sh.engine.levels target tables⟩)
  | chosen c =>
    let (newTables, nextSeq) := sh.written cfg c
    some ({ sh with engine := { sh.engine with nextSeq } }, .drained c newTables (sh.discarded c))
  | drained c newTables (v :: vs) =>
    some ({ sh with discards := addCompactionDiscard sh.discards v }, .drained c newTables vs)
  | drained c newTables [] => some (sh.setLevels (c.install newTables sh.engine.levels), .installed c newTables)
  | installed c newTables =>
    some (sh.setLevels (c.remove sh.engine.levels), .logging false (c.records newTables))
  | logging flush (r :: rs) =>
    some ({ sh with manifest := sh.manifest ++ Manifest.frame r.data }, .logging flush rs)
  | logging true [] => some ({ sh with engine := { sh.engine with imm := none } }, .idle)
  | logging false [] => some (sh, .idle)

/-- `Compact` picks some tables of a level for a deeper one: all of level 0, or one table. -/
def Worker.step (sh : Shared) : Act → Worker → Option (Shared × Worker)
  | .takeTask, .idle =>
    match sh.tasks with
    | [] => none
    | (m, seq) :: tasks => some ({ sh with tasks }, .flushing m seq)
  | .pick source target tables, .idle =>
    if source < target ∧ target < maxLevels ∧ tables ≠ [] ∧ tables.Sublist (sh.engine.levels source) then
      some (sh, .picked source target tables)
    else none
  | .next, w => w.next cfg sh
  | _, _ => none

end Background
end AkwaDB
