import AkwaDB.Engine.Order
import AkwaDB.Engine.Read
import AkwaDB.Store.Keyspace

/-!
# AkwaDB.Engine.Holds

The layers of an engine and the flat log of what was written.

Writers and transactions are described over one log, in which a read finds the newest version it may see. The engine
has the entries of the log in memtables and tables, with their values encoded. It reads what the log says while the
layers are in order, no restart point hides a version, and all that a compaction has dropped is out of sight.

- `Holds.found`: the lookup through the layers finds what the log has.
- `Holds.getByVersion_eq`, `Holds.getWithoutLock_eq`, `Holds.ttl_eq`, `Holds.exists_eq`: so do the reads.
- `holds_inMemory`: a log that is split over two memtables in order.
-/

namespace AkwaDB
namespace Engine

open Vlog (ValueLog resolveValue)
open Wal (encodeInlineValue)

def told : Option Bytes → Except ReadError Bytes
  | none => .error .keyNotFound
  | some v => .ok v

/-- From `now` on the stored entry is read as the logged one, whose value is that of the user. -/
def Tells (vl : ValueLog) (now : Int) (x h : Entry) : Prop :=
  ∀ t, now ≤ t → x.dead t = h.dead t ∧
    (h.dead t = false → x.expiresAt = h.expiresAt ∧ resolveValue vl x.value = some h.value)

/-- The layers hold the log for reads of `k` at `m` or later. -/
structure Holds (cfg : Config) (vl : ValueLog) (e : Engine) (m : Nat) (log : List Entry) (k : Bytes) : Prop where
  ordered : e.Ordered cfg
  aligned : ∀ t ∈ allTables e.levels, t.Aligned k
  covers : Covers Entry.key Entry.version (Tells vl e.now) (fun h => h.dead e.now = true) m log e.layers.flatten
  single : Separates Entry.version (Entry.hits k fun _ => true) log

section
variable {vl : ValueLog} {now : Int} {x y : Entry}

theorem Tells.resolved_eq (h : Tells vl now x y) : resolved vl now (some x) = told (y.answer now) := by
  obtain ⟨hdead, hlive⟩ := h now (Int.le_refl now)
  cases hy : y.dead now with
  | true => simp [resolved, Entry.answer, hdead, hy, told]
  | false => simp [resolved, Entry.answer, hdead, hy, told, (hlive hy).2]

theorem Tells.remaining_eq (h : Tells vl now x y) : remaining now (some x) = remaining now (some y) := by
  obtain ⟨hdead, hlive⟩ := h now (Int.le_refl now)
  cases hy : y.dead now with
  | true => simp [remaining, hdead, hy]
  | false => simp only [remaining, hdead, hy, (hlive hy).1]

end

theorem get_ofEntries (log : List Entry) (now : Int) (k : Bytes) : (Keyspace.ofEntries log).get now k =
    (newest Entry.version (Entry.hits k fun _ => true) log).bind (Entry.answer now) := by
  unfold Keyspace.get
  cases hy : newest Entry.version (Entry.hits k fun _ => true) log with
  | none => rw [Keyspace.live_ofEntries_none hy, Option.map_none, Option.bind_none]
  | some y =>
    rw [Keyspace.live_ofEntries hy, Option.bind_some, Entry.answer]
    split <;> rfl

theorem ttl_ofEntries (log : List Entry) (now : Int) (k : Bytes) : (Keyspace.ofEntries log).ttl now k =
    remaining now (newest Entry.version (Entry.hits k fun _ => true) log) := by
  have hnone : (AkwaDB.remaining now none).toInt = -2 := rfl
  unfold Keyspace.ttl
  cases hy : newest Entry.version (Entry.hits k fun _ => true) log with
  | none =>
    rw [Keyspace.live_ofEntries_none hy, hnone]
    rfl
  | some y =>
    rw [Keyspace.live_ofEntries hy, remaining]
    split
    · exact hnone
    · rw [AkwaDB.remaining]
      split
      · rfl
      · dsimp only
        split <;> rfl

namespace Holds

variable {cfg : Config} {vl : ValueLog} {e : Engine} {m r : Nat} {log : List Entry} {k : Bytes}

section
variable (h : Holds cfg vl e m log k)
include h

theorem found (hr : m ≤ r) :
    (∃ x y, e.lookup cfg k (fun v => decide (v ≤ r)) = some x ∧
      newest Entry.version (Entry.hits k fun v => decide (v ≤ r)) log = some y ∧ Tells vl e.now x y) ∨
    e.lookup cfg k (fun v => decide (v ≤ r)) = none ∧
      ∀ y, newest Entry.version (Entry.hits k fun v => decide (v ≤ r)) log = some y → y.dead e.now = true := by
  rw [h.ordered.lookup_eq_newest h.aligned]
  cases hx : newest Entry.version (Entry.hits k fun v => decide (v ≤ r)) e.layers.flatten with
  | some x =>
    obtain ⟨y, hy, htells⟩ := h.covers.read_some hr (newest_spec hx)
    have hsep : Separates Entry.version (Entry.hits k fun v => decide (v ≤ r)) log := fun a ha b hb hpa hpb =>
      h.single a ha b hb (Entry.hits_iff.mpr ⟨(Entry.hits_iff.mp hpa).1, rfl⟩)
        (Entry.hits_iff.mpr ⟨(Entry.hits_iff.mp hpb).1, rfl⟩)
    exact .inl ⟨x, y, rfl, (newest_eq_some_iff hsep).mpr hy, htells⟩
  | none =>
    exact .inr ⟨rfl, fun y hy => h.covers.read_none hr (newest_eq_none.mp hx) (newest_spec hy)⟩

theorem getByVersion_eq (hr : m ≤ r) : e.getByVersion cfg vl k r =
    told ((newest Entry.version (Entry.hits k fun v => decide (v ≤ r)) log).bind (Entry.answer e.now)) := by
  rcases h.found hr with ⟨x, y, hx, hy, htells⟩ | ⟨hnone, hdead⟩
  · rw [getByVersion, hx, hy, htells.resolved_eq]
    rfl
  · rw [getByVersion, hnone]
    cases hy : newest Entry.version (Entry.hits k fun v => decide (v ≤ r)) log with
    | none => rfl
    | some y => simp [resolved, told, Entry.answer, hdead y hy]

/-- A lookup without a bound is one at a version that nothing is above. -/
theorem found_latest :
    (∃ x y, e.lookup cfg k (fun _ => true) = some x ∧
      newest Entry.version (Entry.hits k fun _ => true) log = some y ∧ Tells vl e.now x y) ∨
    e.lookup cfg k (fun _ => true) = none ∧
      ∀ y, newest Entry.version (Entry.hits k fun _ => true) log = some y → y.dead e.now = true := by
  obtain ⟨r, hr⟩ : ∃ r, ∀ x ∈ log, x.version ≤ r :=
    ⟨(log.map Entry.version).sum, fun x hx => List.le_sum_of_mem (List.mem_map_of_mem hx)⟩
  have hext : ∀ l : List Entry, (∀ x ∈ l, x.version ≤ r) → newest Entry.version (Entry.hits k fun _ => true) l =
      newest Entry.version (Entry.hits k fun v => decide (v ≤ max m r)) l := fun l hl =>
    newest_ext fun x hx => by simp [Entry.hits, hl x hx]
  have hstore : ∀ x ∈ e.layers.flatten, x.version ≤ r := by
    intro x hx
    obtain ⟨y, hy, -, hv, -⟩ := h.covers.sound x hx
    exact hv ▸ hr y hy
  have hfound := h.found (Nat.le_max_left m r)
  rw [h.ordered.lookup_eq_newest h.aligned, ← hext _ hr, ← hext _ hstore] at hfound
  rwa [h.ordered.lookup_eq_newest h.aligned]

theorem getWithoutLock_eq : e.getWithoutLock cfg vl k = told ((Keyspace.ofEntries log).get e.now k) := by
  rw [get_ofEntries]
  rcases h.found_latest with ⟨x, y, hx, hy, htells⟩ | ⟨hnone, hdead⟩
  · rw [getWithoutLock, hx, hy, htells.resolved_eq]
    rfl
  · rw [getWithoutLock, hnone]
    cases hy : newest Entry.version (Entry.hits k fun _ => true) log with
    | none => rfl
    | some y => simp [resolved, told, Entry.answer, hdead y hy]

theorem ttl_eq : e.ttl cfg k = (Keyspace.ofEntries log).ttl e.now k := by
  rw [ttl_ofEntries]
  rcases h.found_latest with ⟨x, y, hx, hy, htells⟩ | ⟨hnone, hdead⟩
  · rw [ttl, hx, hy, htells.remaining_eq]
  · rw [ttl, hnone]
    cases hy : newest Entry.version (Entry.hits k fun _ => true) log with
    | none => rfl
    | some y => simp [remaining, hdead y hy]

theorem exists_eq : (e.lookup cfg k fun _ => true).any (fun x => !x.dead e.now) =
    (newest Entry.version (Entry.hits k fun _ => true) log).any fun y => !y.dead e.now := by
  rcases h.found_latest with ⟨x, y, hx, hy, htells⟩ | ⟨hnone, hdead⟩
  · rw [hx, hy, Option.any_some, Option.any_some, (htells e.now (Int.le_refl _)).1]
  · rw [hnone]
    cases hy : newest Entry.version (Entry.hits k fun _ => true) log with
    | none => rfl
    | some y => simp [hdead y hy]

end

end Holds

/-! ## Two memtables -/

def noValues : ValueLog := ⟨fun _ => none, 1, 0⟩

def inline (x : Entry) : Entry := { x with value := encodeInlineValue x.value }

/-- Entries in the active memtable and in the one that is to be flushed. -/
def inMemory (now : Int) (mem imm : List Entry) : Engine :=
  { Engine.fresh now with
    mem := (mem.map inline).foldl SkipList.insertNode SkipList.newSkipList
    imm := some ((imm.map inline).foldl SkipList.insertNode SkipList.newSkipList, 0) }

theorem holds_inMemory {cfg : Config} (vl : ValueLog) (now : Int) {mem imm log : List Entry} {k : Bytes}
    (hnewer : Newer mem imm) (hlog : ∀ x, x ∈ log ↔ x ∈ mem ∨ x ∈ imm)
    (hone : Separates Entry.version (Entry.hits k fun _ => true) log) (m : Nat) :
    (inMemory now mem imm).Holds cfg vl m log k := by
  have hnodes : ∀ (l : List Entry) (z : Entry),
      z ∈ ((l.map inline).foldl SkipList.insertNode SkipList.newSkipList).nodes ↔ ∃ x ∈ l, inline x = z := by
    intro l z
    rw [SkipList.mem_insertAll, List.mem_map]
    exact or_iff_left List.not_mem_nil
  have hstore : ∀ z, z ∈ (inMemory now mem imm).layers.flatten ↔ ∃ x ∈ log, inline x = z := by
    intro z
    have hnone : ∀ t, t ∉ allTables (inMemory now mem imm).levels := allTables_fresh now
    rw [mem_layers, show (inMemory now mem imm).immNodes =
      ((imm.map inline).foldl SkipList.insertNode SkipList.newSkipList).nodes from rfl]
    simp only [inMemory, hnodes, hlog, or_and_right, exists_or]
    refine or_congr_right (or_iff_left ?_)
    rintro ⟨t, ht, -⟩
    exact hnone t ht
  have hfresh : Ordered cfg (Engine.fresh now) := ordered_fresh now
  have hnew : Newer (inMemory now mem imm).mem.nodes (inMemory now mem imm).immNodes := by
    intro x hx y hy hk
    obtain ⟨a, ha, rfl⟩ := (hnodes mem x).mp hx
    obtain ⟨b, hb, rfl⟩ := (hnodes imm y).mp hy
    exact hnewer a ha b hb hk
  refine ⟨⟨hfresh.wf, hnew, fun t ht => absurd ht (allTables_fresh now t),
    fun t ht => absurd ht (allTables_fresh now t), hfresh.level0, hfresh.across, hfresh.apart⟩,
    fun t ht => absurd ht (allTables_fresh now t), ⟨fun z hz => ?_, fun x hx _ => ?_⟩, hone⟩
  · obtain ⟨x, hx, rfl⟩ := (hstore z).mp hz
    exact ⟨x, hx, rfl, rfl, fun t _ => ⟨rfl, fun _ => ⟨rfl, Vlog.resolveValue_inline vl x.value⟩⟩⟩
  · exact .inl ⟨inline x, (hstore _).mpr ⟨x, hx, rfl⟩, rfl, rfl⟩

end Engine
end AkwaDB
