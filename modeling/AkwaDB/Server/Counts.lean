import AkwaDB.Server.Scores
import Mathlib.Data.Set.Card

/-!
# AkwaDB.Server.Counts

The numbers that the calls on hashes, sets and sorted sets return.

A call counts while it builds its batch, against what was there before the batch. Those that add to a collection
remember what they have come to already; `SRem` and `ZRem` do not, and count a member as often as it is given.

- `Counted.content_run`: what a collection holds after a call.
- `counts_honest_iff`: the number is the change in the number of members, and the members have what was given for
  them last, exactly when no member that is there is to be removed twice and no score that is kept is no number.
-/

namespace AkwaDB
namespace Server

open Wal (BatchWriteEntry)

noncomputable def cardinality (content : Bytes → Option Bytes) : Nat := Set.ncard {m | (content m).isSome}

section
variable {before after : Bytes → Option Bytes} {members : List Bytes}

section
variable (hfin : {m | (before m).isSome}.Finite)
include hfin

theorem cardinality_union {F : Finset Bytes}
    (h : ∀ m, (after m).isSome ↔ (before m).isSome ∨ m ∈ F) (hnew : ∀ m ∈ F, ¬ (before m).isSome) :
    cardinality after = cardinality before + F.card := by
  have hset : {m | (after m).isSome} = {m | (before m).isSome} ∪ ↑F := Set.ext h
  have hdisj : Disjoint {m | (before m).isSome} (↑F : Set Bytes) :=
    Set.disjoint_left.mpr fun m hm hF => hnew m hF hm
  rw [cardinality, hset, Set.ncard_union_eq hdisj hfin F.finite_toSet, Set.ncard_coe_finset]
  rfl

theorem cardinality_added (hnodup : members.Nodup)
    (h : ∀ m, (after m).isSome ↔ (before m).isSome ∨ m ∈ members) :
    cardinality after = cardinality before + (members.countP fun m => (before m).isNone) := by
  rw [List.countP_eq_length_filter, ← List.toFinset_card_of_nodup (hnodup.filter _)]
  refine cardinality_union hfin (fun m => ?_) fun m hm => ?_
  · rw [h, List.mem_toFinset, List.mem_filter]
    cases before m <;> simp
  · rw [Bool.not_eq_true, Option.isSome_eq_false_iff]
    exact (List.mem_filter.mp (List.mem_toFinset.mp hm)).2

theorem cardinality_removed (h : ∀ m, (after m).isSome ↔ (before m).isSome ∧ m ∉ members) :
    cardinality before = cardinality after + (members.filter fun m => (before m).isSome).toFinset.card := by
  refine cardinality_union (hfin.subset fun m hm => ((h m).mp hm).1) (fun m => ?_) fun m hm hsome => ?_
  · rw [h, List.mem_toFinset, List.mem_filter]
    tauto
  · exact ((h m).mp hsome).2 (List.mem_filter.mp (List.mem_toFinset.mp hm)).1

end

theorem card_eq_length_iff (l : List Bytes) : l.toFinset.card = l.length ↔ l.Nodup := by
  have h := @Multiset.toFinset_card_eq_card_iff_nodup _ _ (l : Multiset Bytes)
  rwa [Multiset.coe_nodup, Multiset.coe_card] at h

end

theorem nodup_eraseDups (l : List Bytes) : l.eraseDups.Nodup := by
  induction hlen : l.length using Nat.strong_induction_on generalizing l with
  | _ size ih =>
    cases l with
    | nil => exact List.nodup_nil
    | cons a l =>
      have hshort : (l.filter fun b => !b == a).length < size := by
        rw [← hlen, List.length_cons]
        exact Nat.lt_succ_of_le (List.length_filter_le _ _)
      rw [List.eraseDups_cons]
      refine List.nodup_cons.mpr ⟨fun h => ?_, ih _ hshort _ rfl⟩
      simp at h

theorem length_eraseDups_le (l : List Bytes) : l.eraseDups.length ≤ l.length :=
  (List.subperm_of_subset (nodup_eraseDups l) fun _ h => List.mem_eraseDups.mp h).length_le

section
variable {β : Type}

def assigned (ps : List (Bytes × β)) (c : Bytes → Option β) : Bytes → Option β :=
  ps.foldl (fun c p => Function.update c p.1 (some p.2)) c

theorem lookup_foldl_assoc (ps m : List (Bytes × β)) :
    (fun j => (ps.foldl (fun m p => assoc m p.1 p.2) m).lookup j) = assigned ps fun j => m.lookup j := by
  induction ps generalizing m with
  | nil => rfl
  | cons p ps ih =>
    rw [List.foldl_cons, ih, assigned, assigned, List.foldl_cons]
    congr 1
    funext j
    rw [lookup_assoc, Function.update_apply]

theorem assigned_eq (ps : List (Bytes × β)) (c : Bytes → Option β) (j : Bytes) :
    assigned ps c j = ((assocAll ps).lookup j).or (c j) := by
  have hnone : (assocAll ps).lookup j = assigned ps (fun _ => none) j := congrFun (lookup_foldl_assoc ps []) j
  rw [hnone]
  -- by the last assignment
  induction ps using List.reverseRecOn with
  | nil => rfl
  | append_singleton ps p ih =>
    have hlast : ∀ c : Bytes → Option β, assigned (ps ++ [p]) c j = if j = p.1 then some p.2 else assigned ps c j := by
      intro c
      rw [assigned, List.foldl_append, List.foldl_cons, List.foldl_nil, Function.update_apply]
      rfl
    rw [hlast, hlast]
    split
    · rfl
    · exact ih (congrFun (lookup_foldl_assoc ps []) j)

theorem lookup_isSome {m : List (Bytes × β)} {j : Bytes} :
    (m.lookup j).isSome ↔ j ∈ m.map Prod.fst := by
  rw [Option.isSome_iff_ne_none, ne_eq, lookup_eq_none, not_not]

theorem nodup_assocAll (ps : List (Bytes × β)) : ((assocAll ps).map Prod.fst).Nodup := by
  unfold assocAll
  suffices h : ∀ m : List (Bytes × β), (m.map Prod.fst).Nodup →
      ((ps.foldl (fun m p => assoc m p.1 p.2) m).map Prod.fst).Nodup from h [] List.nodup_nil
  induction ps with
  | nil => exact fun m hm => hm
  | cons p ps ih => exact fun m hm => ih _ (nodup_assoc hm p.1 p.2)

theorem lookup_of_mem {m : List (Bytes × β)} (h : (m.map Prod.fst).Nodup) {p : Bytes × β} (hp : p ∈ m) :
    m.lookup p.1 = some p.2 := by
  induction m with
  | nil => cases hp
  | cons q m ih =>
    obtain ⟨hq, hm⟩ := List.nodup_cons.mp h
    rw [lookup_pair]
    rcases List.mem_cons.mp hp with rfl | hp
    · exact if_pos rfl
    · rw [if_neg fun heq : p.1 = q.1 => hq (heq ▸ List.mem_map_of_mem hp)]
      exact ih hm hp

theorem mem_of_lookup {m : List (Bytes × β)} (h : (m.map Prod.fst).Nodup) {j : Bytes} {v : β}
    (hj : m.lookup j = some v) : (j, v) ∈ m := by
  obtain ⟨p, hp, rfl⟩ := List.mem_map.mp (lookup_isSome.mp (Option.isSome_of_eq_some hj))
  rw [lookup_of_mem h hp] at hj
  cases hj
  exact hp

theorem length_assocAll_le (ps : List (Bytes × β)) : (assocAll ps).length ≤ ps.length := by
  suffices h : ∀ m : List (Bytes × β), (ps.foldl (fun m p => assoc m p.1 p.2) m).length ≤ m.length + ps.length by
    simpa [assocAll] using h []
  induction ps with
  | nil => exact fun m => Nat.le_refl _
  | cons p ps ih =>
    intro m
    have hstep : (assoc m p.1 p.2).length ≤ m.length + 1 := by
      unfold assoc
      split
      · rw [List.length_map]
        omega
      · rw [List.length_append, List.length_singleton]
    have := ih (assoc m p.1 p.2)
    rw [List.foldl_cons, List.length_cons]
    omega

end

inductive Counted where
  | hset (fields : List Bytes)
  | sadd (members : List Bytes)
  | zadd (members : List (Bytes × Score))
  | srem (members : List Bytes)
  | zrem (members : List Bytes)

namespace Counted

def run (key : Bytes) : Counted → DbM Int64
  | hset fields => hsetMulti key fields
  | sadd members => Server.sadd key members
  | zadd members => zaddMulti key members
  | srem members => Server.srem key members
  | zrem members => Server.zrem key members

def name (key : Bytes) : Counted → Bytes → Bytes
  | hset _ => hashFieldKey key
  | sadd _ | srem _ => setMemberKey key
  | zadd _ | zrem _ => zvalKey key

def content (n : Node) (key : Bytes) (c : Counted) : Bytes → Option Bytes := fun m => n.read (c.name key m)

def removals : Counted → List Bytes
  | srem members | zrem members => members
  | _ => []

def scored : Counted → List (Bytes × Score)
  | zadd members => members
  | _ => []

def size : Counted → Nat
  | hset fields => fields.length
  | zadd members => members.length
  | sadd members | srem members | zrem members => members.length

def expected : Counted → (Bytes → Option Bytes) → Bytes → Option Bytes
  | hset fields, c => assigned (pairs fields) c
  | sadd members, c => fun m => if m ∈ members then some ((c m).getD []) else c m
  | zadd members, c => fun m => ((assigned members (fun _ => none) m).map encodeScore).or (c m)
  | srem members, c | zrem members, c => fun m => if m ∈ members then none else c m

noncomputable def change (c : Counted) (before after : Bytes → Option Bytes) : Int :=
  match c with
  | srem _ | zrem _ => (cardinality before : Int) - cardinality after
  | _ => (cardinality after : Int) - cardinality before

/-- The number is the change, the content is as expected, and the scores are those that were given last. -/
def Honest (n : Node) (key : Bytes) (c : Counted) : Prop :=
  let after := ((c.run key).run n).2
  ((c.run key).run n).1.toInt = c.change (c.content n key) (c.content after key) ∧
    (∀ m, c.content after key m = c.expected (c.content n key) m) ∧
    ∀ p ∈ assocAll c.scored, ∃ x, after.zscore key p.1 = some x ∧ x.isNaN = false ∧ p.2.isNaN = false ∧
      x.value = p.2.value

/-- No member that is there is to be removed twice, and no score that is kept is no number. -/
def Fair (n : Node) (key : Bytes) (c : Counted) : Prop :=
  (c.removals.filter fun m => (c.content n key m).isSome).Nodup ∧ ∀ p ∈ assocAll c.scored, p.2.isNaN = false

instance (n : Node) (key : Bytes) (c : Counted) : Decidable (c.Fair n key) :=
  inferInstanceAs (Decidable (_ ∧ _))

theorem name_injective (key : Bytes) (c : Counted) : Function.Injective (c.name key) := by
  cases c with
  | _ => exact fun a b h => List.append_cancel_left h

theorem finite_content (n : Node) (key : Bytes) (c : Counted) : {m | (c.content n key m).isSome}.Finite := by
  refine ((List.finite_toSet (n.log.map Entry.key)).preimage (c.name_injective key).injOn).subset ?_
  intro m hm
  obtain ⟨v, hv⟩ := Option.isSome_iff_exists.mp hm
  obtain ⟨i, hi, -⟩ := Option.map_eq_some_iff.mp hv
  obtain ⟨hdb, -⟩ := Option.filter_eq_some_iff.mp hi
  exact Node.mem_log_of_db hdb

end Counted

/-! ## What a call leaves -/

section
variable {n n' : Node} {k v : Bytes}

theorem read_of_some (h : n'.db k = some ⟨v, 0⟩) : n'.read k = some v := by
  simp [Node.read, Keyspace.get, Keyspace.live, h, Item.expired]

theorem read_of_none (h : n'.db k = none) : n'.read k = none := by
  simp [Node.read, Keyspace.get, Keyspace.live, h]

theorem read_congr (hdb : n'.db k = n.db k) (hnow : n'.now = n.now) : n'.read k = n.read k := by
  simp only [Node.read, Keyspace.get, Keyspace.live, hdb, hnow]

end

theorem zip_map_self {α β : Type} (l : List α) (f : α → β) : l.zip (l.map f) = l.map fun a => (a, f a) := by
  induction l with
  | nil => rfl
  | cons a l ih => rw [List.map_cons, List.zip_cons_cons, ih, List.map_cons]

structure Wrote (n : Node) (result : Int64 × Node) (batch : List BatchWriteEntry) (count : Nat) : Prop where
  count : result.1 = Int64.ofNat count
  db : result.2.db = batch.foldl Repl.applyBatchEntry n.db
  now : result.2.now = n.now

theorem run_lookups {α : Type} (ks : List Bytes) (f : List (Option Bytes) → DbM α) (n : Node) :
    (ks.mapM getByKey >>= f).run n = (f (ks.map n.read)).run n := by
  rw [StateT.run_bind, @run_mapM_read _ _ _ getByKey Node.read fun _ _ => rfl]
  rfl

theorem submitSome_run (entries : List BatchWriteEntry) (n : Node) :
    ((submitSome entries).run n).2.db = entries.foldl Repl.applyBatchEntry n.db ∧
      ((submitSome entries).run n).2.now = n.now := by
  unfold submitSome
  split
  · rename_i h
    rw [List.isEmpty_iff.mp h]
    exact ⟨rfl, rfl⟩
  · exact ⟨Node.db_applyAt (n.atMost_nextTs _), rfl⟩

theorem hsetMulti_wrote (n : Node) (key : Bytes) (fields : List Bytes) :
    Wrote n ((hsetMulti key fields).run n)
      ((assocAll (pairs fields)).map fun p => ⟨hashFieldKey key p.1, p.2, 0, false⟩)
      (((assocAll (pairs fields)).map Prod.fst).countP fun m => (n.read (hashFieldKey key m)).isNone) := by
  have hcount : missing (((assocAll (pairs fields)).map fun p => hashFieldKey key p.1).map n.read) =
      Int64.ofNat (((assocAll (pairs fields)).map Prod.fst).countP fun m => (n.read (hashFieldKey key m)).isNone) := by
    rw [missing, List.map_map, List.countP_map, List.countP_map]
    rfl
  unfold hsetMulti
  rw [run_lookups]
  split
  · rename_i h
    rw [List.isEmpty_iff.mp h]
    exact ⟨rfl, rfl, rfl⟩
  · exact ⟨hcount, Node.db_applyAt (n.atMost_nextTs _), rfl⟩

theorem sadd_wrote (n : Node) (key : Bytes) (members : List Bytes) :
    Wrote n ((sadd key members).run n)
      ((members.eraseDups.filter fun m => (n.read (setMemberKey key m)).isNone).map fun m =>
        ⟨setMemberKey key m, [], 0, false⟩)
      (members.eraseDups.countP fun m => (n.read (setMemberKey key m)).isNone) := by
  have hentries : ((members.eraseDups.zip ((members.eraseDups.map (setMemberKey key)).map n.read)).filterMap fun p =>
        if p.2.isNone then some (⟨setMemberKey key p.1, [], 0, false⟩ : BatchWriteEntry) else none) =
      (members.eraseDups.filter fun m => (n.read (setMemberKey key m)).isNone).map fun m =>
        ⟨setMemberKey key m, [], 0, false⟩ := by
    rw [List.map_map, zip_map_self, List.filterMap_map, ← List.filterMap_eq_map, List.filterMap_filter]
    rfl
  unfold sadd
  rw [run_lookups]
  dsimp only
  rw [hentries]
  obtain ⟨hdb, hnow⟩ := submitSome_run ((members.eraseDups.filter fun m =>
    (n.read (setMemberKey key m)).isNone).map fun m => ⟨setMemberKey key m, [], 0, false⟩) n
  refine ⟨?_, hdb, hnow⟩
  rw [List.countP_eq_length_filter, ← List.length_map fun m => (⟨setMemberKey key m, [], 0, false⟩ : BatchWriteEntry)]
  rfl

theorem srem_wrote (n : Node) (key : Bytes) (members : List Bytes) :
    Wrote n ((srem key members).run n)
      ((members.filter fun m => (n.read (setMemberKey key m)).isSome).map fun m => tombstone (setMemberKey key m))
      (members.filter fun m => (n.read (setMemberKey key m)).isSome).length := by
  have hentries : ((members.zip ((members.map (setMemberKey key)).map n.read)).filterMap fun p =>
        if p.2.isSome then some (tombstone (setMemberKey key p.1)) else none) =
      (members.filter fun m => (n.read (setMemberKey key m)).isSome).map fun m => tombstone (setMemberKey key m) := by
    rw [List.map_map, zip_map_self, List.filterMap_map, ← List.filterMap_eq_map, List.filterMap_filter]
    rfl
  unfold srem
  rw [run_lookups]
  dsimp only
  rw [hentries]
  obtain ⟨hdb, hnow⟩ := submitSome_run ((members.filter fun m =>
    (n.read (setMemberKey key m)).isSome).map fun m => tombstone (setMemberKey key m)) n
  refine ⟨?_, hdb, hnow⟩
  rw [← List.length_map fun m => tombstone (setMemberKey key m)]
  rfl

theorem zaddMulti_wrote (n : Node) (key : Bytes) (members : List (Bytes × Score)) :
    Wrote n ((zaddMulti key members).run n)
      ((assocAll members).flatMap fun p => zaddEntries key p.1 p.2 (n.read (zvalKey key p.1)))
      (((assocAll members).map Prod.fst).countP fun m => (n.read (zvalKey key m)).isNone) := by
  unfold zaddMulti
  rw [run_lookups]
  rw [List.map_map, zip_map_self, List.flatMap_map]
  refine ⟨?_, Node.db_applyAt (n.atMost_nextTs _), rfl⟩
  show missing _ = _
  rw [missing, List.countP_map, List.countP_map]
  rfl

def zpresent (n : Node) (key : Bytes) (members : List Bytes) : List (Bytes × Bytes) :=
  members.filterMap fun m => (n.read (zvalKey key m)).map fun val => (m, val)

theorem length_zpresent (n : Node) (key : Bytes) (members : List Bytes) :
    (zpresent n key members).length = (members.filter fun m => (n.read (zvalKey key m)).isSome).length := by
  unfold zpresent
  induction members with
  | nil => rfl
  | cons m ms ih =>
    cases hm : n.read (zvalKey key m) with
    | none => simpa [hm] using ih
    | some val => simpa [hm] using ih

theorem zrem_wrote (n : Node) (key : Bytes) (members : List Bytes) :
    Wrote n ((zrem key members).run n) ((zpresent n key members).flatMap fun p => zremEntries key p.1 p.2)
      (members.filter fun m => (n.read (zvalKey key m)).isSome).length := by
  unfold zrem
  rw [run_lookups]
  dsimp only
  rw [List.map_map, zip_map_self, List.filterMap_map]
  obtain ⟨hdb, hnow⟩ := submitSome_run ((zpresent n key members).flatMap fun p => zremEntries key p.1 p.2) n
  exact ⟨congrArg Int64.ofNat (length_zpresent n key members), hdb, hnow⟩

/-! ## Reading what was written -/

section
variable {n : Node} {result : Int64 × Node} {batch : List BatchWriteEntry} {count : Nat} {g : Bytes → Bytes}

theorem db_put {β : Type} (ps : List (Bytes × β)) (f : β → Bytes) (hw : Wrote n result batch count)
    (hput : ∀ p ∈ assocAll ps, ∃ b ∈ batch, b.key = g p.1)
    (hitem : ∀ b ∈ batch, ∀ m, b.key = g m → ∃ p ∈ assocAll ps, p.1 = m ∧ entryItem b = some ⟨f p.2, 0⟩) (m : Bytes) :
    result.2.db (g m) = (((assocAll ps).lookup m).map fun v => ⟨f v, 0⟩).or (n.db (g m)) := by
  have hnodup := nodup_assocAll ps
  rw [hw.db]
  cases hm : (assocAll ps).lookup m with
  | none =>
    have hno := lookup_eq_none.mp hm
    refine foldl_batch_other (fun b hb hk => ?_) _
    obtain ⟨p, hp, rfl, -⟩ := hitem b hb m hk
    exact hno (List.mem_map_of_mem hp)
  | some v =>
    refine foldl_batch_item (hput _ (mem_of_lookup hnodup hm)) (fun b hb hk => ?_) _
    obtain ⟨q, hq, heq, hi⟩ := hitem b hb m hk
    have hval := lookup_of_mem hnodup hq
    rw [heq, hm] at hval
    rw [hi, ← Option.some.inj hval]
    rfl

theorem read_put {β : Type} {ps : List (Bytes × β)} {f : β → Bytes} {m : Bytes} (hw : Wrote n result batch count)
    (h : result.2.db (g m) = (((assocAll ps).lookup m).map fun v => ⟨f v, 0⟩).or (n.db (g m))) :
    result.2.read (g m) = (((assocAll ps).lookup m).map f).or (n.read (g m)) := by
  cases hm : (assocAll ps).lookup m with
  | none =>
    rw [hm] at h
    exact read_congr h hw.now
  | some v =>
    rw [hm] at h
    exact read_of_some h

theorem db_removed {members : List Bytes} (hw : Wrote n result batch count)
    (hdel : ∀ m ∈ members, (n.read (g m)).isSome → ∃ b ∈ batch, b.key = g m)
    (hitem : ∀ b ∈ batch, ∀ m, b.key = g m → m ∈ members ∧ entryItem b = none) (m : Bytes) :
    result.2.db (g m) = none ∧ m ∈ members ∨
      result.2.db (g m) = n.db (g m) ∧ (m ∈ members → n.read (g m) = none) := by
  by_cases hbatch : ∃ b ∈ batch, b.key = g m
  · obtain ⟨b, hb, hk⟩ := hbatch
    refine Or.inl ⟨?_, (hitem b hb m hk).1⟩
    rw [hw.db]
    exact foldl_batch_item ⟨b, hb, hk⟩ (fun c hc hck => (hitem c hc m hck).2) _
  · refine Or.inr ⟨?_, fun hm => ?_⟩
    · rw [hw.db]
      exact foldl_batch_other (fun b hb hk => hbatch ⟨b, hb, hk⟩) _
    · by_contra hne
      exact hbatch (hdel m hm (Option.isSome_iff_ne_none.mpr hne))

theorem read_removed {members : List Bytes} {m : Bytes} (hw : Wrote n result batch count)
    (h : result.2.db (g m) = none ∧ m ∈ members ∨
      result.2.db (g m) = n.db (g m) ∧ (m ∈ members → n.read (g m) = none)) :
    result.2.read (g m) = if m ∈ members then none else n.read (g m) := by
  rcases h with ⟨hdb, hm⟩ | ⟨hdb, hm⟩
  · rw [if_pos hm]
    exact read_of_none hdb
  · rw [read_congr hdb hw.now]
    split
    · exact hm ‹_›
    · rfl

end

theorem zvalKey_injective (key : Bytes) : Function.Injective (zvalKey key) := fun _ _ h => List.append_cancel_left h

theorem zscoreKey_ne_zvalKey (key : Bytes) (x : Score) (m m' : Bytes) : zscoreKey key x m ≠ zvalKey key m' :=
  fun h => by
  simp [zscoreKey, zvalKey, zscorePrefix] at h

theorem mem_zaddEntries {key m : Bytes} {x : Score} {old : Option Bytes} {b : BatchWriteEntry}
    (hb : b ∈ zaddEntries key m x old) :
    b = ⟨zvalKey key m, encodeScore x, 0, false⟩ ∨ b = ⟨zscoreKey key x m, [], 0, false⟩ ∨
      ∃ val, old = some val ∧ (if val.isEmpty then 0 else decodeScore val).differs x = true ∧
        b = tombstone (zscoreKey key (if val.isEmpty then 0 else decodeScore val) m) := by
  rcases List.mem_append.mp hb with hb | hb
  · cases old with
    | none => cases hb
    | some val =>
      dsimp only at hb
      by_cases hd : (if val.isEmpty then 0 else decodeScore val).differs x = true
      · rw [if_pos hd] at hb
        exact Or.inr (Or.inr ⟨val, rfl, hd, List.mem_singleton.mp hb⟩)
      · rw [if_neg hd] at hb
        cases hb
  · simp only [List.mem_cons, List.not_mem_nil, or_false] at hb
    exact hb.elim Or.inl fun h => Or.inr (Or.inl h)

theorem mem_zremEntries {key m val : Bytes} {b : BatchWriteEntry} (hb : b ∈ zremEntries key m val) :
    b = tombstone (zvalKey key m) ∨ (val.length = 8 ∧ b = tombstone (zscoreKey key (decodeScore val) m)) := by
  rcases List.mem_append.mp hb with hb | hb
  · split at hb
    · rename_i hlen
      exact Or.inr ⟨hlen, List.mem_singleton.mp hb⟩
    · cases hb
  · exact Or.inl (List.mem_singleton.mp hb)

theorem mem_zpresent {n : Node} {key : Bytes} {members : List Bytes} {p : Bytes × Bytes} :
    p ∈ zpresent n key members ↔ p.1 ∈ members ∧ n.read (zvalKey key p.1) = some p.2 := by
  obtain ⟨m, val⟩ := p
  simp only [zpresent, List.mem_filterMap, Option.map_eq_some_iff, Prod.mk.injEq]
  constructor
  · rintro ⟨m', hm, val', hval, rfl, rfl⟩
    exact ⟨hm, hval⟩
  · rintro ⟨hm, hval⟩
    exact ⟨m, hm, val, hval, rfl, rfl⟩

theorem db_zadd (n : Node) (key : Bytes) (members : List (Bytes × Score)) (m : Bytes) :
    ((zaddMulti key members).run n).2.db (zvalKey key m) =
      (((assocAll members).lookup m).map fun x => ⟨encodeScore x, 0⟩).or (n.db (zvalKey key m)) := by
  refine db_put members encodeScore (zaddMulti_wrote n key members) (fun p hp => ?_) (fun b hb j hk => ?_) m
  · exact ⟨⟨zvalKey key p.1, encodeScore p.2, 0, false⟩, List.mem_flatMap.mpr ⟨p, hp, by simp [zaddEntries]⟩, rfl⟩
  · obtain ⟨p, hp, hb⟩ := List.mem_flatMap.mp hb
    rcases mem_zaddEntries hb with rfl | rfl | ⟨val, -, -, rfl⟩
    · exact ⟨p, hp, zvalKey_injective key hk, rfl⟩
    · exact absurd hk (zscoreKey_ne_zvalKey _ _ _ _)
    · exact absurd hk (zscoreKey_ne_zvalKey _ _ _ _)

theorem db_zrem (n : Node) (key : Bytes) (members : List Bytes) (m : Bytes) :
    ((zrem key members).run n).2.db (zvalKey key m) = none ∧ m ∈ members ∨
      ((zrem key members).run n).2.db (zvalKey key m) = n.db (zvalKey key m) ∧
        (m ∈ members → n.read (zvalKey key m) = none) := by
  refine db_removed (zrem_wrote n key members) (fun j hj hsome => ?_) (fun b hb j hk => ?_) m
  · obtain ⟨val, hval⟩ := Option.isSome_iff_exists.mp hsome
    exact ⟨tombstone (zvalKey key j),
      List.mem_flatMap.mpr ⟨(j, val), mem_zpresent.mpr ⟨hj, hval⟩, by simp [zremEntries]⟩, rfl⟩
  · obtain ⟨p, hp, hb⟩ := List.mem_flatMap.mp hb
    rcases mem_zremEntries hb with rfl | ⟨-, rfl⟩
    · exact ⟨zvalKey_injective key hk ▸ (mem_zpresent.mp hp).1, rfl⟩
    · exact absurd hk (zscoreKey_ne_zvalKey _ _ _ _)

namespace Counted

theorem content_run (n : Node) (key : Bytes) (c : Counted) (m : Bytes) :
    c.content ((c.run key).run n).2 key m = c.expected (c.content n key) m := by
  cases c with
  | hset fields =>
    have hw := hsetMulti_wrote n key fields
    refine (read_put hw (db_put (g := hashFieldKey key) (pairs fields) id hw (fun p hp => ?_)
      (fun b hb j hk => ?_) m)).trans ?_
    · exact ⟨_, List.mem_map_of_mem hp, rfl⟩
    · obtain ⟨p, hp, rfl⟩ := List.mem_map.mp hb
      exact ⟨p, hp, List.append_cancel_left hk, rfl⟩
    · rw [Option.map_id]
      exact (assigned_eq (pairs fields) (content n key (hset fields)) m).symm
  | sadd members =>
    have hw : Wrote n ((run key (sadd members)).run n) _ _ := sadd_wrote n key members
    show _ = if m ∈ members then some ((n.read (setMemberKey key m)).getD []) else n.read (setMemberKey key m)
    by_cases hnew : m ∈ members ∧ n.read (setMemberKey key m) = none
    · rw [if_pos hnew.1, hnew.2]
      refine read_of_some ?_
      rw [hw.db]
      refine foldl_batch_item ⟨_, List.mem_map_of_mem (a := m) ?_, rfl⟩ (fun b hb hk => ?_) _
      · simp [hnew]
      · obtain ⟨j, -, rfl⟩ := List.mem_map.mp hb
        rfl
    · have hsame : content ((run key (sadd members)).run n).2 key (sadd members) m = n.read (setMemberKey key m) := by
        refine read_congr ?_ hw.now
        rw [hw.db]
        refine foldl_batch_other (fun b hb hk => hnew ?_) _
        obtain ⟨j, hj, rfl⟩ := List.mem_map.mp hb
        obtain rfl : j = m := List.append_cancel_left hk
        simpa using hj
      rw [hsame]
      split
      · rename_i hm
        cases hread : n.read (setMemberKey key m) with
        | none => exact absurd ⟨hm, hread⟩ hnew
        | some v => rfl
      · rfl
  | zadd members =>
    refine (read_put (f := encodeScore) (zaddMulti_wrote n key members) (db_zadd n key members m)).trans ?_
    show _ = ((assigned members (fun _ => none) m).map encodeScore).or _
    rw [assigned_eq, Option.or_none]
    rfl
  | srem members =>
    have hw := srem_wrote n key members
    refine read_removed hw (db_removed (g := setMemberKey key) hw (fun j hj hsome => ?_) (fun b hb j hk => ?_) m)
    · exact ⟨_, List.mem_map_of_mem (List.mem_filter.mpr ⟨hj, hsome⟩), rfl⟩
    · obtain ⟨i, hi, rfl⟩ := List.mem_map.mp hb
      obtain rfl : i = j := List.append_cancel_left hk
      exact ⟨(List.mem_filter.mp hi).1, rfl⟩
  | zrem members => exact read_removed (zrem_wrote n key members) (db_zrem n key members m)

theorem count_added {n : Node} {key : Bytes} {c : Counted} {members : List Bytes} {batch : List BatchWriteEntry}
    (hw : Wrote n ((c.run key).run n) batch (members.countP fun m => (c.content n key m).isNone))
    (hnodup : members.Nodup) (hlen : members.length < 2 ^ 63)
    (h : ∀ m, (c.expected (c.content n key) m).isSome ↔ (c.content n key m).isSome ∨ m ∈ members) :
    ((c.run key).run n).1.toInt =
      (cardinality (c.content ((c.run key).run n).2 key) : Int) - cardinality (c.content n key) := by
  have hcard : cardinality (c.content ((c.run key).run n).2 key) = _ :=
    cardinality_added (c.finite_content n key) hnodup fun m => by rw [content_run, h]
  have hle := List.countP_le_length (l := members) (p := fun m => (c.content n key m).isNone)
  rw [hw.count, Int64.toInt_ofNat_of_lt (by omega), hcard]
  omega

theorem count_removed {n : Node} {key : Bytes} {c : Counted} {members : List Bytes} {batch : List BatchWriteEntry}
    (hw : Wrote n ((c.run key).run n) batch (members.filter fun m => (c.content n key m).isSome).length)
    (hlen : members.length < 2 ^ 63)
    (h : ∀ m, c.expected (c.content n key) m = if m ∈ members then none else c.content n key m) :
    ((c.run key).run n).1.toInt =
        (cardinality (c.content n key) : Int) - cardinality (c.content ((c.run key).run n).2 key) ↔
      (members.filter fun m => (c.content n key m).isSome).Nodup := by
  have hshrunk : ∀ m, (c.content ((c.run key).run n).2 key m).isSome ↔
      (c.content n key m).isSome ∧ m ∉ members := by
    intro m
    rw [content_run, h]
    split <;> simp [*]
  have hcard := cardinality_removed (c.finite_content n key) hshrunk
  have hle := List.length_filter_le (fun m => (c.content n key m).isSome) members
  rw [hw.count, Int64.toInt_ofNat_of_lt (by omega), hcard, ← card_eq_length_iff]
  omega

theorem zscore_of_read {n : Node} {key m : Bytes} {x : Score} (h : n.read (zvalKey key m) = some (encodeScore x)) :
    n.zscore key m = some (decodeScore (encodeScore x)) := by
  simp [Node.zscore, h]

theorem count_iff (n : Node) (key : Bytes) (c : Counted) (hsize : c.size < 2 ^ 63) :
    ((c.run key).run n).1.toInt = c.change (c.content n key) (c.content ((c.run key).run n).2 key) ↔
      (c.removals.filter fun m => (c.content n key m).isSome).Nodup := by
  cases c with
  | hset fields =>
    have hpairs : ∀ fields : List Bytes, (pairs fields).length ≤ fields.length := by
      intro fields
      induction fields using pairs.induct with
      | case1 a b rest ih =>
        rw [pairs, List.length_cons, List.length_cons, List.length_cons]
        omega
      | case2 l hl =>
        rw [pairs]
        · exact Nat.zero_le _
        · exact hl
    refine iff_of_true (count_added (hsetMulti_wrote n key fields) (nodup_assocAll _) ?_ fun m => ?_) List.nodup_nil
    · rw [List.length_map]
      exact ((length_assocAll_le _).trans (hpairs fields)).trans_lt hsize
    · show (assigned (pairs fields) _ m).isSome ↔ _
      rw [assigned_eq, Option.isSome_or, Bool.or_eq_true, or_comm, lookup_isSome]
  | sadd members =>
    refine iff_of_true (count_added (sadd_wrote n key members) (nodup_eraseDups members) ?_ fun m => ?_) List.nodup_nil
    · exact (length_eraseDups_le members).trans_lt hsize
    · show (if m ∈ members then _ else _ : Option Bytes).isSome ↔ _
      rw [List.mem_eraseDups]
      split <;> simp [*]
  | zadd members =>
    refine iff_of_true (count_added (zaddMulti_wrote n key members) (nodup_assocAll _) ?_ fun m => ?_) List.nodup_nil
    · rw [List.length_map]
      exact (length_assocAll_le _).trans_lt hsize
    · show (((assigned members (fun _ => none) m).map encodeScore).or _).isSome ↔ _
      rw [Option.isSome_or, Option.isSome_map, assigned_eq, Option.or_none, Bool.or_eq_true, or_comm, lookup_isSome]
  | srem members => exact count_removed (srem_wrote n key members) hsize fun _ => rfl
  | zrem members => exact count_removed (zrem_wrote n key members) hsize fun _ => rfl

/-- **Counts are honest exactly when** nothing is removed twice and no kept score is no number. -/
theorem counts_honest_iff (n : Node) (key : Bytes) (c : Counted) (hsize : c.size < 2 ^ 63) :
    c.Honest n key ↔ c.Fair n key := by
  refine and_congr (c.count_iff n key hsize) ⟨fun h p hp => ?_, fun h => ⟨c.content_run n key, fun p hp => ?_⟩⟩
  · obtain ⟨x, -, -, hreal, -⟩ := h.2 p hp
    exact hreal
  · cases c with
    | zadd members =>
      have hread : ((run key (zadd members)).run n).2.read (zvalKey key p.1) = some (encodeScore p.2) := by
        refine (content_run n key (zadd members) p.1).trans ?_
        show ((assigned members (fun _ => none) p.1).map encodeScore).or _ = _
        rw [assigned_eq, Option.or_none, lookup_of_mem (nodup_assocAll members) hp]
        rfl
      have hreal := h p hp
      exact ⟨_, zscore_of_read hread, isNaN_decodeScore hreal, hreal, value_decodeScore hreal⟩
    | _ => cases hp

def oneMember : Node := ((run [107] (sadd [[109]])).run (Node.fresh 0)).2

theorem added_twice : Honest (Node.fresh 0) [107] (sadd [[109], [109]]) :=
  (counts_honest_iff (Node.fresh 0) [107] (sadd [[109], [109]]) (by decide)).mpr (by decide)

/-- A member is removed twice in one call and counted twice. -/
theorem removed_twice :
    ((run [107] (srem [[109], [109]])).run oneMember).1 = 2 ∧ oneMember.smembers [107] = [[109]] ∧
      ¬ Honest oneMember [107] (srem [[109], [109]]) := by
  refine ⟨by decide, by decide, fun h => ?_⟩
  have hnodup := (count_iff oneMember [107] (srem [[109], [109]]) (by decide)).mp h.1
  revert hnodup
  decide

end Counted

end Server
end AkwaDB
