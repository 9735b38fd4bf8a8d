import AkwaDB.Lib.Bytes
import AkwaDB.Lib.Links
import Mathlib.Data.List.AList

/-!
# AkwaDB.Cache.Lru

The block cache: shards, each a table of the nodes of a doubly linked list between two sentinels, the node used last in
front.

A node is a number into the memory of a shard. `Holds` ties the list, the table and the memory together, and every call
keeps it (`Holds.promote`, `Holds.evictOldest`, `Holds.insert`).

`lru_refines`: a shard returns what a list of keys and values returns that is kept in the order of use, and the
capacities of the shards make up that of the cache.
-/

namespace AkwaDB
namespace Cache

def head : Nat := 0

def tail : Nat := 1

section
variable {κ ν : Type} [DecidableEq κ]

variable (κ ν) in
structure Shard where
  cap : Int
  tbl : AList fun _ : κ => Nat
  links : Links Nat
  key : Nat → κ
  val : Nat → ν
  fresh : Nat

namespace Shard

def new [Inhabited κ] [Inhabited ν] (cap : Int) : Shard κ ν where
  cap := cap
  tbl := ∅
  links := ⟨fun _ => tail, fun _ => head⟩
  key _ := default
  val _ := default
  fresh := 2

def promote (s : Shard κ ν) (n : Nat) : Shard κ ν := { s with links := (s.links.unlink n).pushFront head n }

def evictOldest (s : Shard κ ν) : Shard κ ν :=
  let victim := s.links.prev tail
  if victim = head then s
  else { s with links := s.links.unlink victim, tbl := s.tbl.erase (s.key victim) }

def get (s : Shard κ ν) (key : κ) : Option ν × Shard κ ν :=
  match s.tbl.lookup key with
  | none => (none, s)
  | some n => (some (s.val n), s.promote n)

def insert (s : Shard κ ν) (key : κ) (value : ν) : Shard κ ν :=
  { s with
    tbl := s.tbl.insert key s.fresh
    links := s.links.pushFront head s.fresh
    key := Function.update s.key s.fresh key
    val := Function.update s.val s.fresh value
    fresh := s.fresh + 1 }

def put (s : Shard κ ν) (key : κ) (value : ν) : Shard κ ν :=
  match s.tbl.lookup key with
  | some n => promote { s with val := Function.update s.val n value } n
  | none => insert (if s.cap ≤ s.tbl.keys.length then s.evictOldest else s) key value

end Shard

variable (κ ν) in
inductive Op
  | get (key : κ)
  | put (key : κ) (value : ν)

def Shard.step (s : Shard κ ν) : Op κ ν → Option ν × Shard κ ν
  | .get key => s.get key
  | .put key value => (none, s.put key value)

def Shard.run (s : Shard κ ν) : List (Op κ ν) → List (Option ν) × Shard κ ν
  | [] => ([], s)
  | op :: ops => ((s.step op).1 :: ((s.step op).2.run ops).1, ((s.step op).2.run ops).2)

variable (κ ν) in
def newLRUCache [Inhabited κ] [Inhabited ν] (capacity : Int) : List (Shard κ ν) :=
  let capacity := if capacity ≤ 0 then 128 else capacity
  let nShards := if capacity < 16 then capacity else 16
  let nShards := if nShards < 1 then 1 else nShards
  let perShard := capacity / nShards
  let perShard := if perShard < 1 then 1 else perShard
  let remainder := capacity % nShards
  (List.range nShards.toNat).map fun i : Nat => .new (if (i : Int) < remainder then perShard + 1 else perShard)

variable (κ ν) in
/-- Keys and values, the key used last in front. -/
abbrev Reference := List (κ × ν)

namespace Reference

def without (l : Reference κ ν) (key : κ) : Reference κ ν := l.filter fun e => e.1 ≠ key

def step (cap : Int) (l : Reference κ ν) : Op κ ν → Option ν × Reference κ ν
  | .get key =>
    match l.lookup key with
    | none => (none, l)
    | some value => (some value, (key, value) :: l.without key)
  | .put key value =>
    match l.lookup key with
    | some _ => (none, (key, value) :: l.without key)
    | none => (none, (key, value) :: if cap ≤ l.length then l.dropLast else l)

def run (cap : Int) (l : Reference κ ν) : List (Op κ ν) → List (Option ν) × Reference κ ν
  | [] => ([], l)
  | op :: ops => ((step cap l op).1 :: (run cap (step cap l op).2 ops).1, (run cap (step cap l op).2 ops).2)

end Reference

/-! ## What a shard holds -/

/-- The nodes of the list from front to back, and that the table has the same. -/
structure Holds (s : Shard κ ν) (ps : List Nat) : Prop where
  linked : s.links.Between (head :: (ps ++ [tail]))
  nodup : (head :: (ps ++ [tail])).Nodup
  used : ∀ p ∈ head :: (ps ++ [tail]), p < s.fresh
  keys : s.tbl.keys.Perm (ps.map s.key)
  entry : ∀ p ∈ ps, s.tbl.lookup (s.key p) = some p

def Shard.content (s : Shard κ ν) (ps : List Nat) : Reference κ ν := ps.map fun p => (s.key p, s.val p)

theorem Holds.new [Inhabited κ] [Inhabited ν] (cap : Int) : Holds (.new cap : Shard κ ν) [] where
  linked := by simp [Links.Between, Shard.new]
  nodup := by decide
  used := by simp [Shard.new, head, tail]
  keys := List.Perm.nil
  entry p hp := nomatch hp

variable {s : Shard κ ν} {ps a b : List Nat} {n : Nat} {k : κ}

theorem Holds.keys_nodup (h : Holds s ps) : (ps.map s.key).Nodup := h.keys.nodup_iff.mp s.tbl.keys_nodup

theorem Holds.of_lookup (h : Holds s ps) (hn : s.tbl.lookup k = some n) : n ∈ ps ∧ s.key n = k := by
  have hk : k ∈ s.tbl := AList.lookup_isSome.mp (by rw [hn]; rfl)
  obtain ⟨p, hp, rfl⟩ := List.mem_map.mp (h.keys.mem_iff.mp (AList.mem_keys.mp hk))
  rw [h.entry p hp] at hn
  cases hn
  exact ⟨hp, rfl⟩

theorem Holds.of_lookup_none (h : Holds s ps) (hn : s.tbl.lookup k = none) : ∀ p ∈ ps, s.key p ≠ k := by
  rintro p hp rfl
  rw [h.entry p hp] at hn
  cases hn

theorem Holds.promote (h : Holds s (a ++ n :: b)) : Holds (s.promote n) (n :: (a ++ b)) := by
  have hsplit : head :: ((a ++ n :: b) ++ [tail]) = (head :: a) ++ n :: (b ++ [tail]) := by simp
  have hperm : (head :: ((n :: (a ++ b)) ++ [tail])).Perm (head :: ((a ++ n :: b) ++ [tail])) :=
    (List.perm_middle.symm.append_right [tail]).cons head
  have hlinked := h.linked
  have hnodup := h.nodup
  rw [hsplit] at hlinked hnodup
  have hout := hlinked.unlink hnodup (by simp) (by simp)
  refine ⟨?_, hperm.nodup_iff.mpr h.nodup, fun p hp => h.used p (hperm.mem_iff.mp hp),
    h.keys.trans (List.perm_middle.map s.key), fun p hp => h.entry p (List.perm_middle.mem_iff.mpr hp)⟩
  have hin := Links.Between.pushFront (n := n) hout (List.perm_middle.nodup_iff.mp hnodup) (by simp)
  simpa [Shard.promote] using hin

theorem Shard.evictOldest_key (s : Shard κ ν) : s.evictOldest.key = s.key := by
  unfold Shard.evictOldest
  dsimp only
  split <;> rfl

theorem Holds.evictOldest (h : Holds s (ps ++ [n])) : Holds s.evictOldest ps ∧ s.evictOldest.cap = s.cap ∧
    s.evictOldest.content ps = s.content ps := by
  have hsplit : head :: ((ps ++ [n]) ++ [tail]) = (head :: ps) ++ [n, tail] := by simp
  have hsub : (head :: (ps ++ [tail])).Sublist (head :: ((ps ++ [n]) ++ [tail])) := by simp
  have hlinked := h.linked
  have hnodup := h.nodup
  rw [hsplit] at hlinked hnodup
  have hvictim : s.links.prev tail = n := hlinked.prev_last
  have hne : n ≠ head := by
    rintro rfl
    simp at hnodup
  have hkeys := h.keys
  rw [List.map_append, List.map_singleton] at hkeys
  have hfresh : s.key n ∉ ps.map s.key := by
    have hk := h.keys_nodup
    rw [List.map_append, List.map_singleton] at hk
    exact fun hmem => (List.nodup_append.mp hk).2.2 _ hmem _ (List.mem_singleton.mpr rfl) rfl
  have hevict : s.evictOldest = { s with links := s.links.unlink n, tbl := s.tbl.erase (s.key n) } := by
    simp only [Shard.evictOldest, hvictim, if_neg hne]
  rw [hevict]
  refine ⟨⟨?_, h.nodup.sublist hsub, fun p hp => h.used p (hsub.mem hp), ?_, fun p hp => ?_⟩, rfl, rfl⟩
  · exact hlinked.unlink hnodup (by simp) (by simp)
  · rw [AList.keys_erase]
    refine (hkeys.erase (s.key n)).trans (List.Perm.of_eq ((List.erase_append_right _ hfresh).trans ?_))
    rw [List.erase_cons_head, List.append_nil]
  · have hpn : s.key p ≠ s.key n := fun heq => hfresh (heq ▸ List.mem_map_of_mem hp)
    exact (AList.lookup_erase_ne hpn).trans (h.entry p (List.mem_append_left _ hp))

theorem Holds.insert (h : Holds s ps) (hk : s.tbl.lookup k = none) (value : ν) :
    Holds (s.insert k value) (s.fresh :: ps) ∧
      (s.insert k value).content (s.fresh :: ps) = (k, value) :: s.content ps := by
  have hnew : ∀ p ∈ ps, p ≠ s.fresh := fun p hp => Nat.ne_of_lt (h.used p (by simp [hp]))
  have hkey : ∀ p ∈ ps, (s.insert k value).key p = s.key p := fun p hp => Function.update_of_ne (hnew p hp) _ _
  have hval : ∀ p ∈ ps, (s.insert k value).val p = s.val p := fun p hp => Function.update_of_ne (hnew p hp) _ _
  have hself : (s.insert k value).key s.fresh = k := Function.update_self ..
  have hnodup : (s.fresh :: head :: (ps ++ [tail])).Nodup :=
    List.nodup_cons.mpr ⟨fun hmem => Nat.lt_irrefl _ (h.used _ hmem), h.nodup⟩
  have hswap : (head :: ((s.fresh :: ps) ++ [tail])).Perm (s.fresh :: head :: (ps ++ [tail])) := List.Perm.swap ..
  have hnotin : k ∉ s.tbl := fun hmem => by
    have := AList.lookup_isSome.mpr hmem
    rw [hk] at this
    cases this
  refine ⟨⟨h.linked.pushFront hnodup (by simp), hswap.nodup_iff.mpr hnodup, fun p hp => ?_, ?_, fun p hp => ?_⟩, ?_⟩
  · rcases List.mem_cons.mp (hswap.mem_iff.mp hp) with rfl | hp
    · exact Nat.lt_succ_self _
    · exact Nat.lt_succ_of_lt (h.used p hp)
  · have hkeys : (s.insert k value).tbl.keys = k :: s.tbl.keys := by
      refine (AList.keys_insert s.tbl).trans (congrArg (List.cons k) ?_)
      exact List.erase_of_not_mem fun hmem => hnotin (AList.mem_keys.mpr hmem)
    rw [hkeys, List.map_cons, hself, List.map_congr_left hkey]
    exact h.keys.cons k
  · rcases List.mem_cons.mp hp with rfl | hp
    · rw [hself]
      exact AList.lookup_insert _
    · rw [hkey p hp]
      have hne : s.key p ≠ k := h.of_lookup_none hk p hp
      exact (AList.lookup_insert_ne hne).trans (h.entry p hp)
  · rw [Shard.content, List.map_cons, hself]
    have hv : (s.insert k value).val s.fresh = value := Function.update_self ..
    rw [hv]
    refine congrArg _ (List.map_congr_left fun p hp => ?_)
    rw [hkey p hp, hval p hp]

theorem lookup_content (h : Holds s ps) (hn : n ∈ ps) : (s.content ps).lookup (s.key n) = some (s.val n) := by
  have hnodup := h.keys_nodup
  clear h
  induction ps with
  | nil => cases hn
  | cons p ps ih =>
    obtain ⟨hp, hrest⟩ := List.nodup_cons.mp hnodup
    rw [Shard.content, List.map_cons, List.lookup_cons]
    rcases List.mem_cons.mp hn with rfl | hn
    · rw [beq_self_eq_true]
    · have hne : s.key n ≠ s.key p := fun heq => hp (heq ▸ List.mem_map_of_mem hn)
      rw [beq_false_of_ne hne]
      exact ih hn hrest

theorem lookup_content_none (h : ∀ p ∈ ps, s.key p ≠ k) : (s.content ps).lookup k = none := by
  rw [List.lookup_eq_none_iff]
  intro e he
  obtain ⟨p, hp, rfl⟩ := List.mem_map.mp he
  simpa using Ne.symm (h p hp)

theorem without_content (h : Holds s (a ++ n :: b)) :
    (s.content (a ++ n :: b)).without (s.key n) = s.content (a ++ b) := by
  have hnodup := h.keys_nodup
  rw [List.map_append, List.map_cons] at hnodup
  obtain ⟨-, hb, hab⟩ := List.nodup_append.mp hnodup
  have hkeep : ∀ c : List Nat, (∀ p ∈ c, s.key p ≠ s.key n) → (s.content c).without (s.key n) = s.content c := by
    intro c hc
    refine List.filter_eq_self.mpr fun e he => ?_
    obtain ⟨p, hp, rfl⟩ := List.mem_map.mp he
    simpa using hc p hp
  have hleft := hkeep a fun p hp => hab _ (List.mem_map_of_mem hp) _ List.mem_cons_self
  have hright := hkeep b fun p hp heq => (List.nodup_cons.mp hb).1 (heq ▸ List.mem_map_of_mem hp)
  unfold Reference.without Shard.content at *
  rw [List.map_append, List.map_cons, List.filter_append, List.filter_cons_of_neg (by simp), hleft, hright,
    List.map_append]

section
variable (h : Holds s ps)
include h

theorem Holds.hit (hn : s.tbl.lookup k = some n) : ∃ ps', Holds (s.promote n) (n :: ps') ∧
    (s.content ps).lookup k = some (s.val n) ∧ (s.content ps).without k = s.content ps' ∧ n ∉ ps' ∧ s.key n = k := by
  obtain ⟨hmem, rfl⟩ := h.of_lookup hn
  obtain ⟨a, b, rfl⟩ := List.append_of_mem hmem
  have hpromote := h.promote
  have hnodup := hpromote.nodup
  refine ⟨a ++ b, hpromote, lookup_content h hmem, without_content h, ?_, rfl⟩
  simp only [List.cons_append, List.nodup_cons, List.mem_append, not_or] at hnodup
  simpa using hnodup.2.1.1

theorem Holds.get (k : κ) : ∃ ps', Holds (s.get k).2 ps' ∧ (s.get k).2.cap = s.cap ∧
    ((s.get k).1, (s.get k).2.content ps') = Reference.step s.cap (s.content ps) (.get k) := by
  unfold Shard.get Reference.step
  dsimp only
  cases hn : s.tbl.lookup k with
  | none =>
    rw [lookup_content_none (h.of_lookup_none hn)]
    exact ⟨ps, h, rfl, rfl⟩
  | some n =>
    obtain ⟨ps', hholds, hlook, hwithout, -, hkey⟩ := h.hit hn
    rw [hlook]
    refine ⟨n :: ps', hholds, rfl, ?_⟩
    show (some (s.val n), (s.key n, s.val n) :: s.content ps') = _
    rw [hkey, hwithout]

theorem Holds.makeRoom (hcap : 1 ≤ s.cap) (hk : s.tbl.lookup k = none) :
    ∃ qs, Holds (if s.cap ≤ s.tbl.keys.length then s.evictOldest else s) qs ∧
      (if s.cap ≤ s.tbl.keys.length then s.evictOldest else s).cap = s.cap ∧
      (if s.cap ≤ s.tbl.keys.length then s.evictOldest else s).content qs =
        (if s.cap ≤ (s.content ps).length then (s.content ps).dropLast else s.content ps) ∧
      (if s.cap ≤ s.tbl.keys.length then s.evictOldest else s).tbl.lookup k = none := by
  have hlen : s.tbl.keys.length = (s.content ps).length := by
    rw [h.keys.length_eq, List.length_map, Shard.content, List.length_map]
  rw [hlen]
  split
  · rename_i hfull
    have hne : ps ≠ [] := by
      rintro rfl
      have hzero : s.cap ≤ 0 := hfull
      omega
    obtain ⟨qs, n, rfl⟩ := List.eq_nil_or_concat ps |>.resolve_left hne
    rw [List.concat_eq_append] at h ⊢
    obtain ⟨hholds, hsame, hcontent⟩ := h.evictOldest
    refine ⟨qs, hholds, hsame, ?_, ?_⟩
    · rw [hcontent, Shard.content, Shard.content, List.map_append, List.map_singleton, List.dropLast_concat]
    · cases hlook : s.evictOldest.tbl.lookup k with
      | none => rfl
      | some p =>
        obtain ⟨hp, hkey⟩ := hholds.of_lookup hlook
        rw [Shard.evictOldest_key] at hkey
        exact absurd hkey (h.of_lookup_none hk p (List.mem_append_left _ hp))
  · exact ⟨ps, h, rfl, rfl, hk⟩

theorem Holds.put (hcap : 1 ≤ s.cap) (k : κ) (value : ν) : ∃ ps', Holds (s.put k value) ps' ∧
    (s.put k value).cap = s.cap ∧
      (none, (s.put k value).content ps') = Reference.step s.cap (s.content ps) (.put k value) := by
  unfold Shard.put Reference.step
  dsimp only
  cases hn : s.tbl.lookup k with
  | some n =>
    obtain ⟨ps', hholds, hlook, hwithout, hnot, hkey⟩ := h.hit hn
    rw [hlook]
    refine ⟨n :: ps', ⟨hholds.linked, hholds.nodup, hholds.used, hholds.keys, hholds.entry⟩, rfl, ?_⟩
    have hrest : (ps'.map fun p => (s.key p, Function.update s.val n value p)) = s.content ps' :=
      List.map_congr_left fun p hp => by
        have hne : p ≠ n := fun heq => hnot (heq ▸ hp)
        rw [Function.update_of_ne hne]
    show (none, (s.key n, Function.update s.val n value n) ::
        ps'.map fun p => (s.key p, Function.update s.val n value p)) =
      (none, (k, value) :: (s.content ps).without k)
    rw [hkey, hwithout, Function.update_self, hrest]
  | none =>
    rw [lookup_content_none (h.of_lookup_none hn)]
    obtain ⟨qs, hholds, hroom, hcontent, hlook⟩ := h.makeRoom hcap hn
    obtain ⟨hinsert, hall⟩ := hholds.insert hlook value
    exact ⟨_, hinsert, hroom, by rw [hall, hcontent]⟩

theorem Holds.step (hcap : 1 ≤ s.cap) (op : Op κ ν) : ∃ ps', Holds (s.step op).2 ps' ∧
    (s.step op).2.cap = s.cap ∧
      ((s.step op).1, (s.step op).2.content ps') = Reference.step s.cap (s.content ps) op := by
  cases op with
  | get k => exact h.get k
  | put k value => exact h.put hcap k value

theorem Holds.run (hcap : 1 ≤ s.cap) (ops : List (Op κ ν)) : ∃ ps', Holds (s.run ops).2 ps' ∧
    (s.run ops).2.cap = s.cap ∧
      ((s.run ops).1, (s.run ops).2.content ps') = Reference.run s.cap (s.content ps) ops := by
  induction ops generalizing s ps with
  | nil => exact ⟨ps, h, rfl, rfl⟩
  | cons op ops ih =>
    obtain ⟨qs, hholds, hsame, hstep⟩ := h.step hcap op
    obtain ⟨ps', hlast, hlastCap, hrun⟩ := ih hholds (by rw [hsame]; exact hcap)
    refine ⟨ps', hlast, hlastCap.trans hsame, ?_⟩
    rw [hsame] at hrun
    rw [Reference.run, ← hstep, ← hrun]
    rfl

end

theorem Reference.length_without_lt {l : Reference κ ν} {value : ν} (h : l.lookup k = some value) :
    (l.without k).length < l.length := by
  obtain ⟨e, he, hkey⟩ : ∃ e ∈ l, e.1 = k := by
    by_contra hno
    have hnone : l.lookup k = none := List.lookup_eq_none_iff.mpr fun e he => by
      simpa using fun heq : k = e.1 => hno ⟨e, he, heq.symm⟩
    rw [hnone] at h
    cases h
  exact List.length_filter_lt_length_iff_exists.mpr ⟨e, he, by simpa using hkey⟩

theorem Reference.length_step {cap : Int} (hcap : 1 ≤ cap) {l : Reference κ ν} (h : (l.length : Int) ≤ cap)
    (op : Op κ ν) :
    ((Reference.step cap l op).2.length : Int) ≤ cap := by
  cases op with
  | get k =>
    rw [Reference.step]
    split
    · exact h
    · rename_i hsome
      have := Reference.length_without_lt hsome
      rw [List.length_cons]
      omega
  | put k value =>
    rw [Reference.step]
    split
    · rename_i hsome
      have := Reference.length_without_lt hsome
      rw [List.length_cons]
      omega
    · rw [List.length_cons]
      split
      · rw [List.length_dropLast]
        omega
      · omega

theorem Reference.length_run {cap : Int} (hcap : 1 ≤ cap) {l : Reference κ ν} (h : (l.length : Int) ≤ cap)
    (ops : List (Op κ ν)) : ((Reference.run cap l ops).2.length : Int) ≤ cap := by
  induction ops generalizing l with
  | nil => exact h
  | cons op ops ih => exact ih (Reference.length_step hcap h op)

theorem sum_shares (n : Nat) (q r : Int) (hr : 0 ≤ r) :
    ((List.range n).map fun i : Nat => if (i : Int) < r then q + 1 else q).sum = n * q + min (n : Int) r := by
  induction n with
  | zero => simp [hr]
  | succ n ih =>
    rw [List.range_succ, List.map_append, List.sum_append, ih, List.map_singleton, List.sum_singleton]
    push_cast
    rw [add_mul, one_mul]
    split <;> omega

def effective (capacity : Int) : Int := if capacity ≤ 0 then 128 else capacity

omit [DecidableEq κ] in
theorem newLRUCache_caps [Inhabited κ] [Inhabited ν] (capacity : Int) :
    ((newLRUCache κ ν capacity).map Shard.cap).sum = effective capacity ∧
      ∀ s ∈ newLRUCache κ ν capacity, ∃ cap, 1 ≤ cap ∧ s = .new cap := by
  have hpos : 1 ≤ effective capacity := by
    unfold effective
    split <;> omega
  obtain ⟨n, hn, hnpos, hle⟩ : ∃ n : Int, n = (if effective capacity < 16 then effective capacity else 16) ∧ 1 ≤ n ∧
      n ≤ effective capacity := by
    refine ⟨_, rfl, ?_⟩
    split <;> omega
  have hshare : 1 ≤ effective capacity / n := by
    rw [Int.le_ediv_iff_mul_le (by omega)]
    omega
  have hcache : newLRUCache κ ν capacity = (List.range n.toNat).map fun i : Nat =>
      .new (if (i : Int) < effective capacity % n then effective capacity / n + 1 else effective capacity / n) := by
    unfold newLRUCache
    dsimp only
    rw [← effective, ← hn, if_neg (show ¬n < 1 by omega), if_neg (show ¬effective capacity / n < 1 by omega)]
  rw [hcache]
  constructor
  · have hmod := Int.emod_nonneg (effective capacity) (show n ≠ 0 by omega)
    have hlt := Int.emod_lt_of_pos (effective capacity) (show 0 < n by omega)
    rw [List.map_map]
    show ((List.range n.toNat).map fun i : Nat => if (i : Int) < effective capacity % n then effective capacity / n + 1
      else effective capacity / n).sum = _
    rw [sum_shares _ _ _ hmod, Int.toNat_of_nonneg (by omega), min_eq_right hlt.le]
    exact Int.mul_ediv_add_emod (effective capacity) n
  · intro s hs
    obtain ⟨i, -, rfl⟩ := List.mem_map.mp hs
    exact ⟨_, by split <;> omega, rfl⟩

end

/-- **A shard is a map that forgets what was used least recently**, whatever its capacity and the calls. -/
theorem lru_refines (capacity : Int) :
    ((newLRUCache Bytes Bytes capacity).map Shard.cap).sum = (if capacity ≤ 0 then 128 else capacity) ∧
      ∀ s ∈ newLRUCache Bytes Bytes capacity, ∀ ops : List (Op Bytes Bytes),
        (s.run ops).1 = (Reference.run s.cap [] ops).1 ∧
        ∃ ps, Holds (s.run ops).2 ps ∧ (ps.length : Int) ≤ s.cap ∧
          (s.run ops).2.content ps = (Reference.run s.cap [] ops).2 := by
  obtain ⟨hsum, hnew⟩ := @newLRUCache_caps Bytes Bytes _ _ capacity
  refine ⟨hsum, fun s hs ops => ?_⟩
  obtain ⟨cap, hcap, rfl⟩ := hnew s hs
  obtain ⟨ps, hholds, -, hrun⟩ := (Holds.new cap).run hcap ops
  obtain ⟨hresults, hcontent⟩ := Prod.mk.inj hrun
  refine ⟨hresults, ps, hholds, ?_, hcontent⟩
  have hlen := congrArg List.length hcontent
  rw [Shard.content, List.length_map] at hlen
  rw [hlen]
  exact Reference.length_run hcap (by simp [Shard.content]; omega) ops

theorem newLRUCache_zero : ((newLRUCache Bytes Bytes 0).map Shard.cap).sum = 128 := by decide

end Cache
end AkwaDB
