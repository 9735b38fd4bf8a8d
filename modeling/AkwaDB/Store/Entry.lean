import AkwaDB.Lib.Bytes
import AkwaDB.Lib.Newest
import Mathlib.Data.List.Sort
import Mathlib.Data.List.TakeWhile

/-!
# AkwaDB.Store.Entry

Versioned entries and the memtable.

A memtable is modelled by the bottom chain of its skip list: the nodes in key order, a new node in
front of the older ones of its key. Towers only shorten the walk to a key and are left out.

- `SkipList.find_eq_newest`: the walk over the nodes of a key finds the newest version that the
  reader may see among all nodes.
- `SkipList.allVersions_sorted`: the list a flush writes, by key and then newest version first.
-/

namespace AkwaDB

structure Entry where
  key : Bytes
  value : Bytes
  deleted : Bool
  expiresAt : Int
  version : Nat
  deriving DecidableEq, Repr

namespace Entry

def expired (now : Int) (x : Entry) : Bool := decide (0 < x.expiresAt) && decide (x.expiresAt ≤ now)

/-- A tombstone, or a value whose time has passed: reads take both for absent. -/
def dead (now : Int) (x : Entry) : Bool := x.deleted || x.expired now

variable {x a b : Entry}

theorem expired_mono {now now' : Int} (h : now ≤ now') (hx : x.expired now = true) :
    x.expired now' = true := by
  simp only [expired, Bool.and_eq_true, decide_eq_true_eq] at hx ⊢
  exact ⟨hx.1, by omega⟩

theorem dead_mono {now now' : Int} (h : now ≤ now') (hx : x.dead now = true) :
    x.dead now' = true := by
  simp only [dead, Bool.or_eq_true] at hx ⊢
  exact hx.imp_right (expired_mono h)

/-- The order of every version list: key ascending, then version descending. -/
def before (a b : Entry) : Bool :=
  decide (a.key < b.key) || (decide (a.key = b.key) && decide (b.version < a.version))

theorem before_iff :
    a.before b = true ↔ a.key < b.key ∨ (a.key = b.key ∧ b.version < a.version) := by
  simp [before]

theorem before_eq_false :
    a.before b = false ↔ b.key ≤ a.key ∧ (a.key = b.key → a.version ≤ b.version) := by
  rw [← Bool.not_eq_true, before_iff]
  constructor
  · intro h
    have hk : ¬ a.key < b.key := fun hk => h (Or.inl hk)
    refine ⟨not_lt.mp hk, fun he => ?_⟩
    by_contra hv
    exact h (Or.inr ⟨he, by omega⟩)
  · rintro ⟨h1, h2⟩ (h | ⟨he, hv⟩)
    · exact absurd h (not_lt.mpr h1)
    · have := h2 he; omega

def le (a b : Entry) : Prop := b.before a = false

instance : DecidableRel le := fun a b => inferInstanceAs (Decidable (b.before a = false))

theorem le_iff :
    le a b ↔ a.key ≤ b.key ∧ (b.key = a.key → b.version ≤ a.version) := before_eq_false

instance : Std.Total le where
  total a b := by
    rw [le_iff, le_iff]
    rcases lt_trichotomy a.key b.key with h | h | h
    · exact Or.inl ⟨h.le, fun he => absurd he h.ne'⟩
    · rcases Nat.le_total b.version a.version with hv | hv
      · exact Or.inl ⟨h.le, fun _ => hv⟩
      · exact Or.inr ⟨h.ge, fun _ => hv⟩
    · exact Or.inr ⟨h.le, fun he => absurd he h.ne'⟩

theorem le_trans {c : Entry} (h1 : le a b) (h2 : le b c) : le a c := by
  rw [le_iff] at *
  refine ⟨h1.1.trans h2.1, fun he => ?_⟩
  have hab : b.key = a.key := Std.le_antisymm (he ▸ h2.1) h1.1
  have hbc : c.key = b.key := he.trans hab.symm
  exact Nat.le_trans (h2.2 hbc) (h1.2 hab)

instance : IsTrans Entry le := ⟨fun _ _ _ => le_trans⟩

theorem le_of_before (h : a.before b = true) : le a b := by
  rw [before_iff] at h
  rw [le_iff]
  rcases h with h | ⟨he, hv⟩
  · exact ⟨h.le, fun he => absurd he h.ne'⟩
  · exact ⟨he.le, fun _ => Nat.le_of_lt hv⟩

def hits (k : Bytes) (ok : Nat → Bool) (x : Entry) : Bool := decide (x.key = k) && ok x.version

@[simp] theorem hits_iff {k : Bytes} {ok : Nat → Bool} :
    x.hits k ok = true ↔ x.key = k ∧ ok x.version = true := by
  simp [hits]

theorem key_eq_of_hits {k : Bytes} {ok ok' : Nat → Bool} {y : Entry} (hx : x.hits k ok = true)
    (hy : y.hits k ok' = true) : x.key = y.key :=
  (hits_iff.mp hx).1.trans (hits_iff.mp hy).1.symm

/-- What a read makes of the entry it found: `none` is `ErrKeyNotFound`. -/
def answer (now : Int) (x : Entry) : Option Bytes := if x.dead now then none else some x.value

end Entry

/-- The bottom chain of a skip list and its version counter. -/
structure SkipList where
  nodes : List Entry
  versionCounter : Nat
  keysSorted : nodes.Pairwise fun a b => a.key ≤ b.key

/-- The splice of `PutVersion` and `DeleteVersion`: before the first node that is not smaller. -/
def spliceNode (x : Entry) (nodes : List Entry) : List Entry :=
  nodes.takeWhile (fun a => decide (a.key < x.key)) ++
    x :: nodes.dropWhile fun a => decide (a.key < x.key)

theorem spliceNode_perm (x : Entry) (nodes : List Entry) :
    (spliceNode x nodes).Perm (x :: nodes) := by
  have h := List.takeWhile_append_dropWhile (p := fun a => decide (a.key < x.key)) (l := nodes)
  refine List.perm_middle.trans ?_
  rw [h]

variable {nodes : List Entry} {x : Entry}

theorem le_of_mem_dropWhile {k : Bytes} (hs : nodes.Pairwise fun a b => a.key ≤ b.key)
    (hx : x ∈ nodes.dropWhile fun a => decide (a.key < k)) : k ≤ x.key := by
  induction nodes with
  | nil => cases hx
  | cons a nodes ih =>
    obtain ⟨ha, hn⟩ := List.pairwise_cons.mp hs
    by_cases hk : a.key < k
    · rw [List.dropWhile_cons_of_pos (by simpa using hk)] at hx
      exact ih hn hx
    · rw [List.dropWhile_cons_of_neg (by simpa using hk)] at hx
      rcases List.mem_cons.mp hx with rfl | hx
      · exact not_lt.mp hk
      · exact (not_lt.mp hk).trans (ha x hx)

theorem lt_of_mem_takeWhile {k : Bytes} (hx : x ∈ nodes.takeWhile fun a => decide (a.key < k)) :
    x.key < k := by
  simpa using List.mem_takeWhile_imp hx

theorem spliceNode_sorted (hs : nodes.Pairwise fun a b => a.key ≤ b.key) :
    (spliceNode x nodes).Pairwise fun a b => a.key ≤ b.key := by
  have hsplit := hs
  rw [← List.takeWhile_append_dropWhile (p := fun a => decide (a.key < x.key)) (l := nodes)] at hsplit
  obtain ⟨h1, h2, h3⟩ := List.pairwise_append.mp hsplit
  refine List.pairwise_append.mpr ⟨h1, List.pairwise_cons.mpr ⟨?_, h2⟩, ?_⟩
  · intro b hb
    exact le_of_mem_dropWhile hs hb
  · intro a ha b hb
    rcases List.mem_cons.mp hb with rfl | hb
    · exact (lt_of_mem_takeWhile ha).le
    · exact h3 a ha b hb

namespace SkipList

def newSkipList : SkipList := ⟨[], 0, List.Pairwise.nil⟩

def insertNode (s : SkipList) (x : Entry) : SkipList :=
  ⟨spliceNode x s.nodes, max s.versionCounter x.version, spliceNode_sorted s.keysSorted⟩

/-- Version 0 asks for the next one of the counter. -/
def pickVersion (s : SkipList) (version : Nat) : Nat :=
  if version = 0 then s.versionCounter + 1 else version

def putVersion (s : SkipList) (key val : Bytes) (expiresAt : Int) (version : Nat) : SkipList :=
  s.insertNode ⟨key, val, false, expiresAt, s.pickVersion version⟩

def deleteVersion (s : SkipList) (key : Bytes) (version : Nat) : SkipList :=
  s.insertNode ⟨key, [], true, 0, s.pickVersion version⟩

def seedVersion (s : SkipList) (v : Nat) : SkipList :=
  ⟨s.nodes, max s.versionCounter v, s.keysSorted⟩

def currentVersion (s : SkipList) : Nat := s.versionCounter

/-- The best of the nodes of the key whose version passes `ok`. -/
def find (s : SkipList) (k : Bytes) (ok : Nat → Bool) : Option Entry :=
  let candidates := s.nodes.dropWhile fun a => decide (a.key < k)
  newest Entry.version (Entry.hits k ok) (candidates.takeWhile fun a => decide (a.key = k))

def allVersions (s : SkipList) : List Entry := s.nodes.insertionSort Entry.le

theorem find_eq_newest (s : SkipList) (k : Bytes) (ok : Nat → Bool) :
    s.find k ok = newest Entry.version (Entry.hits k ok) s.nodes := by
  have hsplit := List.takeWhile_append_dropWhile (p := fun a => decide (a.key < k)) (l := s.nodes)
  generalize hc : s.nodes.dropWhile (fun a => decide (a.key < k)) = cands at hsplit
  have hrun := List.takeWhile_append_dropWhile (p := fun a => decide (a.key = k)) (l := cands)
  -- nodes before the run are smaller
  have hlow : ∀ x ∈ s.nodes.takeWhile (fun a => decide (a.key < k)), x.hits k ok = false := by
    intro x hx
    have := lt_of_mem_takeWhile hx
    simp [Entry.hits, this.ne]
  -- nodes after the run are greater: the first one differs from `k` and the chain ascends
  have hhigh : ∀ x ∈ cands.dropWhile (fun a => decide (a.key = k)), x.hits k ok = false := by
    intro x hx
    have hsub : cands.Pairwise fun a b => a.key ≤ b.key := by
      rw [← hc]
      exact s.keysSorted.sublist (List.dropWhile_sublist _)
    have hge : ∀ y ∈ cands, k ≤ y.key := by
      intro y hy
      rw [← hc] at hy
      exact le_of_mem_dropWhile s.keysSorted hy
    cases hd : cands.dropWhile (fun a => decide (a.key = k)) with
    | nil => rw [hd] at hx; cases hx
    | cons y ys =>
      have hyk : y.key ≠ k := by
        have := List.head_dropWhile_not (fun a : Entry => decide (a.key = k))
          (l := cands) (by rw [hd]; simp)
        simpa [hd] using this
      have hy : k < y.key :=
        lt_of_le_of_ne (hge y (List.dropWhile_sublist _ |>.subset (by rw [hd]; simp))) (Ne.symm hyk)
      have hpw : (y :: ys).Pairwise fun a b => a.key ≤ b.key := by
        rw [← hd]
        exact hsub.sublist (List.dropWhile_sublist _)
      rw [hd] at hx
      have hxk : k < x.key := by
        rcases List.mem_cons.mp hx with rfl | hx
        · exact hy
        · exact hy.trans_le ((List.pairwise_cons.mp hpw).1 x hx)
      simp [Entry.hits, hxk.ne']
  rw [find, hc, ← hsplit, newest_append_of_not hlow]
  nth_rewrite 2 [← hrun]
  rw [newest_append_not hhigh]

theorem allVersions_perm (s : SkipList) : s.allVersions.Perm s.nodes :=
  List.perm_insertionSort Entry.le s.nodes

variable {s : SkipList} {x : Entry}

theorem mem_allVersions : x ∈ s.allVersions ↔ x ∈ s.nodes :=
  s.allVersions_perm.mem_iff

theorem allVersions_eq_nil : s.allVersions = [] ↔ s.nodes = [] := by
  rw [← List.length_eq_zero_iff, s.allVersions_perm.length_eq, List.length_eq_zero_iff]

theorem allVersions_sorted (s : SkipList) : s.allVersions.Pairwise Entry.le :=
  List.pairwise_insertionSort Entry.le s.nodes

@[simp] theorem mem_insertNode {y : Entry} : y ∈ (s.insertNode x).nodes ↔ y = x ∨ y ∈ s.nodes := by
  rw [insertNode, (spliceNode_perm x s.nodes).mem_iff, List.mem_cons]

theorem find_insertNode_self {k : Bytes} {ok : Nat → Bool} (hx : x.hits k ok = true)
    (hnew : ∀ y ∈ s.nodes, y.version < x.version) : (s.insertNode x).find k ok = some x := by
  rw [find_eq_newest]
  obtain ⟨y, hy⟩ := newest_isSome Entry.version (mem_insertNode.mpr (.inl rfl)) hx
  obtain ⟨hmem, -, hmax⟩ := newest_spec hy
  rw [hy]
  rcases mem_insertNode.mp hmem with rfl | hold
  · rfl
  · have hge := hmax x (mem_insertNode.mpr (.inl rfl)) hx
    have hlt := hnew y hold
    omega

theorem find_insertNode_other {k : Bytes} {ok : Nat → Bool} (hx : x.hits k ok = false) :
    (s.insertNode x).find k ok = s.find k ok := by
  have hcons : newest Entry.version (Entry.hits k ok) (x :: s.nodes.dropWhile fun a => decide (a.key < x.key)) =
      newest Entry.version (Entry.hits k ok) (s.nodes.dropWhile fun a => decide (a.key < x.key)) :=
    newest_append_of_not (l := [x]) (by simpa using hx)
  rw [find_eq_newest, find_eq_newest]
  show newest Entry.version (Entry.hits k ok) (spliceNode x s.nodes) = _
  rw [spliceNode, newest_append, hcons, ← newest_append, List.takeWhile_append_dropWhile]

theorem mem_insertAll {es : List Entry} {y : Entry} :
    y ∈ (es.foldl insertNode s).nodes ↔ y ∈ es ∨ y ∈ s.nodes := by
  induction es generalizing s with
  | nil => simp
  | cons x es ih => rw [List.foldl_cons, ih, mem_insertNode, List.mem_cons, or_left_comm, or_assoc]

end SkipList
end AkwaDB
