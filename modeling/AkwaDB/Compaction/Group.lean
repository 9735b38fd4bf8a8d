import AkwaDB.Lib.Merge
import AkwaDB.Store.Block

/-!
# AkwaDB.Compaction.Group

The inner loop of `drainMergedIterator`: the merged entries fall into groups of one key, and of
each group the versions stay that some reader may still need.

- `groupByKey_apart`: a group is all that the inputs hold of its key.
- `keepVersions_find`: what is kept answers every reader at or above `minReadTs` as the whole
  group does, so that no version some of them see is lost (`keepVersions_visible`).
-/

namespace AkwaDB

abbrev VersionSorted (l : List Entry) : Prop := l.Pairwise Entry.le

theorem versionSorted_kmerge {iters : List (List Entry)} (h : ∀ l ∈ iters, VersionSorted l) :
    VersionSorted (kmerge Entry.before iters) := by
  refine kmerge_pairwise (fun _ _ _ => Entry.le_trans) (fun _ _ => Entry.le_of_before) ?_ h
  intro a b hab
  exact hab

def groupByKey : List Entry → List (List Entry)
  | [] => []
  | x :: xs =>
    match groupByKey xs with
    | (y :: g) :: gs => if x.key = y.key then (x :: y :: g) :: gs else [x] :: (y :: g) :: gs
    | gs => [x] :: gs

theorem groupByKey_cons (x : Entry) (xs : List Entry) :
    (∃ y g gs, groupByKey xs = (y :: g) :: gs ∧ x.key = y.key ∧
      groupByKey (x :: xs) = (x :: y :: g) :: gs) ∨
    (groupByKey (x :: xs) = [x] :: groupByKey xs ∧
      ∀ y g gs, groupByKey xs = (y :: g) :: gs → x.key ≠ y.key) := by
  simp only [groupByKey]
  split
  · rename_i y g gs hgs
    split
    · rename_i hxy
      exact Or.inl ⟨y, g, gs, hgs, hxy, rfl⟩
    · rename_i hxy
      refine Or.inr ⟨by rw [hgs], ?_⟩
      intro y' g' gs' h'
      rw [hgs] at h'
      cases h'
      exact hxy
  · rename_i hno
    exact Or.inr ⟨rfl, fun y g gs h => absurd h (hno y g gs)⟩

@[simp] theorem groupByKey_flatten (l : List Entry) : (groupByKey l).flatten = l := by
  induction l with
  | nil => rfl
  | cons x xs ih =>
    rcases groupByKey_cons x xs with ⟨y, g, gs, hgs, _, h⟩ | ⟨h, _⟩
    · rw [hgs] at ih
      rw [h, ← ih]
      rfl
    · rw [h, List.flatten_cons, ih]
      rfl

theorem groupByKey_ne_nil {l : List Entry} : ∀ g ∈ groupByKey l, g ≠ [] := by
  induction l with
  | nil => intro g hg; cases hg
  | cons x xs ih =>
    intro c hc
    rcases groupByKey_cons x xs with ⟨y, g, gs, hgs, _, h⟩ | ⟨h, _⟩
    · rw [h] at hc
      rw [hgs] at ih
      rcases List.mem_cons.mp hc with rfl | hc
      · simp
      · exact ih c (by simp [hc])
    · rw [h] at hc
      rcases List.mem_cons.mp hc with rfl | hc
      · simp
      · exact ih c hc

theorem groupByKey_key {l : List Entry} :
    ∀ g ∈ groupByKey l, ∀ x ∈ g, ∀ y ∈ g, x.key = y.key := by
  induction l with
  | nil => intro g hg; cases hg
  | cons x xs ih =>
    intro c hc
    rcases groupByKey_cons x xs with ⟨y, g, gs, hgs, hxy, h⟩ | ⟨h, _⟩
    · rw [h] at hc
      rw [hgs] at ih
      rcases List.mem_cons.mp hc with rfl | hc
      · -- the new head has the key of the old one
        have hall : ∀ z ∈ x :: y :: g, z.key = y.key := by
          intro z hz
          rcases List.mem_cons.mp hz with rfl | hz
          · exact hxy
          · exact ih _ (by simp) z hz y (by simp)
        intro a ha b hb
        rw [hall a ha, hall b hb]
      · exact ih c (by simp [hc])
    · rw [h] at hc
      rcases List.mem_cons.mp hc with rfl | hc
      · intro a ha b hb
        rw [List.mem_singleton.mp ha, List.mem_singleton.mp hb]
      · exact ih c hc

theorem groupByKey_apart_of_keys {l : List Entry} (hs : l.Pairwise fun x y => x.key ≤ y.key) :
    BlocksApart (groupByKey l) := by
  induction l with
  | nil => exact List.Pairwise.nil
  | cons x xs ih =>
    obtain ⟨hx, hxs⟩ := List.pairwise_cons.mp hs
    have hap := ih hxs
    rcases groupByKey_cons x xs with ⟨y, g, gs, hgs, hxy, h⟩ | ⟨h, hne⟩
    · rw [hgs] at hap
      obtain ⟨hhead, htail⟩ := List.pairwise_cons.mp hap
      rw [h]
      refine List.pairwise_cons.mpr ⟨?_, htail⟩
      intro c hc a ha b hb
      rcases List.mem_cons.mp ha with rfl | ha
      · rw [hxy]
        exact hhead c hc y (by simp) b hb
      · exact hhead c hc a ha b hb
    · rw [h]
      refine List.pairwise_cons.mpr ⟨?_, hap⟩
      intro c hc a ha b hb
      rw [List.mem_singleton.mp ha]
      have hbx : b ∈ xs := by
        rw [← groupByKey_flatten xs]
        exact List.mem_flatten.mpr ⟨c, hc, hb⟩
      refine lt_of_le_of_ne (hx b hbx) ?_
      -- the next group starts above `x`, and everything after it is above that
      cases hgs : groupByKey xs with
      | nil => rw [hgs] at hc; cases hc
      | cons d ds =>
        cases d with
        | nil => exact absurd rfl (groupByKey_ne_nil (l := xs) [] (by rw [hgs]; simp))
        | cons y g =>
          have hyx : y ∈ xs := by
            rw [← groupByKey_flatten xs, hgs]
            simp
          have hlt : x.key < y.key :=
            lt_of_le_of_ne (hx y hyx) (hne y g ds hgs)
          have hkey := groupByKey_key (l := xs)
          rw [hgs] at hc hap hkey
          rcases List.mem_cons.mp hc with rfl | hc
          · rw [hkey _ (by simp) b hb y (by simp)]
            exact hlt.ne
          · exact (hlt.trans ((List.pairwise_cons.mp hap).1 c hc y (by simp) b hb)).ne

theorem groupByKey_apart {l : List Entry} (hs : VersionSorted l) : BlocksApart (groupByKey l) :=
  groupByKey_apart_of_keys (hs.imp fun h => (Entry.le_iff.mp h).1)

/-! ## Which versions stay -/

/-- Every version above `minReadTs`, the first one below, and of equal ones the first. `prev` was kept last. -/
def keepVersions (minReadTs : Nat) : Option Nat → Bool → List Entry → List Entry
  | _, _, [] => []
  | prev, keptOlder, g :: gs =>
    if prev = some g.version then keepVersions minReadTs prev keptOlder gs
    else if minReadTs < g.version then
      g :: keepVersions minReadTs (some g.version) keptOlder gs
    else if keptOlder then keepVersions minReadTs prev keptOlder gs
    else g :: keepVersions minReadTs (some g.version) true gs

theorem keepVersions_sublist (m : Nat) (l : List Entry) :
    ∀ (prev : Option Nat) (older : Bool), (keepVersions m prev older l).Sublist l := by
  induction l with
  | nil => intro _ _; exact List.Sublist.refl _
  | cons g gs ih =>
    intro prev older
    simp only [keepVersions]
    split
    · exact (ih _ _).cons g
    · split
      · exact (ih _ _).cons_cons g
      · split
        · exact (ih _ _).cons g
        · exact (ih _ _).cons_cons g

theorem keepVersions_find {m r : Nat} (hr : m ≤ r) (l : List Entry) :
    ∀ (prev : Option Nat), (∀ v, prev = some v → r < v) →
      (keepVersions m prev false l).find? (fun x => decide (x.version ≤ r)) =
        l.find? fun x => decide (x.version ≤ r) := by
  induction l with
  | nil => intro _ _; rfl
  | cons g gs ih =>
    intro prev hprev
    simp only [keepVersions]
    split
    · rename_i heq
      have := hprev _ heq
      rw [List.find?_cons_of_neg (by simp; omega)]
      exact ih _ hprev
    · split
      · by_cases hg : g.version ≤ r
        · rw [List.find?_cons_of_pos (by simpa using hg), List.find?_cons_of_pos (by simpa using hg)]
        · rw [List.find?_cons_of_neg (by simpa using hg), List.find?_cons_of_neg (by simpa using hg)]
          refine ih _ fun v hv => ?_
          cases hv
          omega
      · have hg : g.version ≤ r := by omega
        simp [hg]

theorem keepVersions_visible {m : Nat} {l : List Entry}
    (hs : l.Pairwise fun a b => b.version ≤ a.version) {x : Entry} (hx : x ∈ l)
    (hv : ∀ y ∈ l, x.version < y.version → m < y.version) :
    ∃ z ∈ keepVersions m none false l, z.version = x.version := by
  let seen : Entry → Bool := fun y => decide (y.version ≤ max m x.version)
  have hseen : seen x = true := decide_eq_true (Nat.le_max_right m x.version)
  obtain ⟨z, hz⟩ := newest_isSome Entry.version hx hseen
  have hn := newest_spec hz
  rw [newest_eq_find (hs.imp fun h _ _ => h), ← keepVersions_find (Nat.le_max_left m x.version) l none
    (by simp)] at hz
  refine ⟨z, List.mem_of_find?_eq_some hz, ?_⟩
  have hle := hn.max x hx hseen
  by_contra hne
  have hlt := hv z hn.mem (by omega)
  have := of_decide_eq_true hn.pass
  omega

theorem keepVersions_kept {m : Nat} {l : List Entry} (hs : l.Pairwise fun a b => b.version ≤ a.version)
    {x : Entry} : ∀ {prev : Option Nat} {keptOlder : Bool},
      (∀ v, prev = some v → keptOlder = false → m < v) → x ∈ keepVersions m prev keptOlder l →
      m < x.version ∨ keptOlder = false ∧ ∀ g ∈ l, x.version < g.version → m < g.version := by
  induction l with
  | nil => exact fun _ hx => nomatch hx
  | cons g gs ih =>
    intro prev keptOlder hprev hx
    obtain ⟨hle, hgs⟩ := List.pairwise_cons.mp hs
    rw [keepVersions] at hx
    split at hx
    · rename_i hdup
      refine (ih hgs hprev hx).imp_right fun ⟨ho, hall⟩ => ⟨ho, fun y hy hlt => ?_⟩
      rcases List.mem_cons.mp hy with rfl | hy
      · exact hprev y.version hdup ho
      · exact hall y hy hlt
    · split at hx
      · rename_i hnew
        rcases List.mem_cons.mp hx with rfl | hx
        · exact Or.inl hnew
        · refine (ih hgs (fun v hv _ => ?_) hx).imp_right fun ⟨ho, hall⟩ => ⟨ho, fun y hy hlt => ?_⟩
          · rw [← Option.some.inj hv]
            exact hnew
          · rcases List.mem_cons.mp hy with rfl | hy
            · exact hnew
            · exact hall y hy hlt
      · split at hx
        · rename_i hold
          rw [hold] at hx
          rcases @ih hgs _ true (fun _ _ ho => by cases ho) hx with hnew | ⟨ho, _⟩
          · exact Or.inl hnew
          · cases ho
        · rename_i hfirst
          rcases List.mem_cons.mp hx with rfl | hx
          · refine Or.inr ⟨by simpa using hfirst, fun y hy hlt => ?_⟩
            rcases List.mem_cons.mp hy with rfl | hy
            · exact absurd hlt (Nat.lt_irrefl _)
            · exact absurd hlt (Nat.not_lt.mpr (hle y hy))
          · rcases @ih hgs _ true (fun _ _ ho => by cases ho) hx with hnew | ⟨ho, _⟩
            · exact Or.inl hnew
            · cases ho

theorem keepVersions_head (m : Nat) (g : Entry) (gs : List Entry) :
    ∃ rest, keepVersions m none false (g :: gs) = g :: rest := by
  simp only [keepVersions, reduceCtorEq, if_false]
  split <;> exact ⟨_, rfl⟩

end AkwaDB
