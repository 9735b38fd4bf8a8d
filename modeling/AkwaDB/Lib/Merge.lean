import Mathlib.Data.List.Basic

/-!
# AkwaDB.Lib.Merge

Merging any number of sorted lists by taking the least head again and again, the way a heap of
iterators does: an exhausted iterator leaves the heap, the others stand at their heads.

The merge of all lists is that of the first with the merge of the others (`kmerge_cons`), so what it
does is shown for two lists: it is a permutation of the input (`kmerge_perm`), sorted when every list
is (`kmerge_pairwise`), and merges the elements that pass a test as if there were no others
(`filter_kmerge`).
-/

namespace AkwaDB

variable {α : Type} (lt : α → α → Bool)

/-- Take the least head, the first one among equals, and advance that iterator. -/
def popLeast : List (List α) → Option (α × List (List α))
  | [] => none
  | [] :: iters => popLeast iters
  | (x :: xs) :: iters =>
    match popLeast iters with
    | none => some (x, xs :: iters)
    | some (y, iters') => if lt y x then some (y, (x :: xs) :: iters') else some (x, xs :: iters)

def kmergeFuel : Nat → List (List α) → List α
  | 0, _ => []
  | fuel + 1, iters =>
    match popLeast lt iters with
    | none => []
    | some (x, iters') => x :: kmergeFuel fuel iters'

/-- One step of fuel for each element is enough. -/
def kmerge (iters : List (List α)) : List α := kmergeFuel lt iters.flatten.length iters

def mergeAll (iters : List (List α)) : List α :=
  iters.foldr (fun l m => l.merge m fun a b => !lt b a) []

variable {lt}

@[simp] theorem mergeAll_cons (l : List α) (iters : List (List α)) :
    mergeAll lt (l :: iters) = l.merge (mergeAll lt iters) fun a b => !lt b a := rfl

theorem popLeast_none {iters : List (List α)} (h : popLeast lt iters = none) :
    mergeAll lt iters = [] := by
  induction iters with
  | nil => rfl
  | cons l iters ih =>
    cases l with
    | nil =>
      rw [mergeAll_cons, List.nil_merge]
      exact ih h
    | cons x xs =>
      simp only [popLeast] at h
      split at h
      · cases h
      · split at h <;> cases h

theorem popLeast_mergeAll {iters iters' : List (List α)} {x : α} (h : popLeast lt iters = some (x, iters')) :
    mergeAll lt iters = x :: mergeAll lt iters' := by
  induction iters generalizing iters' x with
  | nil => cases h
  | cons l iters ih =>
    cases l with
    | nil =>
      rw [mergeAll_cons, List.nil_merge]
      exact ih h
    | cons y ys =>
      rw [mergeAll_cons]
      rw [popLeast] at h
      cases hz : popLeast lt iters with
      | none =>
        rw [hz] at h
        cases h
        rw [mergeAll_cons, popLeast_none hz, List.merge_right, List.merge_right]
      | some p =>
        obtain ⟨z, iters''⟩ := p
        rw [hz] at h
        dsimp only at h
        rw [ih hz, List.cons_merge_cons]
        cases hzy : lt z y with
        | true =>
          rw [hzy, if_pos rfl] at h
          cases h
          rfl
        | false =>
          rw [hzy, if_neg Bool.false_ne_true] at h
          cases h
          rw [mergeAll_cons, ih hz]
          rfl

theorem kmergeFuel_eq {fuel : Nat} {iters : List (List α)} (hf : (mergeAll lt iters).length ≤ fuel) :
    kmergeFuel lt fuel iters = mergeAll lt iters := by
  induction fuel generalizing iters with
  | zero => exact (List.length_eq_zero_iff.mp (Nat.le_zero.mp hf)).symm
  | succ fuel ih =>
    rw [kmergeFuel]
    cases hx : popLeast lt iters with
    | none => exact (popLeast_none hx).symm
    | some p =>
      rw [popLeast_mergeAll hx] at hf ⊢
      exact congrArg (List.cons p.1) (ih (Nat.le_of_succ_le_succ hf))

theorem mergeAll_perm (iters : List (List α)) : (mergeAll lt iters).Perm iters.flatten := by
  induction iters with
  | nil => exact List.Perm.nil
  | cons l iters ih => exact (List.merge_perm_append _).trans (ih.append_left l)

theorem kmerge_eq_mergeAll (iters : List (List α)) : kmerge lt iters = mergeAll lt iters :=
  kmergeFuel_eq (Nat.le_of_eq (mergeAll_perm iters).length_eq)

theorem kmerge_perm (iters : List (List α)) : (kmerge lt iters).Perm iters.flatten := by
  rw [kmerge_eq_mergeAll]
  exact mergeAll_perm iters

theorem kmerge_cons (l : List α) (iters : List (List α)) :
    kmerge lt (l :: iters) = l.merge (kmerge lt iters) fun a b => !lt b a := by
  rw [kmerge_eq_mergeAll, kmerge_eq_mergeAll, mergeAll_cons]

variable {r : α → α → Prop} {l m : List α}

theorem merge_pairwise (htrans : ∀ a b c, r a b → r b c → r a c) (hlt : ∀ a b, lt a b = true → r a b)
    (hge : ∀ a b, lt a b = false → r b a) (hl : l.Pairwise r) (hm : m.Pairwise r) :
    (l.merge m fun a b => !lt b a).Pairwise r := by
  fun_induction List.merge l m (fun a b => !lt b a) with
  | case1 m => exact hm
  | case2 l => exact hl
  | case3 x xs y ys hle ih =>
    obtain ⟨hxs, hl'⟩ := List.pairwise_cons.mp hl
    have hxy : r x y := hge _ _ (by simpa using hle)
    refine List.pairwise_cons.mpr ⟨fun z hz => ?_, ih hl' hm⟩
    rcases List.mem_merge.mp hz with hz | hz
    · exact hxs z hz
    · rcases List.mem_cons.mp hz with rfl | hz
      · exact hxy
      · exact htrans _ _ _ hxy ((List.pairwise_cons.mp hm).1 z hz)
  | case4 x xs y ys hlt' ih =>
    obtain ⟨hys, hm'⟩ := List.pairwise_cons.mp hm
    have hyx : r y x := hlt _ _ (by simpa using hlt')
    refine List.pairwise_cons.mpr ⟨fun z hz => ?_, ih hl hm'⟩
    rcases List.mem_merge.mp hz with hz | hz
    · rcases List.mem_cons.mp hz with rfl | hz
      · exact hyx
      · exact htrans _ _ _ hyx ((List.pairwise_cons.mp hl).1 z hz)
    · exact hys z hz

theorem cons_merge_of_head {x : α} {le : α → α → Bool} (h : ∀ c ∈ m.head?, le x c = true) :
    (x :: l).merge m le = x :: l.merge m le := by
  cases m with
  | nil => rw [List.merge_right, List.merge_right]
  | cons c m => exact List.cons_merge_cons_pos le l m (h c rfl)

theorem merge_cons_of_head {y : α} {le : α → α → Bool} (h : ∀ c ∈ l.head?, le c y = false) :
    l.merge (y :: m) le = y :: l.merge m le := by
  cases l with
  | nil => rw [List.nil_merge, List.nil_merge]
  | cons c l => exact List.cons_merge_cons_neg le l m (by rw [h c rfl]; exact Bool.false_ne_true)

theorem head?_filter_cons {p : α → Bool} {y c : α} {ys : List α} (h : c ∈ ((y :: ys).filter p).head?) :
    c = y ∨ p y = false ∧ c ∈ ys ∧ p c = true := by
  cases hp : p y with
  | true =>
    rw [List.filter_cons_of_pos hp] at h
    exact .inl (Option.some.inj h).symm
  | false =>
    rw [List.filter_cons_of_neg (by simp [hp])] at h
    exact .inr ⟨rfl, List.mem_filter.mp (List.mem_of_mem_head? h)⟩

/-- What passes a test is merged as if there were nothing else, if what does not pass separates: whatever stands
before it comes strictly before what passes behind it. -/
theorem filter_merge {p : α → Bool} (hlt : ∀ a b, lt a b = true → r a b) (hge : ∀ a b, lt a b = false → r b a)
    (hsep : ∀ a b c, p b = false → p c = true → r a b → r b c → lt a c = true ∧ lt c a = false)
    (hl : l.Pairwise r) (hm : m.Pairwise r) :
    (l.merge m fun a b => !lt b a).filter p = (l.filter p).merge (m.filter p) fun a b => !lt b a := by
  fun_induction List.merge l m (fun a b => !lt b a) with
  | case1 m => rw [List.filter_nil, List.nil_merge]
  | case2 l => rw [List.filter_nil, List.merge_right]
  | case3 x xs y ys hle ih =>
    have hyx : lt y x = false := by simpa using hle
    have ih' := ih (List.pairwise_cons.mp hl).2 hm
    cases hp : p x with
    | false =>
      have hno : ¬ p x = true := by simp [hp]
      rw [List.filter_cons_of_neg hno, ih', List.filter_cons_of_neg (l := xs) hno]
    | true =>
      rw [List.filter_cons_of_pos hp, ih', List.filter_cons_of_pos (l := xs) hp, cons_merge_of_head]
      intro c hc
      rcases head?_filter_cons hc with rfl | ⟨hy, hc, hpc⟩
      · simp [hyx]
      · simp [(hsep x y c hy hpc (hge _ _ hyx) ((List.pairwise_cons.mp hm).1 c hc)).2]
  | case4 x xs y ys hlt' ih =>
    have hyx : lt y x = true := by simpa using hlt'
    have ih' := ih hl (List.pairwise_cons.mp hm).2
    cases hp : p y with
    | false =>
      have hno : ¬ p y = true := by simp [hp]
      rw [List.filter_cons_of_neg hno, ih', List.filter_cons_of_neg (l := ys) hno]
    | true =>
      rw [List.filter_cons_of_pos hp, ih', List.filter_cons_of_pos (l := ys) hp, merge_cons_of_head]
      intro c hc
      rcases head?_filter_cons hc with rfl | ⟨hx, hc, hpc⟩
      · simp [hyx]
      · simp [(hsep y x c hx hpc (hlt _ _ hyx) ((List.pairwise_cons.mp hl).1 c hc)).1]

/-! ## Any number of lists -/

variable {iters : List (List α)}

theorem kmerge_pairwise (htrans : ∀ a b c, r a b → r b c → r a c) (hlt : ∀ a b, lt a b = true → r a b)
    (hge : ∀ a b, lt a b = false → r b a) (hs : ∀ l ∈ iters, l.Pairwise r) : (kmerge lt iters).Pairwise r := by
  induction iters with
  | nil => exact List.Pairwise.nil
  | cons l iters ih =>
    obtain ⟨hl, hrest⟩ := List.forall_mem_cons.mp hs
    rw [kmerge_cons]
    exact merge_pairwise htrans hlt hge hl (ih hrest)

theorem filter_kmerge {p : α → Bool} (htrans : ∀ a b c, r a b → r b c → r a c)
    (hlt : ∀ a b, lt a b = true → r a b) (hge : ∀ a b, lt a b = false → r b a)
    (hsep : ∀ a b c, p b = false → p c = true → r a b → r b c → lt a c = true ∧ lt c a = false)
    (hs : ∀ l ∈ iters, l.Pairwise r) : (kmerge lt iters).filter p = kmerge lt (iters.map (List.filter p)) := by
  induction iters with
  | nil => rfl
  | cons l iters ih =>
    obtain ⟨hl, hrest⟩ := List.forall_mem_cons.mp hs
    rw [kmerge_cons, filter_merge hlt hge hsep hl (kmerge_pairwise htrans hlt hge hrest), ih hrest, List.map_cons,
      kmerge_cons]

theorem kmerge_append_congr {a b : List (List α)} (h : kmerge lt a = kmerge lt b) (iters : List (List α)) :
    kmerge lt (iters ++ a) = kmerge lt (iters ++ b) := by
  induction iters with
  | nil => exact h
  | cons l iters ih => rw [List.cons_append, List.cons_append, kmerge_cons, kmerge_cons, ih]

/-! ## Reading a sorted list -/

theorem mem_takeWhile_iff {q : α → Bool}
    (h : l.Pairwise fun x y => q y = true → q x = true) {x : α} :
    x ∈ l.takeWhile q ↔ x ∈ l ∧ q x = true := by
  induction l with
  | nil => simp
  | cons a l ih =>
    obtain ⟨ha, hl⟩ := List.pairwise_cons.mp h
    cases hq : q a with
    | true =>
      rw [List.takeWhile_cons_of_pos hq, List.mem_cons, ih hl, List.mem_cons]
      constructor
      · rintro (rfl | ⟨hx, hqx⟩)
        · exact ⟨Or.inl rfl, hq⟩
        · exact ⟨Or.inr hx, hqx⟩
      · rintro ⟨rfl | hx, hqx⟩
        · exact Or.inl rfl
        · exact Or.inr ⟨hx, hqx⟩
    | false =>
      rw [List.takeWhile_cons_of_neg (by simp [hq])]
      refine iff_of_false List.not_mem_nil ?_
      rintro ⟨hx, hqx⟩
      cases List.mem_cons.mp hx with
      | inl heq => rw [heq, hq] at hqx; cases hqx
      | inr hx => rw [ha x hx hqx] at hq; cases hq

theorem eq_of_strict (hasymm : ∀ a b, r a b → ¬ r b a) (hl : l.Pairwise r)
    (hm : m.Pairwise r) (h : ∀ x, x ∈ l ↔ x ∈ m) : l = m := by
  have hne : ∀ {k : List α}, k.Pairwise r → k.Nodup := by
    intro k hk
    refine hk.imp ?_
    intro a b hab heq
    subst heq
    exact hasymm a a hab hab
  refine List.Perm.eq_of_pairwise ?_ hl hm ((List.perm_ext_iff_of_nodup (hne hl) (hne hm)).mpr h)
  exact fun a b _ _ hab hba => absurd hba (hasymm a b hab)

end AkwaDB
