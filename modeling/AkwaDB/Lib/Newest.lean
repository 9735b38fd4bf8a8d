import Mathlib.Data.List.Basic
import Mathlib.Data.List.Induction
import Mathlib.Order.Basic

/-!
# AkwaDB.Lib.Newest

The loop that walks a list and keeps the first of the greatest elements among those that pass a
test. Point lookups in memtables and tables are all this loop, over different stretches of a list.

- `newest_eq_some_iff`: with a measure that separates the passing elements, the loop finds exactly
  the maximal one.
- `newest_eq_find`: on a list that descends in the measure it is the first passing element.
-/

namespace AkwaDB

variable {α : Type} {f : α → Nat} {p : α → Bool}

/-- The loop body: take `x` when it passes and is the first, or greater than the best so far. -/
def newer (f : α → Nat) (p : α → Bool) (best : Option α) (x : α) : Option α :=
  if p x then
    match best with
    | none => some x
    | some b => if f b < f x then some x else some b
  else best

def newest (f : α → Nat) (p : α → Bool) (l : List α) : Option α := l.foldl (newer f p) none

/-- `x` passes, is in `l`, and nothing in `l` that passes is greater. -/
structure IsNewest (f : α → Nat) (p : α → Bool) (l : List α) (x : α) : Prop where
  mem : x ∈ l
  pass : p x = true
  max : ∀ y ∈ l, p y = true → f y ≤ f x

variable {best : Option α} {x : α} {l m : List α} {q : α → Bool}

theorem newer_of_not (h : p x = false) : newer f p best x = best := by
  simp [newer, h]

theorem foldl_newer_of_not (h : ∀ x ∈ l, p x = false) (best : Option α) :
    l.foldl (newer f p) best = best := by
  induction l generalizing best with
  | nil => rfl
  | cons a l ih =>
    rw [List.foldl_cons, newer_of_not (h a (by simp)), ih (fun x hx => h x (by simp [hx]))]

theorem newest_append_of_not (h : ∀ x ∈ l, p x = false) : newest f p (l ++ m) = newest f p m := by
  rw [newest, List.foldl_append, foldl_newer_of_not h]
  rfl

theorem newest_append_not (h : ∀ x ∈ m, p x = false) : newest f p (l ++ m) = newest f p l := by
  rw [newest, List.foldl_append, foldl_newer_of_not h]
  rfl

theorem newest_ext (h : ∀ x ∈ l, p x = q x) : newest f p l = newest f q l := by
  refine List.foldl_ext _ _ _ fun best x hx => ?_
  simp only [newer, h x hx]

theorem newest_filter (l : List α) (h : ∀ x, p x = true → q x = true) :
    newest f p (l.filter q) = newest f p l := by
  rw [newest, List.foldl_filter, newest]
  congr 1
  funext best x
  split
  · rfl
  · rename_i hq
    refine (newer_of_not ?_).symm
    cases hp : p x with
    | false => rfl
    | true => exact absurd (h x hp) hq

theorem newer_cases (best : Option α) (x : α) :
    (newer f p best x = best ∧ (p x = true → ∃ b, best = some b ∧ f x ≤ f b)) ∨
      (newer f p best x = some x ∧ p x = true ∧ ∀ b, best = some b → f b < f x) := by
  by_cases hp : p x = true
  · cases best with
    | none => exact Or.inr ⟨by simp [newer, hp], hp, by simp⟩
    | some b =>
      by_cases hlt : f b < f x
      · refine Or.inr ⟨by simp [newer, hp, hlt], hp, ?_⟩
        intro c hc
        cases hc
        omega
      · exact Or.inl ⟨by simp [newer, hp, hlt], fun _ => ⟨b, rfl, by omega⟩⟩
  · exact Or.inl ⟨newer_of_not (by simpa using hp), fun h => absurd h hp⟩

theorem foldl_newer_some (h : l.foldl (newer f p) best = some x) :
    (best = some x ∨ (x ∈ l ∧ p x = true)) ∧ (∀ b, best = some b → f b ≤ f x) ∧
      ∀ y ∈ l, p y = true → f y ≤ f x := by
  induction l generalizing best with
  | nil =>
    rw [List.foldl_nil] at h
    subst h
    refine ⟨Or.inl rfl, ?_, by simp⟩
    intro b hb
    cases hb
    exact Nat.le_refl _
  | cons a l ih =>
    rw [List.foldl_cons] at h
    obtain ⟨h1, h2, h3⟩ := ih h
    rcases newer_cases best a with ⟨hn, hle⟩ | ⟨hn, hp, hlt⟩
    · rw [hn] at h1 h2
      refine ⟨h1.imp_right fun hx => ⟨by simp [hx.1], hx.2⟩, h2, ?_⟩
      intro y hy hpy
      rcases List.mem_cons.mp hy with rfl | hy
      · obtain ⟨b, hb, hyb⟩ := hle hpy
        exact Nat.le_trans hyb (h2 b hb)
      · exact h3 y hy hpy
    · rw [hn] at h1 h2
      have ha := h2 a rfl
      refine ⟨Or.inr ?_, fun b hb => Nat.le_of_lt (Nat.lt_of_lt_of_le (hlt b hb) ha), ?_⟩
      · rcases h1 with h1 | h1
        · cases h1
          exact ⟨by simp, hp⟩
        · exact ⟨by simp [h1.1], h1.2⟩
      · intro y hy hpy
        rcases List.mem_cons.mp hy with rfl | hy
        · exact ha
        · exact h3 y hy hpy

theorem newest_spec (h : newest f p l = some x) : IsNewest f p l x := by
  obtain ⟨h1, _, h3⟩ := foldl_newer_some h
  rcases h1 with h1 | h1
  · cases h1
  · exact ⟨h1.1, h1.2, h3⟩

theorem newer_isSome (h : best.isSome = true) : (newer f p best x).isSome = true := by
  obtain ⟨b, rfl⟩ := Option.isSome_iff_exists.mp h
  simp only [newer]
  split
  · split <;> rfl
  · rfl

theorem foldl_newer_isSome (h : best.isSome = true) : (l.foldl (newer f p) best).isSome = true := by
  induction l generalizing best with
  | nil => exact h
  | cons a l ih => exact ih (newer_isSome h)

theorem newest_eq_none : newest f p l = none ↔ ∀ x ∈ l, p x = false := by
  constructor
  · intro h x hx
    by_contra hp
    have hp : p x = true := by simpa using hp
    obtain ⟨l1, l2, rfl⟩ := List.append_of_mem hx
    have hs : (newest f p (l1 ++ x :: l2)).isSome = true := by
      rw [newest, List.foldl_append, List.foldl_cons]
      apply foldl_newer_isSome
      simp only [newer, hp, if_true]
      split
      · rfl
      · split <;> rfl
    rw [h] at hs
    cases hs
  · intro h
    exact foldl_newer_of_not h none

theorem newest_isSome (f : α → Nat) (hx : x ∈ l) (hp : p x = true) :
    ∃ y, newest f p l = some y := by
  cases h : newest f p l with
  | none => rw [newest_eq_none.mp h x hx] at hp; cases hp
  | some y => exact ⟨y, rfl⟩

def Separates (f : α → Nat) (p : α → Bool) (l : List α) : Prop :=
  ∀ x ∈ l, ∀ y ∈ l, p x = true → p y = true → f x = f y → x = y

theorem newest_eq_some_iff (hs : Separates f p l) : newest f p l = some x ↔ IsNewest f p l x := by
  constructor
  · exact newest_spec
  · intro h
    obtain ⟨y, hy⟩ := newest_isSome f h.mem h.pass
    have hy' := newest_spec hy
    have h1 := h.max y hy'.mem hy'.pass
    have h2 := hy'.max x h.mem h.pass
    rw [hy, hs y hy'.mem x h.mem hy'.pass h.pass (by omega)]

theorem newest_congr (hs : Separates f p l) (h : ∀ x, x ∈ l ∧ p x = true ↔ x ∈ m ∧ q x = true) :
    newest f p l = newest f q m := by
  have hs' : Separates f q m := by
    intro x hx y hy hqx hqy
    have hx' := (h x).mpr ⟨hx, hqx⟩
    have hy' := (h y).mpr ⟨hy, hqy⟩
    exact hs x hx'.1 y hy'.1 hx'.2 hy'.2
  cases hn : newest f p l with
  | none =>
    refine (newest_eq_none.mpr fun x hx => ?_).symm
    by_contra hq
    have hx' := (h x).mpr ⟨hx, by simpa using hq⟩
    rw [newest_eq_none.mp hn x hx'.1] at hx'
    cases hx'.2
  | some x =>
    obtain ⟨hmem, hpass, hmax⟩ := newest_spec hn
    obtain ⟨hmem', hpass'⟩ := (h x).mp ⟨hmem, hpass⟩
    refine ((newest_eq_some_iff hs').mpr ⟨hmem', hpass', fun y hy hqy => ?_⟩).symm
    have hy' := (h y).mpr ⟨hy, hqy⟩
    exact hmax y hy'.1 hy'.2

/-- The greater of two finds; the first wins a tie. -/
def newerOf (f : α → Nat) : Option α → Option α → Option α
  | none, b => b
  | some a, none => some a
  | some a, some b => if f a < f b then some b else some a

@[simp] theorem newerOf_none (f : α → Nat) (a : Option α) : newerOf f a none = a := by
  cases a <;> rfl

theorem newest_snoc (l : List α) (x : α) : newest f p (l ++ [x]) = newer f p (newest f p l) x := by
  rw [newest, List.foldl_append]
  rfl

theorem newest_append (l m : List α) :
    newest f p (l ++ m) = newerOf f (newest f p l) (newest f p m) := by
  induction m using List.reverseRecOn with
  | nil => rw [List.append_nil]; exact (newerOf_none f _).symm
  | append_singleton m x ih =>
    rw [← List.append_assoc, newest_snoc, newest_snoc, ih]
    cases hp : p x with
    | false => rw [newer_of_not hp, newer_of_not hp]
    | true =>
      cases newest f p l with
      | none => rfl
      | some a =>
        cases newest f p m with
        | none => simp [newerOf, newer, hp]
        | some b =>
          by_cases hab : f a < f b
          · by_cases hbx : f b < f x
            · simp [newerOf, newer, hp, hab, hbx, Nat.lt_trans hab hbx]
            · simp [newerOf, newer, hp, hab, hbx]
          · by_cases hbx : f b < f x
            · simp [newerOf, newer, hp, hab, hbx]
            · have hax : ¬ f a < f x := by omega
              simp [newerOf, newer, hp, hab, hbx, hax]

theorem newest_cons (x : α) (l : List α) :
    newest f p (x :: l) = newerOf f (newest f p [x]) (newest f p l) :=
  newest_append [x] l

theorem newest_append_comm (h : ∀ x ∈ l, ∀ y ∈ m, p x = true → p y = true → f x ≠ f y) :
    newest f p (l ++ m) = newest f p (m ++ l) := by
  rw [newest_append, newest_append]
  cases hl : newest f p l with
  | none => exact (newerOf_none f _).symm
  | some a =>
    cases hm : newest f p m with
    | none => rfl
    | some b =>
      obtain ⟨ha, hpa, _⟩ := newest_spec hl
      obtain ⟨hb, hpb, _⟩ := newest_spec hm
      have hne := h a ha b hb hpa hpb
      simp only [newerOf]
      split
      · rw [if_neg (by omega)]
      · rw [if_pos (by omega)]

theorem newest_append_of_lt (h : ∀ x ∈ l, ∀ y ∈ m, p x = true → p y = true → f x < f y) :
    newest f p (l ++ m) = (newest f p m).or (newest f p l) := by
  rw [newest_append]
  cases hm : newest f p m with
  | none => exact newerOf_none f _
  | some b =>
    cases hl : newest f p l with
    | none => rfl
    | some a =>
      obtain ⟨ha, hpa, _⟩ := newest_spec hl
      obtain ⟨hb, hpb, _⟩ := newest_spec hm
      exact if_pos (h a ha b hb hpa hpb)

theorem newest_split (h : newest f p l = some x) :
    ∃ l₁ l₂, l = l₁ ++ x :: l₂ ∧ p x = true ∧ (∀ y ∈ l₁, p y = true → f y < f x) ∧
      ∀ y ∈ l₂, p y = true → f y ≤ f x := by
  induction l using List.reverseRecOn generalizing x with
  | nil => cases h
  | append_singleton l a ih =>
    rw [newest_snoc] at h
    rcases newer_cases (f := f) (p := p) (newest f p l) a with ⟨hn, hle⟩ | ⟨hn, hp, hlt⟩
    · rw [hn] at h
      obtain ⟨l₁, l₂, rfl, hp, h₁, h₂⟩ := ih h
      refine ⟨l₁, l₂ ++ [a], by simp, hp, h₁, fun y hy hpy => ?_⟩
      rcases List.mem_append.mp hy with hy | hy
      · exact h₂ y hy hpy
      · obtain rfl := List.mem_singleton.mp hy
        obtain ⟨b, hb, hyb⟩ := hle hpy
        rw [h] at hb
        cases hb
        exact hyb
    · rw [hn] at h
      cases h
      refine ⟨l, [], rfl, hp, fun y hy hpy => ?_, by simp⟩
      obtain ⟨b, hb⟩ := newest_isSome f hy hpy
      exact Nat.lt_of_le_of_lt ((newest_spec hb).max y hy hpy) (hlt b hb)

theorem newest_cons_of_ge (hp : p x = true) (h : ∀ y ∈ l, p y = true → f y ≤ f x) :
    newest f p (x :: l) = some x := by
  have hx : newest f p [x] = some x := by simp [newest, newer, hp]
  rw [newest_cons, hx]
  cases hl : newest f p l with
  | none => rfl
  | some b =>
    obtain ⟨hb, hpb, _⟩ := newest_spec hl
    exact if_neg (Nat.not_lt.mpr (h b hb hpb))

theorem newest_filter_of_pass (h : newest f p l = some x) (hq : q x = true) :
    newest f p (l.filter q) = some x := by
  obtain ⟨l₁, l₂, rfl, hp, h₁, h₂⟩ := newest_split h
  have hright : newest f p (x :: l₂.filter q) = some x :=
    newest_cons_of_ge hp fun y hy hpy => h₂ y (List.mem_of_mem_filter hy) hpy
  rw [List.filter_append, List.filter_cons_of_pos hq, newest_append, hright]
  cases hl : newest f p (l₁.filter q) with
  | none => rfl
  | some a =>
    obtain ⟨ha, hpa, _⟩ := newest_spec hl
    exact if_pos (h₁ a (List.mem_of_mem_filter ha) hpa)

theorem newest_eq_find (h : l.Pairwise fun x y => p x = true → p y = true → f y ≤ f x) :
    newest f p l = l.find? p := by
  have key : ∀ (m : List α) (b : α), (∀ y ∈ m, p y = true → f y ≤ f b) →
      m.foldl (newer f p) (some b) = some b := by
    intro m
    induction m with
    | nil => intro b _; rfl
    | cons a m ih =>
      intro b hb
      have hstay : newer f p (some b) a = some b := by
        by_cases hp : p a = true
        · have := hb a (by simp) hp
          simp only [newer, hp, if_true]
          rw [if_neg (by omega)]
        · exact newer_of_not (by simpa using hp)
      rw [List.foldl_cons, hstay]
      exact ih b (fun y hy => hb y (by simp [hy]))
  induction l with
  | nil => rfl
  | cons a l ih =>
    obtain ⟨ha, hl⟩ := List.pairwise_cons.mp h
    by_cases hp : p a = true
    · rw [List.find?_cons_of_pos hp, newest, List.foldl_cons]
      have : newer f p none a = some a := by simp [newer, hp]
      rw [this]
      exact key l a (fun y hy hpy => ha y hy hp hpy)
    · have hp' : p a = false := by simpa using hp
      rw [List.find?_cons_of_neg hp, newest, List.foldl_cons, newer_of_not hp']
      exact ih hl

theorem le_foldl_max {l : List Nat} {a : Nat} (h : a ∈ l) (b : Nat) : a ≤ l.foldl max b := by
  have hstart : ∀ (l : List Nat) (b : Nat), b ≤ l.foldl max b := by
    intro l
    induction l with
    | nil => intro b; exact Nat.le_refl b
    | cons c l ih => intro b; exact Nat.le_trans (Nat.le_max_left b c) (ih (max b c))
  induction l generalizing b with
  | nil => cases h
  | cons c l ih =>
    cases List.mem_cons.mp h with
    | inl heq =>
      subst heq
      exact Nat.le_trans (Nat.le_max_right b a) (hstart l (max b a))
    | inr h => exact ih h (max b c)

end AkwaDB
