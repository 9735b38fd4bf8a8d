import Mathlib.Data.Nat.Basic

/-!
# AkwaDB.Lib.Search

The binary search loop over positions `0 … n-1` that remembers the last position it liked. What a
probe likes and where it sends the loop are independent: a search for the last element not above
a key likes exactly what sends it right, but a search that also stops to look at equal elements
likes some of those that send it left.

With `c` the first position that sends the loop left, `search_some` and `search_none` say what is
remembered at the end: position `c - 1`, or position `c` itself when that is one the loop likes.
Which of the two depends on the order of the probes.
-/

namespace AkwaDB

structure Probe where
  take : Bool
  right : Bool

/-- The loop, with `hi` one past the last position still in question. -/
def searchLoop (probe : Nat → Probe) : Nat → Nat → Nat → Option Nat → Option Nat
  | 0, _, _, found => found
  | fuel + 1, lo, hi, found =>
    if lo < hi then
      let mid := (lo + hi - 1) / 2
      let found' := if (probe mid).take then some mid else found
      if (probe mid).right then searchLoop probe fuel (mid + 1) hi found'
      else searchLoop probe fuel lo mid found'
    else found

def search (probe : Nat → Probe) (n : Nat) : Option Nat := searchLoop probe n 0 n none

/-- Positions before `c` send the loop right and are liked; of the others the liked ones come first. -/
structure Splits (probe : Nat → Probe) (n c : Nat) : Prop where
  le : c ≤ n
  right : ∀ i < n, (probe i).right = true ↔ i < c
  take : ∀ i < c, (probe i).take = true
  mono : ∀ i j, c ≤ i → i ≤ j → j < n → (probe j).take = true → (probe i).take = true

theorem exists_cut {q : Nat → Bool} (n : Nat)
    (h : ∀ i j, i ≤ j → j < n → q j = true → q i = true) :
    ∃ c ≤ n, ∀ i < n, q i = true ↔ i < c := by
  induction n with
  | zero => exact ⟨0, Nat.le_refl 0, by omega⟩
  | succ n ih =>
    obtain ⟨c, hc, hq⟩ := ih (fun i j hij hj => h i j hij (by omega))
    by_cases hn : q n = true
    · refine ⟨n + 1, Nat.le_refl _, fun i hi => ?_⟩
      have := h i n (by omega) (by omega) hn
      exact ⟨fun _ => hi, fun _ => this⟩
    · refine ⟨c, by omega, fun i hi => ?_⟩
      by_cases hin : i < n
      · exact hq i hin
      · obtain rfl : i = n := by omega
        exact ⟨fun hqi => absurd hqi hn, fun hlt => by omega⟩

def Remembers (probe : Nat → Probe) (n lo hi : Nat) : Option Nat → Prop
  | none => lo = 0 ∧ (hi < n → (probe hi).take = false)
  | some r => r + 1 = lo ∨ (r = hi ∧ hi < n ∧ (probe hi).take = true)

theorem searchLoop_remembers {probe : Nat → Probe} {n c : Nat} (hs : Splits probe n c) :
    ∀ {fuel lo hi : Nat} {found : Option Nat}, hi - lo ≤ fuel → lo ≤ c → c ≤ hi → hi ≤ n →
      Remembers probe n lo hi found →
      Remembers probe n c c (searchLoop probe fuel lo hi found) := by
  intro fuel
  induction fuel with
  | zero =>
    intro lo hi found hf hlo hhi _ hr
    obtain rfl : lo = c := by omega
    obtain rfl : hi = lo := by omega
    exact hr
  | succ fuel ih =>
    intro lo hi found hf hlo hhi hn hr
    simp only [searchLoop]
    split
    · rename_i hlt
      have hmid : (lo + hi - 1) / 2 < hi := by omega
      have hmid' : lo ≤ (lo + hi - 1) / 2 := by omega
      generalize (lo + hi - 1) / 2 = mid at hmid hmid' ⊢
      have hright := hs.right mid (by omega)
      split
      · rename_i hr'
        -- the probe sends the loop right, so it is liked and becomes the position before `lo`
        have hc : mid < c := hright.mp hr'
        rw [if_pos (hs.take mid hc)]
        exact ih (by omega) (by omega) hhi hn (Or.inl rfl)
      · rename_i hr'
        have hc : c ≤ mid := by
          by_contra h
          exact hr' (hright.mpr (by omega))
        apply ih (by omega) hlo hc (by omega)
        by_cases ht : (probe mid).take = true
        · rw [if_pos ht]
          exact Or.inr ⟨rfl, by omega, ht⟩
        · rw [if_neg ht]
          cases found with
          | none => exact ⟨hr.1, fun _ => by simpa using ht⟩
          | some r =>
            rcases hr with hr | ⟨rfl, hhn, hth⟩
            · exact Or.inl hr
            · exact absurd (hs.mono mid r hc (by omega) hhn hth) ht
    · obtain rfl : lo = c := by omega
      obtain rfl : hi = lo := by omega
      exact hr

theorem search_remembers {probe : Nat → Probe} {n c : Nat} (hs : Splits probe n c) :
    Remembers probe n c c (search probe n) :=
  searchLoop_remembers hs (by omega) (by omega) hs.le (Nat.le_refl n)
    ⟨rfl, fun h => absurd h (Nat.lt_irrefl n)⟩

theorem search_none {probe : Nat → Probe} {n c : Nat} (hs : Splits probe n c)
    (h : search probe n = none) : c = 0 ∧ (c < n → (probe c).take = false) := by
  have := search_remembers hs
  rw [h] at this
  exact this

theorem search_some {probe : Nat → Probe} {n c r : Nat} (hs : Splits probe n c)
    (h : search probe n = some r) : r + 1 = c ∨ (r = c ∧ c < n ∧ (probe c).take = true) := by
  have := search_remembers hs
  rw [h] at this
  exact this

end AkwaDB
