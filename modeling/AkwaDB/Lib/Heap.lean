import Mathlib.Order.WithBot
import Mathlib.Logic.Equiv.Basic
import Mathlib.Data.List.Basic

/-!
# AkwaDB.Lib.Heap

Binary heaps in an array, ordered by a key.

* `push` — appends an element, which then goes up while it is before its parent.
* `pop`  — what is left when the first element has changed places with the last and was cut off, and the new first one
  has gone down while a child is before it.

The place of an element is its position: the parent of `c` is `(c - 1) / 2`. A place behind the end ranks after all
elements, so that the order of a heap is one condition on all places (`Ordered`), and a step up or down is about ranks
alone.
-/

namespace AkwaDB
namespace Heap

def parent (c : Nat) : Nat := (c - 1) / 2

theorem parent_lt {c : Nat} (h : 0 < c) : parent c < c := by
  unfold parent
  omega

theorem pos_of_parent_ne {c : Nat} (h : parent c ≠ c) : 0 < c := Nat.pos_of_ne_zero fun h0 => h (by rw [h0]; rfl)

section
variable {γ : Type} [LinearOrder γ] {v : Nat → γ} {i j : Nat}

def Ordered (v : Nat → γ) : Prop := ∀ c, 0 < c → v (parent c) ≤ v c

/-- In order but for `j`, which may rank before its parent. -/
structure UpOrdered (v : Nat → γ) (j : Nat) : Prop where
  others : ∀ c, 0 < c → c ≠ j → v (parent c) ≤ v c
  below : 0 < j → ∀ c, 0 < c → parent c = j → v (parent j) ≤ v c

/-- In order but for `i`, which may rank after its children. -/
structure DownOrdered (v : Nat → γ) (i : Nat) : Prop where
  others : ∀ c, 0 < c → parent c ≠ i → v (parent c) ≤ v c
  below : 0 < i → ∀ c, 0 < c → parent c = i → v (parent i) ≤ v c

theorem Ordered.root_le (h : Ordered v) (c : Nat) : v 0 ≤ v c := by
  induction c using Nat.strong_induction_on with
  | _ c ih =>
    rcases Nat.eq_zero_or_pos c with rfl | hc
    · exact le_refl _
    · exact (ih _ (parent_lt hc)).trans (h c hc)

theorem UpOrdered.step (h : UpOrdered v j) (hj : 0 < j) (hlt : v j < v (parent j)) :
    UpOrdered (fun k => v (Equiv.swap (parent j) j k)) (parent j) := by
  obtain ⟨others, below⟩ := h
  have hpj := parent_lt hj
  simp only [Equiv.swap_apply_def]
  constructor
  · -- the other child of the parent was after it, and the children of `j` by `below`
    intro c hc hne
    have hpc := parent_lt hc
    grind
  · -- the parent was after its own parent, and so is what was after the parent
    intro hp c hc hpc
    have hpp := parent_lt hp
    have habove := others (parent j) hp
    have hchild := others c hc
    grind

theorem DownOrdered.step (h : DownOrdered v i) (hj : 0 < j) (hpj : parent j = i) (hlt : v j < v i)
    (hleast : ∀ c, 0 < c → parent c = i → v j ≤ v c) : DownOrdered (fun k => v (Equiv.swap i j k)) j := by
  obtain ⟨others, below⟩ := h
  have hij : i < j := hpj ▸ parent_lt hj
  simp only [Equiv.swap_apply_def]
  constructor
  · -- `j` is the least of the children, and `i` gets what was after its parent by `below`
    intro c hc hne
    have hpc := parent_lt hc
    grind
  · intro _ c hc hpc
    have hlt := parent_lt hc
    grind

end

section
variable {α β : Type}

def rank (key : α → β) (l : List α) (i : Nat) : WithTop β :=
  match l[i]? with
  | some x => key x
  | none => ⊤

def swap (l : List α) (i j : Nat) : List α :=
  match l[i]?, l[j]? with
  | some x, some y => (l.set i y).set j x
  | _, _ => l

theorem swap_perm (l : List α) (i j : Nat) : (swap l i j).Perm l := by
  unfold swap
  split
  · rename_i x y hx hy
    obtain ⟨hi, rfl⟩ := List.getElem?_eq_some_iff.mp hx
    obtain ⟨hj, rfl⟩ := List.getElem?_eq_some_iff.mp hy
    exact List.set_set_perm hi hj
  · exact List.Perm.refl l

@[simp] theorem length_swap (l : List α) (i j : Nat) : (swap l i j).length = l.length := (swap_perm l i j).length_eq

theorem getElem?_swap {l : List α} {i j : Nat} (hi : i < l.length) (hj : j < l.length) (k : Nat) :
    (swap l i j)[k]? = l[Equiv.swap i j k]? := by
  simp only [swap, List.getElem?_eq_getElem hi, List.getElem?_eq_getElem hj, List.getElem?_set, List.length_set,
    Equiv.swap_apply_def]
  grind

theorem rank_of_le {key : α → β} {l : List α} {i : Nat} (h : l.length ≤ i) : rank key l i = ⊤ := by
  rw [rank, List.getElem?_eq_none h]

theorem rank_swap {key : α → β} {l : List α} {i j : Nat} (hi : i < l.length) (hj : j < l.length) :
    rank key (swap l i j) = fun k => rank key l (Equiv.swap i j k) := by
  funext k
  rw [rank, getElem?_swap hi hj, rank]

variable [LinearOrder β] (key : α → β)

def up (l : List α) (j : Nat) : List α :=
  let i := parent j
  if i = j ∨ ¬ rank key l j < rank key l i then l else up (swap l i j) i
termination_by j
decreasing_by
  rename_i hgo
  exact parent_lt (pos_of_parent_ne fun heq => hgo (Or.inl heq))

/-- The child of `i` that ranks first; the second one may not be there. -/
def child (l : List α) (i : Nat) : Nat :=
  if 2 * i + 2 < l.length ∧ rank key l (2 * i + 2) < rank key l (2 * i + 1) then 2 * i + 2 else 2 * i + 1

def down (l : List α) (i : Nat) : List α :=
  if l.length ≤ 2 * i + 1 then l
  else if rank key l (child key l i) < rank key l i then down (swap l i (child key l i)) (child key l i)
  else l
termination_by l.length - i
decreasing_by
  rw [length_swap]
  unfold child
  split <;> omega

def push (l : List α) (x : α) : List α := up key (l ++ [x]) l.length

def pop (l : List α) : List α := down key (swap l 0 (l.length - 1)).dropLast 0

variable {key} {l : List α} {i j : Nat}

theorem lt_length_of_rank {r : WithTop β} (h : rank key l i < r) : i < l.length := by
  by_contra hi
  rw [rank_of_le (Nat.le_of_not_lt hi)] at h
  exact not_top_lt h

theorem up_perm (l : List α) (j : Nat) : (up key l j).Perm l := by
  induction l, j using up.induct key with
  | case1 l j i h => rw [up, if_pos h]
  | case2 l j i h ih =>
    rw [up, if_neg h]
    exact ih.trans (swap_perm l i j)

theorem ordered_up (h : UpOrdered (rank key l) j) : Ordered (rank key (up key l j)) := by
  induction l, j using up.induct key with
  | case1 l j i hstop =>
    rw [up, if_pos hstop]
    intro c hc
    by_cases hcj : c = j
    · subst hcj
      exact not_lt.mp (hstop.resolve_left (parent_lt hc).ne)
    · exact h.others c hc hcj
  | case2 l j i hgo ih =>
    rw [up, if_neg hgo]
    obtain ⟨hne, hlt⟩ := not_or.mp hgo
    have hlt := not_not.mp hlt
    have hj := pos_of_parent_ne hne
    have hlen := lt_length_of_rank hlt
    refine ih ?_
    rw [rank_swap ((parent_lt hj).trans hlen) hlen]
    exact h.step hj hlt

theorem parent_child (l : List α) (i : Nat) : parent (child key l i) = i ∧ 0 < child key l i := by
  unfold child parent
  split <;> omega

theorem child_least (l : List α) (i c : Nat) (hc : 0 < c) (hp : parent c = i) :
    rank key l (child key l i) ≤ rank key l c := by
  have hcases : c = 2 * i + 1 ∨ c = 2 * i + 2 := by
    unfold parent at hp
    omega
  unfold child
  split
  · rename_i h
    rcases hcases with rfl | rfl
    · exact h.2.le
    · exact le_refl _
  · rename_i h
    rcases hcases with rfl | rfl
    · exact le_refl _
    · by_cases hlen : 2 * i + 2 < l.length
      · exact not_lt.mp fun hlt => h ⟨hlen, hlt⟩
      · rw [rank_of_le (Nat.le_of_not_lt hlen)]
        exact le_top

theorem down_perm (l : List α) (i : Nat) : (down key l i).Perm l := by
  induction l, i using down.induct key with
  | case1 l i hend => rw [down, if_pos hend]
  | case2 l i hend hlt ih =>
    rw [down, if_neg hend, if_pos hlt]
    exact ih.trans (swap_perm l i _)
  | case3 l i hend hge => rw [down, if_neg hend, if_neg hge]

theorem ordered_down (h : DownOrdered (rank key l) i) : Ordered (rank key (down key l i)) := by
  induction l, i using down.induct key with
  | case1 l i hend =>
    rw [down, if_pos hend]
    intro c hc
    by_cases hp : parent c = i
    · rw [rank_of_le (show l.length ≤ c by unfold parent at hp; omega)]
      exact le_top
    · exact h.others c hc hp
  | case2 l i hend hlt ih =>
    rw [down, if_neg hend, if_pos hlt]
    obtain ⟨hpar, hpos⟩ : parent (child key l i) = i ∧ 0 < child key l i := parent_child l i
    refine ih ?_
    rw [rank_swap (by omega) (lt_length_of_rank hlt)]
    exact h.step hpos hpar hlt (child_least l i)
  | case3 l i hend hge =>
    rw [down, if_neg hend, if_neg hge]
    intro c hc
    by_cases hp : parent c = i
    · subst hp
      exact (not_lt.mp hge).trans (child_least l _ c hc rfl)
    · exact h.others c hc hp

/-! ## Push and pop -/

theorem push_perm (l : List α) (x : α) : (push key l x).Perm (x :: l) :=
  (up_perm _ _).trans (List.perm_append_singleton x l)

theorem ordered_push (h : Ordered (rank key l)) (x : α) : Ordered (rank key (push key l x)) := by
  have hold : ∀ {c}, c < l.length → rank key (l ++ [x]) c = rank key l c := fun hc => by
    rw [rank, List.getElem?_append_left hc, rank]
  have hend : ∀ {c}, l.length < c → rank key (l ++ [x]) c = ⊤ := fun hc =>
    rank_of_le (by rw [List.length_append, List.length_singleton]; omega)
  refine ordered_up ⟨fun c hc hne => ?_, fun _ c hc hp => ?_⟩
  · rcases Nat.lt_or_gt_of_ne hne with hlt | hgt
    · rw [hold hlt, hold ((parent_lt hc).trans hlt)]
      exact h c hc
    · rw [hend hgt]
      exact le_top
  · have hgt := parent_lt hc
    rw [hp] at hgt
    rw [hend hgt]
    exact le_top

theorem dropLast_swap_perm (x : α) (l : List α) : (swap (x :: l) 0 l.length).dropLast.Perm l := by
  have hne : swap (x :: l) 0 l.length ≠ [] := List.ne_nil_of_length_pos (by simp)
  have hlast : (swap (x :: l) 0 l.length).getLast hne = x := by
    have h := getElem?_swap (l := x :: l) (i := 0) (j := l.length) (by simp) (by simp) l.length
    rw [Equiv.swap_apply_right] at h
    rw [List.getLast_eq_getElem]
    simpa [List.getElem?_eq_some_iff] using h
  have hsplit := List.dropLast_append_getLast hne
  rw [hlast] at hsplit
  refine List.Perm.cons_inv (a := x) ((List.perm_append_singleton x _).symm.trans ?_)
  rw [hsplit]
  exact swap_perm _ _ _

theorem pop_perm (x : α) (l : List α) : (pop key (x :: l)).Perm l :=
  (down_perm _ _).trans (dropLast_swap_perm x l)

theorem ordered_pop {x : α} (h : Ordered (rank key (x :: l))) : Ordered (rank key (pop key (x :: l))) := by
  have hlen : (swap (x :: l) 0 l.length).dropLast.length = l.length := (dropLast_swap_perm x l).length_eq
  have hsame : ∀ {c}, 0 < c → c < l.length → rank key (swap (x :: l) 0 l.length).dropLast c = rank key (x :: l) c := by
    intro c hc hlt
    rw [rank, rank, List.getElem?_dropLast, if_pos (by simpa using hlt), getElem?_swap (by simp) (by simp),
      Equiv.swap_apply_of_ne_of_ne hc.ne' hlt.ne]
  refine ordered_down ⟨fun c hc hp => ?_, fun h0 => absurd h0 (Nat.lt_irrefl 0)⟩
  by_cases hlt : c < l.length
  · rw [List.length_cons, Nat.add_sub_cancel, hsame hc hlt, hsame (Nat.pos_of_ne_zero hp) ((parent_lt hc).trans hlt)]
    exact h c hc
  · rw [rank_of_le (i := c) (by simpa [hlen] using hlt)]
    exact le_top

theorem root_least {x : α} (h : Ordered (rank key (x :: l))) : ∀ y ∈ x :: l, key x ≤ key y := by
  intro y hy
  obtain ⟨c, hc, rfl⟩ := List.mem_iff_getElem.mp hy
  have hle := h.root_le c
  rw [rank, rank, List.getElem?_eq_getElem hc] at hle
  exact WithTop.coe_le_coe.mp hle

end

end Heap
end AkwaDB
