import Mathlib.Data.List.Basic

/-!
# AkwaDB.Lib.Slice

Slices of Go: an array from the first element of the slice to the end of its capacity, of which the first `len` elements
belong to the slice. Elements behind them are what earlier operations left there.

* `view`   — the elements of the slice,
* `push`   — `append` of one element, in place while there is room,
* `remove` — `append(s[:i], s[i+1:]...)`, in place,
* `skip`   — `s[i:]`.

Each comes to the operation on lists, whatever stands behind the slice (`view_push`, `view_remove`, `view_skip`).
-/

namespace AkwaDB

structure Slice (α : Type) where
  backing : List α
  len : Nat
  len_le : len ≤ backing.length

theorem eraseIdx_findIdx {α : Type} (p : α → Bool) (l : List α) : l.eraseIdx (l.findIdx p) = l.eraseP p := by
  induction l with
  | nil => rfl
  | cons a l ih => cases h : p a <;> simp [List.findIdx_cons, h, ih]

namespace Slice

variable {α : Type}

def view (s : Slice α) : List α := s.backing.take s.len

def nil : Slice α := ⟨[], 0, Nat.zero_le _⟩

/-- `spare` is the rest of a new array. -/
def push (spare : List α) (s : Slice α) (x : α) : Slice α :=
  if h : s.len < s.backing.length then ⟨s.backing.set s.len x, s.len + 1, by rw [List.length_set]; exact h⟩
  else ⟨s.view ++ x :: spare, s.len + 1, by
    rw [List.length_append, view, List.length_take_of_le s.len_le, List.length_cons]
    omega⟩

def remove (s : Slice α) (i : Nat) : Slice α :=
  if h : i < s.len then
    ⟨s.backing.take i ++ (s.view.drop (i + 1) ++ s.backing.drop (s.len - 1)), s.len - 1, by
      have := s.len_le
      simp only [List.length_append, List.length_take, List.length_drop, view]
      omega⟩
  else s

def skip (s : Slice α) (i : Nat) : Slice α :=
  ⟨s.backing.drop i, s.len - i, by
    have := s.len_le
    rw [List.length_drop]
    omega⟩

/-- `s[len(s)-1] = z; s = s[:len(s)-1]`, after the removal. -/
def clearBehind (s : Slice α) (z : α) : Slice α :=
  ⟨s.backing.set s.len z, s.len, by rw [List.length_set]; exact s.len_le⟩

@[simp] theorem view_nil : (nil : Slice α).view = [] := rfl

@[simp] theorem length_view (s : Slice α) : s.view.length = s.len := List.length_take_of_le s.len_le

@[simp] theorem view_push (spare : List α) (s : Slice α) (x : α) : (s.push spare x).view = s.view ++ [x] := by
  unfold push
  split
  · rename_i h
    rw [view, view, List.take_succ_eq_append_getElem (by rw [List.length_set]; exact h), List.getElem_set_self,
      List.take_set_of_le (Nat.le_refl _)]
  · have hlen := s.length_view
    show (s.view ++ x :: spare).take (s.len + 1) = _
    rw [← hlen, List.take_length_add_append]
    rfl

@[simp] theorem view_remove (s : Slice α) (i : Nat) : (s.remove i).view = s.view.eraseIdx i := by
  unfold remove
  split
  · rename_i h
    have hle := s.len_le
    have htake : s.backing.take i = s.view.take i := by rw [view, List.take_take, Nat.min_eq_left (Nat.le_of_lt h)]
    show (s.backing.take i ++ (s.view.drop (i + 1) ++ s.backing.drop (s.len - 1))).take (s.len - 1) = _
    rw [← List.append_assoc, htake, List.eraseIdx_eq_take_drop_succ]
    refine List.take_left' ?_
    rw [List.length_append, List.length_take, List.length_drop, length_view]
    omega
  · rw [List.eraseIdx_of_length_le (by rw [length_view]; omega)]

@[simp] theorem view_skip (s : Slice α) (i : Nat) : (s.skip i).view = s.view.drop i := by
  rw [view, skip, view, List.drop_take]

@[simp] theorem view_clearBehind (s : Slice α) (z : α) : (s.clearBehind z).view = s.view :=
  List.take_set_of_le (Nat.le_refl _)

end Slice
end AkwaDB
