import Mathlib.Data.List.Basic
import Mathlib.Data.Int.ModEq

/-!
# AkwaDB.Lib.Ring

A ring buffer: a fixed array with the position of the oldest element and the position that is
written next. When it is full, the oldest element is overwritten.

* `toList`      — the elements, oldest first,
* `toList_push` — the last so many of what was pushed.
-/

namespace AkwaDB

structure Ring (α : Type) where
  slots : List α
  capacity : Nat
  head : Nat
  tail : Nat
  count : Nat
  slots_length : slots.length = capacity
  room : 0 < capacity
  head_lt : head < capacity
  count_le : count ≤ capacity
  tail_eq : tail = (head + count) % capacity

namespace Ring

variable {α : Type}

def make (capacity : Nat) (h : 0 < capacity) (x : α) : Ring α :=
  ⟨List.replicate capacity x, capacity, 0, 0, 0, List.length_replicate, h, h, Nat.zero_le _,
    (Nat.zero_mod _).symm⟩

def push (r : Ring α) (x : α) : Ring α :=
  if h : r.count < r.capacity then
    { r with
      slots := r.slots.set r.tail x
      tail := (r.tail + 1) % r.capacity
      count := r.count + 1
      slots_length := by rw [List.length_set, r.slots_length]
      count_le := h
      tail_eq := by rw [r.tail_eq, Nat.mod_add_mod, Nat.add_assoc] }
  else
    { r with
      slots := r.slots.set r.tail x
      tail := (r.tail + 1) % r.capacity
      head := (r.head + 1) % r.capacity
      slots_length := by rw [List.length_set, r.slots_length]
      head_lt := Nat.mod_lt _ r.room
      tail_eq := by rw [r.tail_eq, Nat.mod_add_mod, Nat.mod_add_mod, Nat.add_right_comm] }

def toList (r : Ring α) : List α :=
  (List.range r.count).filterMap fun i => r.slots[(r.head + i) % r.capacity]?

@[simp] theorem toList_make (capacity : Nat) (h : 0 < capacity) (x : α) :
    (make capacity h x).toList = [] := rfl

@[simp] theorem capacity_push (r : Ring α) (x : α) : (r.push x).capacity = r.capacity := by
  unfold push
  split <;> rfl

theorem length_toList (r : Ring α) : r.toList.length = r.count := by
  have hsome : ∀ i ∈ List.range r.count,
      (r.slots[(r.head + i) % r.capacity]?).isSome = true := fun i _ => by
    rw [List.getElem?_eq_getElem (by rw [r.slots_length]; exact Nat.mod_lt _ r.room)]
    rfl
  rw [toList, List.length_filterMap_eq_countP, List.countP_eq_length.mpr hsome, List.length_range]

theorem mod_ne {n i j : Nat} (hi : i < n) (hj : j < n) (h : i ≠ j) (a : Nat) : (a + i) % n ≠ (a + j) % n := by
  intro heq
  have hmod : i % n = j % n := Nat.ModEq.add_left_cancel (Nat.ModEq.refl a) heq
  rw [Nat.mod_eq_of_lt hi, Nat.mod_eq_of_lt hj] at hmod
  exact h hmod

theorem getElem?_set_tail {r : Ring α} {x : α} {i : Nat} (hi : i < r.capacity)
    (hne : i ≠ r.count % r.capacity) :
    (r.slots.set r.tail x)[(r.head + i) % r.capacity]? = r.slots[(r.head + i) % r.capacity]? := by
  rw [List.getElem?_set_ne]
  rw [r.tail_eq, ← Nat.add_mod_mod]
  exact mod_ne (Nat.mod_lt _ r.room) hi (Ne.symm hne) r.head

theorem toList_push (r : Ring α) (x : α) :
    (r.push x).toList = (r.toList ++ [x]).drop (r.count + 1 - r.capacity) := by
  have hlast : (r.slots.set r.tail x)[r.tail]? = some x := by
    rw [List.getElem?_set_self]
    rw [r.slots_length, r.tail_eq]
    exact Nat.mod_lt _ r.room
  unfold push
  split
  · -- there is room: the elements stay where they are
    rename_i hlt
    have hdrop : r.count + 1 - r.capacity = 0 := by omega
    rw [hdrop, List.drop_zero, toList, toList]
    simp only [List.range_succ, List.filterMap_append, List.filterMap_cons,
      List.filterMap_nil]
    rw [← r.tail_eq, hlast]
    congr 1
    refine List.filterMap_congr fun i hi => ?_
    have hi := List.mem_range.mp hi
    exact getElem?_set_tail (by omega) (by rw [Nat.mod_eq_of_lt hlt]; omega)
  · -- it is full: the new element is where the oldest one was
    rename_i hge
    have hfull : r.count = r.capacity := Nat.le_antisymm r.count_le (Nat.le_of_not_lt hge)
    have hroom := r.room
    obtain ⟨n, hn⟩ : ∃ n, r.count = n + 1 := ⟨r.count - 1, by omega⟩
    have hdrop : r.count + 1 - r.capacity = 1 := by omega
    have hold : r.toList = (r.slots[r.head % r.capacity]?).toList ++
        (List.range n).filterMap fun i => r.slots[(r.head + (i + 1)) % r.capacity]? := by
      rw [toList, hn, List.range_succ_eq_map, List.filterMap_cons, List.filterMap_map]
      rw [Nat.add_zero]
      cases r.slots[r.head % r.capacity]? with
      | none => rfl
      | some y => rfl
    have hhead : r.slots[r.head % r.capacity]? =
        some (r.slots.get ⟨r.head, by rw [r.slots_length]; exact r.head_lt⟩) := by
      rw [Nat.mod_eq_of_lt r.head_lt]
      exact List.getElem?_eq_getElem (by rw [r.slots_length]; exact r.head_lt)
    rw [hdrop, hold, hhead, toList]
    simp only [Option.toList_some, List.cons_append, List.drop_one, List.tail_cons,
      hn, List.range_succ, List.filterMap_append, List.filterMap_cons, List.filterMap_nil]
    have hend : ((r.head + 1) % r.capacity + n) % r.capacity = r.tail := by
      rw [Nat.mod_add_mod, r.tail_eq, hn]
      congr 1
      omega
    rw [hend, hlast]
    congr 1
    refine List.filterMap_congr fun i hi => ?_
    have hi := List.mem_range.mp hi
    have hpos : ((r.head + 1) % r.capacity + i) % r.capacity = (r.head + (i + 1)) % r.capacity := by
      rw [Nat.mod_add_mod]
      congr 1
      omega
    rw [hpos]
    exact getElem?_set_tail (by omega) (by rw [hfull, Nat.mod_self]; omega)

end Ring
end AkwaDB
