import Mathlib.Data.List.Nodup
import Mathlib.Data.List.TakeWhile

/-!
# AkwaDB.Lib.Chain

Singly linked lists: `next` gives what follows a node, and the head is `none`.

- `walk_eq`: walking on while a test passes ends at the last of the nodes that pass.
- `Chain.splice`: a node that is linked in behind another.
-/

namespace AkwaDB

section
variable {ι : Type}

def Chain (next : Option ι → Option ι) : Option ι → List ι → Prop
  | a, [] => next a = none
  | a, x :: xs => next a = some x ∧ Chain next (some x) xs

def lastFrom (a : Option ι) (l : List ι) : Option ι := l.foldl (fun _ x => some x) a

def walk (next : Option ι → Option ι) (p : ι → Bool) : Nat → Option ι → Option ι
  | 0, a => a
  | fuel + 1, a =>
    match next a with
    | none => a
    | some x => if p x then walk next p fuel (some x) else a

variable {next : Option ι → Option ι} {p : ι → Bool} {a : Option ι} {l m : List ι}

theorem lastFrom_snoc (a : Option ι) (l : List ι) (x : ι) : lastFrom a (l ++ [x]) = some x := by
  rw [lastFrom, List.foldl_append]
  rfl

theorem lastFrom_append (a : Option ι) (l m : List ι) : lastFrom a (l ++ m) = lastFrom (lastFrom a l) m :=
  List.foldl_append

theorem lastFrom_mem (a : Option ι) (l : List ι) : lastFrom a l ∈ a :: l.map some := by
  induction l generalizing a with
  | nil => exact List.mem_cons_self
  | cons x l ih => exact List.mem_cons_of_mem _ (ih (some x))

theorem Chain.of_append (h : Chain next a (l ++ m)) : Chain next (lastFrom a l) m := by
  induction l generalizing a with
  | nil => exact h
  | cons x l ih => exact ih h.2

theorem walk_eq {fuel : Nat} (h : Chain next a l) (hf : l.length ≤ fuel) :
    walk next p fuel a = lastFrom a (l.takeWhile p) := by
  induction fuel generalizing a l with
  | zero =>
    rw [List.length_eq_zero_iff.mp (Nat.le_zero.mp hf)]
    rfl
  | succ fuel ih =>
    rw [walk]
    cases l with
    | nil =>
      rw [h]
      rfl
    | cons x l =>
      rw [h.1]
      dsimp only
      split
      · rename_i hx
        rw [List.takeWhile_cons_of_pos hx]
        exact ih h.2 (Nat.le_of_succ_le_succ hf)
      · rename_i hx
        rw [List.takeWhile_cons_of_neg hx]
        rfl

theorem Chain.congr {next' : Option ι → Option ι} (h : Chain next a l) (heq : ∀ b ∈ a :: l.map some, next' b = next b) :
    Chain next' a l := by
  induction l generalizing a with
  | nil => exact (heq a List.mem_cons_self).trans h
  | cons x l ih =>
    refine ⟨(heq a List.mem_cons_self).trans h.1, ih h.2 fun b hb => heq b ?_⟩
    exact List.mem_cons_of_mem _ hb

variable [DecidableEq ι]

def linked (next : Option ι → Option ι) (b : Option ι) (x : ι) : Option ι → Option ι := fun a =>
  if a = some x then next b else if a = b then some x else next a

theorem Chain.splice {x : ι} (h : Chain next a (l ++ m)) (hnodup : (a :: (l ++ m).map some).Nodup)
    (hx : some x ∉ a :: (l ++ m).map some) : Chain (linked next (lastFrom a l) x) a (l ++ x :: m) := by
  induction l generalizing a with
  | nil =>
    have hax : a ≠ some x := fun heq => hx (heq ▸ List.mem_cons_self)
    obtain ⟨ha, -⟩ := List.nodup_cons.mp hnodup
    have hold : ∀ b ∈ m.map some, linked next a x b = next b := by
      intro b hb
      have hbx : b ≠ some x := fun heq => hx (heq ▸ List.mem_cons_of_mem _ hb)
      have hba : b ≠ a := fun heq => ha (heq ▸ hb)
      rw [linked, if_neg hbx, if_neg hba]
    refine ⟨by rw [lastFrom, List.foldl_nil, linked, if_neg hax, if_pos rfl], ?_⟩
    cases m with
    | nil => exact (if_pos rfl).trans h
    | cons y m => exact ⟨(if_pos rfl).trans h.1, h.2.congr hold⟩
  | cons y l ih =>
    obtain ⟨ha, htail⟩ := List.nodup_cons.mp hnodup
    refine ⟨?_, ih h.2 htail fun hmem => hx (List.mem_cons_of_mem _ hmem)⟩
    have hlast : lastFrom a (y :: l) ∈ (y :: l ++ m).map some := by
      have hmem := lastFrom_mem (some y) l
      rw [List.cons_append, List.map_cons, List.map_append]
      exact List.mem_append_left (m.map some) hmem
    have hax : a ≠ some x := fun heq => hx (heq ▸ List.mem_cons_self)
    have hab : a ≠ lastFrom a (y :: l) := fun heq => ha (heq ▸ hlast)
    rw [linked, if_neg hax, if_neg hab]
    exact h.1

end
end AkwaDB
