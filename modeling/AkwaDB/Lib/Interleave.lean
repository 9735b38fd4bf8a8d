import Mathlib.Data.List.Basic

/-!
# AkwaDB.Lib.Interleave

Processes of one type that take turns over a shared state. A step belongs to one process: it changes
the shared state and that process, and leaves the others as they are (`Pool.step_split`).
-/

namespace AkwaDB

variable {σ α π : Type}

theorem mem_middle {x p : π} {l r : List π} : x ∈ l ++ p :: r ↔ x = p ∨ x ∈ l ++ r := by
  simp only [List.mem_append, List.mem_cons]
  exact or_left_comm

theorem set_split {l : List π} {i : Nat} {p : π} (h : l[i]? = some p) (q : π) :
    ∃ a b, l = a ++ p :: b ∧ l.set i q = a ++ q :: b := by
  obtain ⟨hi, rfl⟩ := List.getElem?_eq_some_iff.mp h
  refine ⟨l.take i, l.drop (i + 1), ?_, ?_⟩
  · rw [List.getElem_cons_drop, List.take_append_drop]
  · rw [List.set_eq_take_append_cons_drop, if_pos hi]

/-! What every process contributes, when one of them is replaced. -/

section Contributions

variable {β : Type} {f : π → Option β} {l r : List π} {p q : π}

theorem filterMap_middle_congr (h : f q = f p) :
    (l ++ q :: r).filterMap f = (l ++ p :: r).filterMap f := by
  simp only [List.filterMap_append, List.filterMap_cons, h]

theorem filterMap_middle_none (h : f p = none) :
    (l ++ p :: r).filterMap f = (l ++ r).filterMap f := by
  simp only [List.filterMap_append, List.filterMap_cons, h]

theorem filterMap_middle_some {b : β} (h : f p = some b) :
    ((l ++ p :: r).filterMap f).Perm (b :: (l ++ r).filterMap f) := by
  simp only [List.filterMap_append, List.filterMap_cons, h]
  exact List.perm_middle

theorem filterMap_middle (f : π → Option β) (l r : List π) (p : π) :
    ((l ++ p :: r).filterMap f).Perm ((f p).toList ++ (l ++ r).filterMap f) := by
  cases h : f p with
  | none => rw [filterMap_middle_none h]; exact List.Perm.refl _
  | some b => exact filterMap_middle_some h

end Contributions

structure Pool (σ π : Type) where
  shared : σ
  procs : List π

namespace Pool

def step (f : σ → α → π → Option (σ × π)) (s : Pool σ π) (a : Nat × α) : Option (Pool σ π) :=
  s.procs[a.1]?.bind fun p => (f s.shared a.2 p).map fun r => ⟨r.1, s.procs.set a.1 r.2⟩

theorem step_split {f : σ → α → π → Option (σ × π)} {s s' : Pool σ π} {a : Nat × α}
    (h : step f s a = some s') :
    ∃ l p r q, s.procs[a.1]? = some p ∧ s.procs = l ++ p :: r ∧
      f s.shared a.2 p = some (s'.shared, q) ∧ s'.procs = l ++ q :: r := by
  obtain ⟨p, hp, h⟩ := Option.bind_eq_some_iff.mp h
  obtain ⟨⟨sh', q⟩, hq, rfl⟩ := Option.map_eq_some_iff.mp h
  obtain ⟨l, r, hl, hset⟩ := set_split hp q
  exact ⟨l, p, r, q, hp, hl, hq, hset⟩

theorem step_middle (f : σ → α → π → Option (σ × π)) (sh : σ) (l r : List π) (p : π) (a : α) :
    step f ⟨sh, l ++ p :: r⟩ (l.length, a) = (f sh a p).map fun x => ⟨x.1, l ++ x.2 :: r⟩ := by
  have hset : ∀ q, (l ++ p :: r).set l.length q = l ++ q :: r := fun q => by simp
  have hget : (l ++ p :: r)[l.length]? = some p := by simp
  simp only [step, hget, hset, Option.bind_some]

theorem forall_middle {P : π → Prop} {l r : List π} {q : π} (hq : P q) (h : ∀ x ∈ l ++ r, P x) :
    ∀ x ∈ l ++ q :: r, P x := by
  intro x hx
  cases mem_middle.mp hx with
  | inl heq => exact heq ▸ hq
  | inr hx => exact h x hx

end Pool
end AkwaDB
