import AkwaDB.Lib.Reach

/-!
# AkwaDB.Lib.TwoRun

Two runs of one stateful program.

`Tied P Q x`: from two states that are related by `P` the program returns the same value twice and leaves
states that are related by `Q`. The rules follow the program: `pure`, `bind`, a conditional, a list of
programs one after the other.
-/

namespace AkwaDB

variable {σ α β : Type} {P Q R : σ → σ → Prop}

def Tied (P Q : σ → σ → Prop) (x : StateM σ α) : Prop :=
  ∀ s t, P s t → (x.run s).1 = (x.run t).1 ∧ Q (x.run s).2 (x.run t).2

namespace Tied

theorem weaken {P' Q' : σ → σ → Prop} {x : StateM σ α} (h : Tied P Q x) (hp : ∀ s t, P' s t → P s t)
    (hq : ∀ s t, Q s t → Q' s t) : Tied P' Q' x := fun s t hst =>
  ⟨(h s t (hp s t hst)).1, hq _ _ (h s t (hp s t hst)).2⟩

theorem pure (a : α) (h : ∀ s t, P s t → Q s t) : Tied P Q (Pure.pure a : StateM σ α) := fun s t hst =>
  ⟨rfl, h s t hst⟩

theorem bind_of {V : α → Prop} {x : StateM σ α} {f : α → StateM σ β} (hv : ∀ s, V (x.run s).1) (hx : Tied P Q x)
    (hf : ∀ a, V a → Tied Q R (f a)) : Tied P R (x >>= f) := by
  intro s t hst
  obtain ⟨hval, hrel⟩ := hx s t hst
  have hnext := hf (x.run s).1 (hv s) _ _ hrel
  rw [StateT.run_bind, StateT.run_bind]
  show (((f (x.run s).1).run (x.run s).2)).1 = ((f (x.run t).1).run (x.run t).2).1 ∧
    R ((f (x.run s).1).run (x.run s).2).2 ((f (x.run t).1).run (x.run t).2).2
  rw [← hval]
  exact hnext

theorem bind {x : StateM σ α} {f : α → StateM σ β} (hx : Tied P Q x) (hf : ∀ a, Tied Q R (f a)) :
    Tied P R (x >>= f) :=
  hx.bind_of (V := fun _ => True) (fun _ => trivial) fun a _ => hf a

theorem map {x : StateM σ α} (f : α → β) (hx : Tied P Q x) : Tied P Q (f <$> x) := fun s t hst =>
  ⟨congrArg f (hx s t hst).1, (hx s t hst).2⟩

theorem read (f : σ → α) (hf : ∀ s t, P s t → f s = f t) (h : ∀ s t, P s t → Q s t) :
    Tied P Q (f <$> get : StateM σ α) := fun s t hst => ⟨hf s t hst, h s t hst⟩

theorem ite {c : Prop} [Decidable c] {x y : StateM σ α} (hx : c → Tied P Q x) (hy : ¬ c → Tied P Q y) :
    Tied P Q (if c then x else y) := by
  split
  · exact hx ‹_›
  · exact hy ‹_›

theorem mapM {f : α → StateM σ β} {l : List α} (h : ∀ a ∈ l, Tied P P (f a)) : Tied P P (l.mapM f) := by
  induction l with
  | nil => exact pure [] fun _ _ hst => hst
  | cons a l ih =>
    rw [List.mapM_cons]
    refine (h a List.mem_cons_self).bind fun b => ?_
    exact (ih fun c hc => h c (List.mem_cons_of_mem a hc)).bind fun bs => pure _ fun _ _ hst => hst

end Tied

theorem run_mapM_read {call : α → StateM σ β} {f : σ → α → β} (h : ∀ a s, (call a).run s = (f s a, s)) (l : List α)
    (s : σ) : (l.mapM call).run s = (l.map (f s), s) := by
  induction l with
  | nil => rfl
  | cons a l ih =>
    rw [List.mapM_cons, StateT.run_bind, h]
    show StateT.run (l.mapM call >>= fun bs => Pure.pure (f s a :: bs)) s = _
    rw [StateT.run_bind, ih]
    rfl

variable {τ : Type} {S : σ → τ → Prop}

end AkwaDB
