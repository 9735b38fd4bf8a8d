import Mathlib.Data.List.Basic

/-!
# AkwaDB.Lib.Reach

Runs of a transition function over a list of actions, with a condition on the steps taken.

`run_invariant` is the induction every safety result uses: what each step that meets the condition
preserves, a run all of whose steps meet it preserves.
-/

namespace AkwaDB

variable {σ α : Type} {step : σ → α → Option σ}

/-- Take the actions in order; `none` when one of them is not enabled. -/
def run (step : σ → α → Option σ) : σ → List α → Option σ
  | s, [] => some s
  | s, a :: as => (step s a).bind fun s' => run step s' as

/-- Every step of the run meets the condition in the state it is taken in. -/
def Guarded (step : σ → α → Option σ) (ok : σ → α → Prop) : σ → List α → Prop
  | _, [] => True
  | s, a :: as => ok s a ∧ ∀ s', step s a = some s' → Guarded step ok s' as

instance instDecidableGuarded {ok : σ → α → Prop} [∀ s a, Decidable (ok s a)] :
    (s : σ) → (as : List α) → Decidable (Guarded step ok s as)
  | _, [] => isTrue trivial
  | s, a :: as =>
    match h : step s a with
    | none => decidable_of_iff (ok s a) (by simp [Guarded, h])
    | some s' =>
      have : Decidable (Guarded step ok s' as) := instDecidableGuarded s' as
      decidable_of_iff (ok s a ∧ Guarded step ok s' as) (by simp [Guarded, h])

theorem exists_of_any {o : Option σ} {P : σ → Bool} (h : o.any P = true) : ∃ s, o = some s ∧ P s = true := by
  cases o with
  | none => cases h
  | some s => exact ⟨s, rfl, h⟩

theorem run_cons {s s' : σ} {a : α} {as : List α} (h : run step s (a :: as) = some s') :
    ∃ m, step s a = some m ∧ run step m as = some s' := Option.bind_eq_some_iff.mp h

theorem run_append {s s' : σ} {as bs : List α} :
    run step s (as ++ bs) = some s' ↔ ∃ m, run step s as = some m ∧ run step m bs = some s' := by
  induction as generalizing s with
  | nil => simp [run]
  | cons a as ih =>
    constructor
    · intro h
      obtain ⟨m, hm, hr⟩ := run_cons h
      obtain ⟨k, hk, hb⟩ := ih.mp hr
      exact ⟨k, by rw [run, hm]; exact hk, hb⟩
    · rintro ⟨k, hk, hb⟩
      obtain ⟨m, hm, hr⟩ := run_cons hk
      rw [List.cons_append, run, hm]
      exact ih.mpr ⟨k, hr, hb⟩

theorem guarded_step {ok : σ → α → Prop} {s s' : σ} {a : α} {as : List α} (hok : ok s a)
    (hs : step s a = some s') (h : Guarded step ok s' as) : Guarded step ok s (a :: as) := by
  refine ⟨hok, fun t ht => ?_⟩
  rw [← Option.some.inj (hs.symm.trans ht)]
  exact h

theorem guarded_append {ok : σ → α → Prop} {s : σ} {as bs : List α} (has : Guarded step ok s as)
    (hbs : ∀ m, run step s as = some m → Guarded step ok m bs) : Guarded step ok s (as ++ bs) := by
  induction as generalizing s with
  | nil => exact hbs s rfl
  | cons a as ih =>
    refine ⟨has.1, fun m hm => ih (has.2 m hm) fun k hk => hbs k ?_⟩
    rw [run, hm]
    exact hk

/-- A run that is matched step by step by one of another system over the same states. -/
theorem run_map {β : Type} {step' : σ → β → Option σ} {ok : σ → α → Prop} {ok' : σ → β → Prop} {f : β → α}
    (h : ∀ {s b s'}, ok' s b → step' s b = some s' → step s (f b) = some s' ∧ ok s (f b)) {bs : List β} :
    ∀ {s s' : σ}, Guarded step' ok' s bs → run step' s bs = some s' →
      Guarded step ok s (bs.map f) ∧ run step s (bs.map f) = some s' := by
  induction bs with
  | nil => exact fun _ hr => ⟨trivial, hr⟩
  | cons b bs ih =>
    intro s s' hg hr
    obtain ⟨m, hm, hr⟩ := run_cons hr
    obtain ⟨hstep, hok⟩ := h hg.1 hm
    obtain ⟨hg', hr'⟩ := ih (hg.2 m hm) hr
    refine ⟨guarded_step hok hstep hg', ?_⟩
    rw [List.map_cons, run, hstep]
    exact hr'

theorem guarded_of_forall {ok : σ → α → Prop} {as : List α} (h : ∀ s, ∀ a ∈ as, ok s a) :
    ∀ s, Guarded step ok s as := by
  induction as with
  | nil => exact fun _ => trivial
  | cons a as ih =>
    intro s
    exact ⟨h s a (by simp), fun s' _ => ih (fun t b hb => h t b (by simp [hb])) s'⟩

theorem Guarded.and {ok ok' : σ → α → Prop} {as : List α} {s : σ} (h : Guarded step ok s as)
    (h' : Guarded step ok' s as) : Guarded step (fun s a => ok s a ∧ ok' s a) s as := by
  induction as generalizing s with
  | nil => trivial
  | cons a as ih => exact ⟨⟨h.1, h'.1⟩, fun s' hs' => ih (h.2 s' hs') (h'.2 s' hs')⟩

theorem Guarded.and_forall {ok : σ → α → Prop} {P : α → Prop} {as : List α} {s : σ} (h : Guarded step ok s as)
    (hP : ∀ a ∈ as, P a) : Guarded step (fun s a => ok s a ∧ P a) s as :=
  h.and (guarded_of_forall (fun _ => hP) s)

theorem guarded_of_invariant (Inv : σ → Prop) {ok ok' : σ → α → Prop}
    (hstep : ∀ {s a s'}, Inv s → ok' s a → step s a = some s' → Inv s')
    (himp : ∀ {s a}, Inv s → ok' s a → ok s a) {as : List α} :
    ∀ {s : σ}, Inv s → Guarded step ok' s as → Guarded step ok s as := by
  induction as with
  | nil => exact fun _ _ => trivial
  | cons a as ih =>
    intro s hi hg
    exact ⟨himp hi hg.1, fun s' hs' => ih (hstep hi hg.1 hs') (hg.2 s' hs')⟩

theorem run_invariant {Inv : σ → Prop} {ok : σ → α → Prop}
    (hstep : ∀ {s a s'}, Inv s → ok s a → step s a = some s' → Inv s') :
    ∀ {as : List α} {s s' : σ}, Inv s → Guarded step ok s as → run step s as = some s' →
      Inv s' := by
  intro as
  induction as with
  | nil =>
    intro s s' hi _ hr
    cases hr
    exact hi
  | cons a as ih =>
    intro s s' hi hg hr
    obtain ⟨m, hm, hr⟩ := run_cons hr
    exact ih (hstep hi hg.1 hm) (hg.2 m hm) hr

end AkwaDB
