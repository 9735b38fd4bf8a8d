import AkwaDB.Lib.Newest
import Mathlib.Data.List.Flatten

/-!
# AkwaDB.Lib.Layers

Versioned keys in a stack of layers, against the log of all versions ever written.

- A lookup stops at the first layer with an answer. When of every key the layers go from newer to
  older (`Descends`), that answer is the newest of all layers together (`layered_eq_newest_flatten`).
- A store may forget versions no reader at or above a horizon can see, and what reads as absent
  altogether. `Covers` says what it must still hold; `Covers.read` is that every reader at or above
  the horizon gets from the store what it would get from the log.
-/

namespace AkwaDB

variable {α κ : Type} {key : α → κ} {f : α → Nat} {p : α → Bool}

def layered (f : α → Nat) (p : α → Bool) (layers : List (List α)) : Option α :=
  layers.findSome? (newest f p)

/-- Of every key that both hold, `a` is newer than `b` throughout. -/
def NewerThan (key : α → κ) (f : α → Nat) (a b : List α) : Prop :=
  ∀ x ∈ a, ∀ y ∈ b, key x = key y → f y < f x

def Descends (key : α → κ) (f : α → Nat) (layers : List (List α)) : Prop :=
  layers.Pairwise (NewerThan key f)

theorem findSome?_flatMap {β γ : Type} {g : β → Option γ} {h : κ → List β} (l : List κ) :
    (l.flatMap h).findSome? g = l.findSome? fun a => (h a).findSome? g := by
  induction l with
  | nil => rfl
  | cons a l ih =>
    rw [List.flatMap_cons, List.findSome?_append, List.findSome?_cons, ih]
    cases (h a).findSome? g <;> rfl

theorem findSome?_congr {β γ : Type} {g h : β → Option γ} {l : List β}
    (hl : ∀ a ∈ l, g a = h a) : l.findSome? g = l.findSome? h := by
  induction l with
  | nil => rfl
  | cons a l ih =>
    rw [List.findSome?_cons, List.findSome?_cons, hl a (by simp), ih fun b hb => hl b (by simp [hb])]

theorem findSome?_orders_iff {β γ : Type} {g : β → Option γ} {l r : List β} (hr : r.Perm l) :
    (∀ order : List β, order.Perm l → order.findSome? g = r.findSome? g) ↔
      ∀ a ∈ l, ∀ b ∈ l, ∀ x y, g a = some x → g b = some y → x = y := by
  constructor
  · intro h a ha b hb x y hx hy
    -- the element that comes first decides
    have hfirst : ∀ c ∈ l, ∀ z, g c = some z → r.findSome? g = some z := by
      intro c hc z hz
      obtain ⟨s, t, rfl⟩ := List.append_of_mem hc
      rw [← h (c :: (s ++ t)) List.perm_middle.symm, List.findSome?_cons, hz]
    exact Option.some.inj ((hfirst a ha x hx).symm.trans (hfirst b hb y hy))
  · intro h order ho
    have hsub : ∀ {s t : List β} {x : γ}, s.Perm t → s.Perm l → s.findSome? g = some x →
        t.findSome? g = some x := by
      intro s t x hst hsl hs
      obtain ⟨a, ha, hax⟩ := List.exists_of_findSome?_eq_some hs
      cases ht : t.findSome? g with
      | none =>
        have := List.findSome?_eq_none_iff.mp ht a (hst.mem_iff.mp ha)
        rw [hax] at this
        cases this
      | some y =>
        obtain ⟨b, hb, hby⟩ := List.exists_of_findSome?_eq_some ht
        rw [h b (hsl.mem_iff.mp (hst.mem_iff.mpr hb)) a (hsl.mem_iff.mp ha) y x hby hax]
    cases hs : order.findSome? g with
    | some x => exact (hsub (ho.trans hr.symm) ho hs).symm
    | none =>
      cases ht : r.findSome? g with
      | none => rfl
      | some y =>
        rw [hsub (hr.trans ho.symm) hr ht] at hs
        cases hs

theorem layered_eq_newest {layers : List (List α)}
    (h : layers.Pairwise fun a b => ∀ x ∈ a, ∀ y ∈ b, p x = true → p y = true → f y < f x) :
    layered f p layers = newest f p layers.reverse.flatten := by
  induction layers with
  | nil => rfl
  | cons l ls ih =>
    obtain ⟨hl, hls⟩ := List.pairwise_cons.mp h
    rw [List.reverse_cons, List.flatten_append, List.flatten_singleton, newest_append_of_lt, ← ih hls, layered,
      List.findSome?_cons]
    · cases newest f p l <;> rfl
    · intro y hy x hx hpy hpx
      obtain ⟨m, hm, hym⟩ := List.mem_flatten.mp hy
      exact hl m (List.mem_reverse.mp hm) x hx y hym hpx hpy

theorem layered_eq_newest_flatten {layers : List (List α)}
    (h : layers.Pairwise fun a b => ∀ x ∈ a, ∀ y ∈ b, p x = true → p y = true → f y < f x) :
    layered f p layers = newest f p layers.flatten := by
  induction layers with
  | nil => rfl
  | cons l ls ih =>
    obtain ⟨hl, hls⟩ := List.pairwise_cons.mp h
    have hlt : ∀ y ∈ ls.flatten, ∀ x ∈ l, p y = true → p x = true → f y < f x := by
      intro y hy x hx hpy hpx
      obtain ⟨m, hm, hym⟩ := List.mem_flatten.mp hy
      exact hl m hm x hx y hym hpx hpy
    rw [List.flatten_cons, newest_append_comm fun x hx y hy hpx hpy => Nat.ne_of_gt (hlt y hy x hx hpy hpx),
      newest_append_of_lt hlt, ← ih hls, layered, List.findSome?_cons]
    cases newest f p l <;> rfl

/-- Where equal versions may stand in two layers, the answer is still one of the highest. -/
theorem layered_ge {layers : List (List α)}
    (h : layers.Pairwise fun a b => ∀ x ∈ a, ∀ y ∈ b, p x = true → p y = true → f y ≤ f x) {l : List α}
    (hl : l ∈ layers) {y : α} (hy : y ∈ l) (hp : p y = true) :
    ∃ x, layered f p layers = some x ∧ f y ≤ f x := by
  induction layers with
  | nil => cases hl
  | cons m ls ih =>
    obtain ⟨hm, hls⟩ := List.pairwise_cons.mp h
    rw [layered, List.findSome?_cons]
    cases hx : newest f p m with
    | some x =>
      refine ⟨x, rfl, ?_⟩
      rcases List.mem_cons.mp hl with rfl | hl
      · exact (newest_spec hx).max y hy hp
      · exact hm l hl x (newest_spec hx).mem y hy (newest_spec hx).pass hp
    | none =>
      rcases List.mem_cons.mp hl with rfl | hl
      · rw [newest_eq_none.mp hx y hy] at hp
        cases hp
      · exact ih hls hl

/-! ## What a store may forget -/

/-- Some reader at or above `m` sees `h`: every newer version of its key is above `m`. -/
def Visible (key : α → κ) (f : α → Nat) (m : Nat) (log : List α) (h : α) : Prop :=
  ∀ g ∈ log, key g = key h → f h < f g → m < f g

theorem Visible.mono {m m' : Nat} {log log' : List α} {h : α} (hv : Visible key f m' log' h)
    (hm : m ≤ m') (hsub : ∀ g ∈ log, g ∈ log') : Visible key f m log h := by
  intro g hg hk hlt
  exact Nat.lt_of_le_of_lt hm (hv g (hsub g hg) hk hlt)

/-- `same x h` is that the stored `x` reads as the logged `h`, and `gone h` that `h` reads as
absent. -/
structure Covers (key : α → κ) (f : α → Nat) (same : α → α → Prop) (gone : α → Prop) (m : Nat)
    (log store : List α) : Prop where
  sound : ∀ x ∈ store, ∃ h ∈ log, key x = key h ∧ f x = f h ∧ same x h
  complete : ∀ h ∈ log, Visible key f m log h →
    (∃ x ∈ store, key x = key h ∧ f x = f h) ∨
      gone h ∧ ∀ x ∈ store, key x = key h → f h < f x

variable {same same' : α → α → Prop} {gone gone' : α → Prop} {m m' : Nat} {log store store' : List α}

section
variable (hc : Covers key f same gone m log store)
include hc

theorem Covers.mono (hm : m ≤ m') (hsame : ∀ x h, same x h → same' x h)
    (hgone : ∀ h, gone h → gone' h) : Covers key f same' gone' m' log store := by
  refine ⟨?_, ?_⟩
  · intro x hx
    obtain ⟨h, hh, hk, hf, hs⟩ := hc.sound x hx
    exact ⟨h, hh, hk, hf, hsame x h hs⟩
  · intro h hh hv
    exact (hc.complete h hh (hv.mono hm fun _ hg => hg)).imp_right fun hg => ⟨hgone h hg.1, hg.2⟩

theorem Covers.congr (hmem : ∀ x, x ∈ store' ↔ x ∈ store) :
    Covers key f same gone m log store' := by
  refine ⟨fun x hx => hc.sound x ((hmem x).mp hx), ?_⟩
  intro h hh hv
  refine (hc.complete h hh hv).imp ?_ ?_
  · rintro ⟨x, hx, hxh⟩
    exact ⟨x, (hmem x).mpr hx, hxh⟩
  · rintro ⟨hg, hall⟩
    exact ⟨hg, fun x hx => hall x ((hmem x).mp hx)⟩

theorem Covers.write {xs : List α} (hself : ∀ x ∈ xs, same x x)
    (hnew : ∀ h ∈ log, gone h → ∀ x ∈ xs, key x = key h → f h < f x)
    (hmem : ∀ y, y ∈ store' ↔ y ∈ xs ∨ y ∈ store) :
    Covers key f same gone m (log ++ xs) store' := by
  refine ⟨?_, ?_⟩
  · intro y hy
    rcases (hmem y).mp hy with hy | hy
    · exact ⟨y, List.mem_append_right _ hy, rfl, rfl, hself y hy⟩
    · obtain ⟨h, hh, hyh⟩ := hc.sound y hy
      exact ⟨h, List.mem_append_left _ hh, hyh⟩
  · intro h hh hv
    rcases List.mem_append.mp hh with hold | hx
    · refine (hc.complete h hold (hv.mono (Nat.le_refl m) fun g hg =>
        List.mem_append_left _ hg)).imp ?_ ?_
      · rintro ⟨y, hy, hyh⟩
        exact ⟨y, (hmem y).mpr (Or.inr hy), hyh⟩
      · rintro ⟨hg, hall⟩
        refine ⟨hg, fun y hy hk => ?_⟩
        rcases (hmem y).mp hy with hy | hy
        · exact hnew h hold hg y hy hk
        · exact hall y hy hk
    · exact Or.inl ⟨h, (hmem h).mpr (Or.inl hx), rfl, rfl⟩

theorem Covers.rewrite (ins outs rest : List α) (hstore : ∀ x, x ∈ store ↔ x ∈ ins ∨ x ∈ rest)
    (hstore' : ∀ x, x ∈ store' ↔ x ∈ outs ∨ x ∈ rest)
    (hsound : ∀ y ∈ outs, ∃ x ∈ ins, key y = key x ∧ f y = f x ∧ ∀ h, same x h → same y h)
    (hkept : ∀ x ∈ ins, Visible key f m ins x → (∃ y ∈ outs, key y = key x ∧ f y = f x) ∨
      (∀ h ∈ log, key h = key x → f h = f x → gone h) ∧ (∀ y ∈ outs, key y ≠ key x) ∧
        ∀ y ∈ rest, key y = key x → f x < f y) :
    Covers key f same gone m log store' := by
  refine ⟨?_, ?_⟩
  · intro y hy
    rcases (hstore' y).mp hy with hy | hy
    · obtain ⟨x, hx, hk, hf, hs⟩ := hsound y hy
      obtain ⟨h, hh, hkh, hfh, hsh⟩ := hc.sound x ((hstore x).mpr (Or.inl hx))
      exact ⟨h, hh, hk.trans hkh, hf.trans hfh, hs h hsh⟩
    · exact hc.sound y ((hstore y).mpr (Or.inr hy))
  · intro h hh hv
    rcases hc.complete h hh hv with ⟨x, hx, hk, hf⟩ | ⟨hg, hall⟩
    · rcases (hstore x).mp hx with hxi | hxr
      · have hvis : Visible key f m ins x := by
          intro g hg hgk hlt
          obtain ⟨g', hg', hk', hf', _⟩ := hc.sound g ((hstore g).mpr (Or.inl hg))
          rw [hf']
          exact hv g' hg' (by rw [← hk', hgk, hk]) (by omega)
        rcases hkept x hxi hvis with ⟨y, hy, hyk, hyf⟩ | ⟨hgone, hout, hrest⟩
        · exact Or.inl ⟨y, (hstore' y).mpr (Or.inl hy), hyk.trans hk, hyf.trans hf⟩
        · refine Or.inr ⟨hgone h hh hk.symm hf.symm, fun y hy hyk => ?_⟩
          rcases (hstore' y).mp hy with hy | hy
          · exact absurd (hyk.trans hk.symm) (hout y hy)
          · have := hrest y hy (hyk.trans hk.symm)
            omega
      · exact Or.inl ⟨x, (hstore' x).mpr (Or.inr hxr), hk, hf⟩
    · refine Or.inr ⟨hg, fun y hy hyk => ?_⟩
      rcases (hstore' y).mp hy with hy | hy
      · obtain ⟨x, hx, hk, hf, _⟩ := hsound y hy
        rw [hf]
        exact hall x ((hstore x).mpr (Or.inl hx)) (hk.symm.trans hyk)
      · exact hall y ((hstore y).mpr (Or.inr hy)) hyk

end

section
variable [DecidableEq κ]

def seen (key : α → κ) (f : α → Nat) (k : κ) (r : Nat) (x : α) : Bool :=
  decide (key x = k) && decide (f x ≤ r)

theorem seen_iff {k : κ} {r : Nat} {x : α} : seen key f k r x = true ↔ key x = k ∧ f x ≤ r := by
  simp [seen]

theorem IsNewest.visible {k : κ} {r : Nat} {h : α} (hn : IsNewest f (seen key f k r) log h)
    (hr : m ≤ r) : Visible key f m log h := by
  intro g hg hk hlt
  by_contra hle
  have hs := seen_iff.mp hn.pass
  have := hn.max g hg (seen_iff.mpr ⟨hk.trans hs.1, by omega⟩)
  omega

/-- **What a reader finds in the store reads as the newest it may see of the log.** -/
theorem Covers.read_some (hc : Covers key f same gone m log store) {k : κ} {r : Nat} (hr : m ≤ r)
    {x : α} (hx : IsNewest f (seen key f k r) store x) :
    ∃ h, IsNewest f (seen key f k r) log h ∧ same x h := by
  obtain ⟨hk, hle⟩ := seen_iff.mp hx.pass
  obtain ⟨h, hh, hkh, hfh, hs⟩ := hc.sound x hx.mem
  have hseen : seen key f k r h = true := seen_iff.mpr ⟨hkh.symm.trans hk, by omega⟩
  obtain ⟨g, hg⟩ := newest_isSome f hh hseen
  have hg := newest_spec hg
  refine ⟨h, ⟨hh, hseen, fun y hy hys => ?_⟩, hs⟩
  have hgk := (seen_iff.mp hg.pass).1
  refine Nat.le_trans (hg.max y hy hys) ?_
  rcases hc.complete g hg.mem (hg.visible hr) with ⟨y, hy, hyk, hyf⟩ | ⟨_, hall⟩
  · have := hx.max y hy (seen_iff.mpr ⟨hyk.trans hgk, by have := (seen_iff.mp hg.pass).2; omega⟩)
    omega
  · have := hall x hx.mem (hk.trans hgk.symm)
    omega

theorem Covers.read_none (hc : Covers key f same gone m log store) {k : κ} {r : Nat} (hr : m ≤ r)
    (hnone : ∀ x ∈ store, seen key f k r x = false) {h : α}
    (hh : IsNewest f (seen key f k r) log h) : gone h := by
  obtain ⟨hk, hle⟩ := seen_iff.mp hh.pass
  rcases hc.complete h hh.mem (hh.visible hr) with ⟨x, hx, hxk, hxf⟩ | ⟨hg, _⟩
  · have hs : seen key f k r x = true := seen_iff.mpr ⟨hxk.trans hk, by omega⟩
    rw [hnone x hx] at hs
    cases hs
  · exact hg

end
end AkwaDB
