import Mathlib.Data.List.Chain
import Mathlib.Data.List.Nodup
import Mathlib.Logic.Function.Basic

/-!
# AkwaDB.Lib.Links

Doubly linked lists in a memory of nodes: `Between` says of a list of nodes that each points to the one after it and is
pointed back to, from one sentinel to the other.

- `Between.unlink`: a node is taken out from between two others.
- `Between.pushFront`: a node is put in behind the first sentinel.
-/

namespace AkwaDB

structure Links (ι : Type) where
  next : ι → ι
  prev : ι → ι

namespace Links

variable {ι : Type}

def Between (L : Links ι) (l : List ι) : Prop := l.IsChain fun x y => L.next x = y ∧ L.prev y = x

variable {L L' : Links ι} {l s t : List ι} {head n : ι}

/-- A list depends on the `next` of all nodes but the last and the `prev` of all but the first. -/
theorem Between.congr (h : L.Between l) (hnext : ∀ x ∈ l.dropLast, L'.next x = L.next x)
    (hprev : ∀ x ∈ l.tail, L'.prev x = L.prev x) : L'.Between l := by
  induction l with
  | nil => exact List.IsChain.nil
  | cons x l ih =>
    cases l with
    | nil => exact List.IsChain.singleton x
    | cons y l =>
      obtain ⟨hxy, hrest⟩ := List.isChain_cons_cons.mp h
      refine List.isChain_cons_cons.mpr ⟨⟨?_, ?_⟩, ih hrest (fun z hz => ?_) fun z hz => ?_⟩
      · rw [hnext x (by simp), hxy.1]
      · rw [hprev y (by simp), hxy.2]
      · exact hnext z (by rw [List.dropLast_cons_cons]; exact List.mem_cons_of_mem _ hz)
      · exact hprev z (List.mem_of_mem_tail hz)

theorem Between.prev_last {a b : ι} (h : L.Between (s ++ [a, b])) : L.prev b = a := by
  obtain ⟨-, hab⟩ := List.isChain_split.mp h
  exact (List.isChain_cons_cons.mp hab).1.2

variable [DecidableEq ι]

def setNext (L : Links ι) (x y : ι) : Links ι := { L with next := Function.update L.next x y }

def setPrev (L : Links ι) (x y : ι) : Links ι := { L with prev := Function.update L.prev x y }

def unlink (L : Links ι) (n : ι) : Links ι :=
  let L := L.setNext (L.prev n) (L.next n)
  L.setPrev (L.next n) (L.prev n)

def pushFront (L : Links ι) (head n : ι) : Links ι :=
  let L := L.setPrev n head
  let L := L.setNext n (L.next head)
  let L := L.setPrev (L.next head) n
  L.setNext head n

theorem Between.unlink (h : L.Between (s ++ n :: t)) (hnodup : (s ++ n :: t).Nodup) (hs : s ≠ []) (ht : t ≠ []) :
    (L.unlink n).Between (s ++ t) := by
  obtain ⟨s, a, rfl⟩ := List.eq_nil_or_concat s |>.resolve_left hs
  obtain ⟨b, t, rfl⟩ := List.exists_cons_of_ne_nil ht
  rw [List.concat_eq_append, List.append_assoc, List.singleton_append] at h hnodup ⊢
  obtain ⟨hleft, hright⟩ := List.isChain_split.mp h
  obtain ⟨han, hright⟩ := List.isChain_cons_cons.mp hright
  obtain ⟨hnb, hright⟩ := List.isChain_cons_cons.mp hright
  obtain ⟨-, hnodup, hapart⟩ := List.nodup_append.mp hnodup
  simp only [List.nodup_cons, List.mem_cons, not_or] at hnodup hapart
  have hun : L.unlink n = ⟨Function.update L.next a b, Function.update L.prev b a⟩ := by
    simp only [Links.unlink, setNext, setPrev, han.2, Function.update_of_ne (Ne.symm hnodup.1.1), hnb.1]
  rw [hun]
  refine List.isChain_split.mpr ⟨Between.congr hleft (fun x hx => ?_) (fun x hx => ?_),
    List.isChain_cons_cons.mpr ⟨⟨Function.update_self .., Function.update_self ..⟩,
      Between.congr hright (fun x hx => ?_) fun x hx => ?_⟩⟩
  · rw [List.dropLast_concat] at hx
    exact Function.update_of_ne (hapart x hx a (.inl rfl)) _ _
  · refine Function.update_of_ne ?_ _ _
    rcases List.mem_append.mp (List.mem_of_mem_tail hx) with hx | hx
    · exact hapart x hx b (.inr (.inr (.inl rfl)))
    · exact List.mem_singleton.mp hx ▸ hnodup.1.2.1
  · refine Function.update_of_ne (fun heq => ?_) _ _
    rcases List.mem_cons.mp ((List.dropLast_sublist _).mem hx) with hx | hx
    · exact hnodup.1.2.1 (heq.symm.trans hx)
    · exact hnodup.1.2.2 (heq ▸ hx)
  · refine Function.update_of_ne ?_ _ _
    rintro rfl
    exact hnodup.2.2.1 hx

theorem Between.pushFront (h : L.Between (head :: t)) (hnodup : (n :: head :: t).Nodup) (ht : t ≠ []) :
    (L.pushFront head n).Between (head :: n :: t) := by
  obtain ⟨b, t, rfl⟩ := List.exists_cons_of_ne_nil ht
  obtain ⟨hab, hrest⟩ := List.isChain_cons_cons.mp h
  simp only [List.nodup_cons, List.mem_cons, not_or] at hnodup
  obtain ⟨⟨hnh, hnb, hnt⟩, ⟨hhb, hht⟩, hbt, -⟩ := hnodup
  have hpush : L.pushFront head n = ⟨Function.update (Function.update L.next n b) head n,
      Function.update (Function.update L.prev n head) b n⟩ := by
    simp only [Links.pushFront, setNext, setPrev, hab.1, Function.update_of_ne (Ne.symm hnh)]
  rw [hpush]
  refine List.isChain_cons_cons.mpr ⟨⟨Function.update_self .., ?_⟩, List.isChain_cons_cons.mpr ⟨⟨?_,
    Function.update_self ..⟩, Between.congr hrest (fun x hx => ?_) fun x hx => ?_⟩⟩
  · exact (Function.update_of_ne hnb _ _).trans (Function.update_self ..)
  · exact (Function.update_of_ne hnh _ _).trans (Function.update_self ..)
  · have hx := (List.dropLast_sublist _).mem hx
    have hxh : x ≠ head := by
      rintro rfl
      exact (List.mem_cons.mp hx).elim hhb hht
    have hxn : x ≠ n := by
      rintro rfl
      exact (List.mem_cons.mp hx).elim hnb hnt
    exact (Function.update_of_ne hxh _ _).trans (Function.update_of_ne hxn _ _)
  · have hxb : x ≠ b := by
      rintro rfl
      exact hbt hx
    have hxn : x ≠ n := by
      rintro rfl
      exact hnt hx
    exact (Function.update_of_ne hxb _ _).trans (Function.update_of_ne hxn _ _)

end Links
end AkwaDB
