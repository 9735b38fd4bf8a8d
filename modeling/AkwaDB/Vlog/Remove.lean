import AkwaDB.Lib.Interleave
import AkwaDB.Lib.Reach
import Mathlib.Data.List.Count

/-!
# AkwaDB.Vlog.Remove

Readers of a segment of the value log and calls that delete it, step by step.

A reader finds the segment and takes a reference in one step, under the lock. It gives the reference back with an atomic
subtraction, and only after that looks whether the segment is to be removed. In between another reader may come.

- `inv_step`: what every step keeps, as counts of the callers at each place.
- `removal_safe_iff`: the file is removed once, when no one reads it and when all are done, whatever the interleaving,
  exactly when there is no more than one reader or nothing is deleted.
-/

namespace AkwaDB
namespace Vlog

/-- The places of a call of `ReadValue` or `Recover`, and of `DeleteSegment`. -/
inductive Pc
  | lookup
  | reading
  /-- The subtraction in `DecrRef` gave zero. -/
  | decremented
  | delete
  /-- In `markRemove`, before the store. -/
  | marking
  /-- Before the load. -/
  | marked
  /-- In `removeFile`, before the swap. -/
  | removing
  /-- Behind it: the file will be closed and removed. -/
  | closing
  | done
  deriving DecidableEq

/-- `removals` has the references that there were at each removal of the file. -/
structure SegmentRefs where
  inMap : Bool
  refs : Int
  removePending : Bool
  removed : Bool
  removals : List Int

def refStep (s : SegmentRefs) (_ : Unit) : Pc → Option (SegmentRefs × Pc)
  | .lookup => some (if s.inMap then ({ s with refs := s.refs + 1 }, .reading) else (s, .done))
  | .reading => some ({ s with refs := s.refs - 1 }, if s.refs - 1 = 0 then .decremented else .done)
  | .decremented => some (s, if s.removePending then .removing else .done)
  | .delete => some (if s.inMap then ({ s with inMap := false }, .marking) else (s, .done))
  | .marking => some ({ s with removePending := true }, .marked)
  | .marked => some (s, if 0 < s.refs then .done else .removing)
  | .removing => some (if s.removed then (s, .done) else ({ s with removed := true }, .closing))
  | .closing => some ({ s with removals := s.refs :: s.removals }, .done)
  | .done => none

abbrev Callers := Pool SegmentRefs Pc

def callers (readers deleters : Nat) : Callers where
  shared := ⟨true, 0, false, false, []⟩
  procs := List.replicate readers .lookup ++ List.replicate deleters .delete

structure RefInv (readers deleters : Nat) (s : SegmentRefs) (at_ : Pc → Nat) : Prop where
  refs : s.refs = at_ .reading
  once : s.removals.length + at_ .closing = s.removed.toNat
  unmarked : s.removePending = false → at_ .marked = 0 ∧ at_ .removing = 0 ∧ s.removed = false
  found : s.inMap = true → at_ .marking = 0 ∧ s.removePending = false
  reader : at_ .lookup + at_ .reading + at_ .decremented ≤ readers
  deleter : deleters = 0 → s.removePending = false ∧ at_ .delete = 0 ∧ at_ .marking = 0
  /-- Someone will remove the file, or has. -/
  owed : 0 < deleters → s.inMap = true ∧ 0 < at_ .delete ∨ 0 < at_ .marking + at_ .marked + at_ .removing ∨
    s.removePending = true ∧ (s.removed = true ∨ 0 < at_ .reading + at_ .decremented)
  unread : readers ≤ 1 → (0 < at_ .removing + at_ .closing → at_ .reading = 0) ∧ ∀ r ∈ s.removals, r = 0

theorem inv_callers (readers deleters : Nat) :
    RefInv readers deleters (callers readers deleters).shared ((callers readers deleters).procs.count ·) := by
  constructor <;> simp [callers, List.count_append, List.count_replicate]

def counted (rest : Pc → Nat) (p : Pc) : Pc → Nat := fun x => rest x + if p = x then 1 else 0

section
variable {readers deleters : Nat} {s s' : SegmentRefs} {at_ rest : Pc → Nat} {p q : Pc}

theorem RefInv.unremoved (h : RefInv readers deleters s at_) (hpending : s.removePending = false) :
    s.removals = [] ∧ at_ .closing = 0 := by
  have honce := h.once
  rw [(h.unmarked hpending).2.2, Bool.toNat_false] at honce
  exact ⟨List.eq_nil_of_length_eq_zero (by omega), by omega⟩

theorem RefInv.pending (h : RefInv readers deleters s at_) (hpos : 0 < at_ .marked + at_ .removing) :
    s.removePending = true := by
  by_contra hno
  have hnone := h.unmarked (Bool.eq_false_iff.mpr hno)
  omega

/-! The caller at one place goes on and the others stay where they are (`rest`): what changes of the invariant. -/

theorem RefInv.lookup_found (h : RefInv readers deleters s (counted rest .lookup)) (hin : s.inMap = true) :
    RefInv readers deleters { s with refs := s.refs + 1 } (counted rest .reading) :=
  have hrefs : s.refs = rest .reading := h.refs
  have hreader : rest .lookup + 1 + rest .reading + rest .decremented ≤ readers := h.reader
  have hpending := (h.found hin).2
  -- Nothing is marked, so that no one is about to remove the file.
  have hremoving : rest .removing = 0 := (h.unmarked hpending).2.1
  have hclosing : rest .closing = 0 := (h.unremoved hpending).2
  { h with
    refs := show s.refs + 1 = (rest .reading + 1 : Nat) by omega
    reader := show rest .lookup + (rest .reading + 1) + rest .decremented ≤ readers by omega
    owed := fun hd => (h.owed hd).imp_right (Or.imp_right fun ho => absurd ho.1 (Bool.eq_false_iff.mp hpending))
    unread := fun hr => ⟨fun hpos => absurd (show 0 < rest .removing + rest .closing from hpos) (by omega),
      (h.unread hr).2⟩ }

theorem RefInv.lookup_missed (h : RefInv readers deleters s (counted rest .lookup)) :
    RefInv readers deleters s (counted rest .done) :=
  have hreader : rest .lookup + 1 + rest .reading + rest .decremented ≤ readers := h.reader
  { h with reader := show rest .lookup + rest .reading + rest .decremented ≤ readers by omega }

theorem RefInv.decrRef (h : RefInv readers deleters s (counted rest .reading)) :
    RefInv readers deleters { s with refs := s.refs - 1 }
      (counted rest (if s.refs - 1 = 0 then .decremented else .done)) := by
  have hrefs : s.refs = (rest .reading + 1 : Nat) := h.refs
  have hreader : rest .lookup + (rest .reading + 1) + rest .decremented ≤ readers := h.reader
  -- One who has a reference keeps the file from being removed, if there is no other.
  have hunread : readers ≤ 1 → ¬0 < rest .removing + rest .closing := fun hr hpos =>
    absurd ((h.unread hr).1 hpos) (Nat.succ_ne_zero _)
  split
  · exact { h with
      refs := show s.refs - 1 = rest .reading by omega
      reader := show rest .lookup + rest .reading + (rest .decremented + 1) ≤ readers by omega
      owed := fun hd => (h.owed hd).imp_right (Or.imp_right fun ho => ⟨ho.1, .inr (Nat.succ_pos _)⟩)
      unread := fun hr => ⟨fun hpos => absurd hpos (hunread hr), (h.unread hr).2⟩ }
  · exact { h with
      refs := show s.refs - 1 = rest .reading by omega
      reader := show rest .lookup + rest .reading + rest .decremented ≤ readers by omega
      owed := fun hd => (h.owed hd).imp_right (Or.imp_right fun ho =>
        ⟨ho.1, .inr (show 0 < rest .reading + rest .decremented by omega)⟩)
      unread := fun hr => ⟨fun hpos => absurd hpos (hunread hr), (h.unread hr).2⟩ }

theorem RefInv.decremented (h : RefInv readers deleters s (counted rest .decremented)) :
    RefInv readers deleters s (counted rest (if s.removePending then .removing else .done)) := by
  have hreader : rest .lookup + rest .reading + (rest .decremented + 1) ≤ readers := h.reader
  split
  · rename_i hpending
    exact { h with
      unmarked := fun hno => absurd hpending (Bool.eq_false_iff.mp hno)
      reader := show rest .lookup + rest .reading + rest .decremented ≤ readers by omega
      owed := fun _ => .inr (.inl (Nat.succ_pos _))
      unread := fun hr => ⟨fun _ => show rest .reading = 0 by omega, (h.unread hr).2⟩ }
  · rename_i hpending
    exact { h with
      reader := show rest .lookup + rest .reading + rest .decremented ≤ readers by omega
      owed := fun hd => (h.owed hd).imp_right (Or.imp_right fun ho => absurd ho.1 hpending) }

theorem RefInv.delete_found (h : RefInv readers deleters s (counted rest .delete)) :
    RefInv readers deleters { s with inMap := false } (counted rest .marking) :=
  { h with
    found := fun hno => nomatch hno
    deleter := fun hd => absurd (h.deleter hd).2.1 (Nat.succ_ne_zero _)
    owed := fun _ => .inr (.inl (show 0 < rest .marking + 1 + rest .marked + rest .removing by omega)) }

theorem RefInv.delete_missed (h : RefInv readers deleters s (counted rest .delete)) (hin : s.inMap ≠ true) :
    RefInv readers deleters s (counted rest .done) :=
  { h with
    deleter := fun hd => absurd (h.deleter hd).2.1 (Nat.succ_ne_zero _)
    owed := fun hd => (h.owed hd).imp_left fun ho => absurd ho.1 hin }

theorem RefInv.markRemove (h : RefInv readers deleters s (counted rest .marking)) :
    RefInv readers deleters { s with removePending := true } (counted rest .marked) :=
  { h with
    unmarked := fun hno => nomatch hno
    found := fun hin => absurd (h.found hin).1 (Nat.succ_ne_zero _)
    deleter := fun hd => absurd (h.deleter hd).2.2 (Nat.succ_ne_zero _)
    owed := fun _ => .inr (.inl (show 0 < rest .marking + (rest .marked + 1) + rest .removing by omega)) }

theorem RefInv.marked (h : RefInv readers deleters s (counted rest .marked)) :
    RefInv readers deleters s (counted rest (if 0 < s.refs then .done else .removing)) := by
  have hrefs : s.refs = rest .reading := h.refs
  have hpending := h.pending (show 0 < rest .marked + 1 + rest .removing by omega)
  split
  · exact { h with
      unmarked := fun hno => absurd hpending (Bool.eq_false_iff.mp hno)
      owed := fun _ => .inr (.inr ⟨hpending, .inr (show 0 < rest .reading + rest .decremented by omega)⟩) }
  · exact { h with
      unmarked := fun hno => absurd hpending (Bool.eq_false_iff.mp hno)
      owed := fun _ => .inr (.inl (Nat.succ_pos _))
      unread := fun hr => ⟨fun _ => show rest .reading = 0 by omega, (h.unread hr).2⟩ }

theorem RefInv.removed_before (h : RefInv readers deleters s (counted rest .removing)) (hremoved : s.removed = true) :
    RefInv readers deleters s (counted rest .done) :=
  have hpending := h.pending (Nat.succ_pos _)
  { h with
    unmarked := fun hno => absurd hpending (Bool.eq_false_iff.mp hno)
    owed := fun _ => .inr (.inr ⟨hpending, .inl hremoved⟩)
    unread := fun hr => ⟨fun _ => (h.unread hr).1 (show 0 < rest .removing + 1 + rest .closing by omega),
      (h.unread hr).2⟩ }

theorem RefInv.removeFile (h : RefInv readers deleters s (counted rest .removing)) (hremoved : s.removed ≠ true) :
    RefInv readers deleters { s with removed := true } (counted rest .closing) :=
  have hpending := h.pending (Nat.succ_pos _)
  have honce : s.removals.length + rest .closing = s.removed.toNat := h.once
  { h with
    once := show s.removals.length + (rest .closing + 1) = 1 by
      rw [Bool.eq_false_iff.mpr hremoved, Bool.toNat_false] at honce
      omega
    unmarked := fun hno => absurd hpending (Bool.eq_false_iff.mp hno)
    owed := fun _ => .inr (.inr ⟨hpending, .inl rfl⟩)
    unread := fun hr => ⟨fun _ => (h.unread hr).1 (show 0 < rest .removing + 1 + rest .closing by omega),
      (h.unread hr).2⟩ }

theorem RefInv.close (h : RefInv readers deleters s (counted rest .closing)) :
    RefInv readers deleters { s with removals := s.refs :: s.removals } (counted rest .done) :=
  have hrefs : s.refs = rest .reading := h.refs
  have honce : s.removals.length + (rest .closing + 1) = s.removed.toNat := h.once
  have hunread : readers ≤ 1 → rest .reading = 0 := fun hr => (h.unread hr).1 (Nat.succ_pos _)
  { h with
    once := show s.removals.length + 1 + rest .closing = s.removed.toNat by omega
    unread := fun hr => ⟨fun _ => hunread hr, List.forall_mem_cons.mpr ⟨by rw [hrefs, hunread hr]; rfl,
      (h.unread hr).2⟩⟩ }

theorem refInv_step (hstep : refStep s () p = some (s', q)) (h : RefInv readers deleters s (counted rest p)) :
    RefInv readers deleters s' (counted rest q) := by
  cases p <;> simp only [refStep, Option.some.injEq] at hstep
  case lookup =>
    split at hstep <;> cases hstep
    · exact h.lookup_found ‹_›
    · exact h.lookup_missed
  case delete =>
    split at hstep <;> cases hstep
    · exact h.delete_found
    · exact h.delete_missed ‹_›
  case removing =>
    split at hstep <;> cases hstep
    · exact h.removed_before ‹_›
    · exact h.removeFile ‹_›
  all_goals cases hstep
  case reading => exact h.decrRef
  case decremented => exact h.decremented
  case marking => exact h.markRemove
  case marked => exact h.marked
  case closing => exact h.close

end

theorem inv_step {readers deleters : Nat} {s s' : Callers} {a : Nat × Unit} (hs : Pool.step refStep s a = some s')
    (h : RefInv readers deleters s.shared (s.procs.count ·)) :
    RefInv readers deleters s'.shared (s'.procs.count ·) := by
  obtain ⟨l, p, r, q, -, hl, hstep, hr⟩ := Pool.step_split hs
  have hcount : ∀ p : Pc, (fun x => (l ++ p :: r).count x) = counted (fun x => (l ++ r).count x) p := by
    intro p
    funext x
    rw [List.perm_middle.count_eq, List.count_cons, counted]
    simp
  rw [hl, hcount] at h
  rw [hr, hcount]
  exact refInv_step hstep h

/-- Once at most, when there is no reference, and in the end. -/
def RemovedSafely (deleters : Nat) (s : Callers) : Prop :=
  s.shared.removals.length ≤ 1 ∧ (∀ r ∈ s.shared.removals, r = 0) ∧
    (0 < deleters → (∀ p ∈ s.procs, p = .done) → s.shared.removals ≠ [])

theorem inv_run {readers deleters : Nat} {as : List (Nat × Unit)} {s : Callers}
    (hr : run (Pool.step refStep) (callers readers deleters) as = some s) :
    RefInv readers deleters s.shared (s.procs.count ·) := by
  have hstep : ∀ {s a s'}, RefInv readers deleters s.shared (s.procs.count ·) → True →
      Pool.step refStep s a = some s' → RefInv readers deleters s'.shared (s'.procs.count ·) :=
    fun h _ hs => inv_step hs h
  exact run_invariant hstep (inv_callers readers deleters) (guarded_of_forall (fun _ _ _ => trivial) _) hr

theorem removed_of_done {readers deleters : Nat} {s : Callers} (h : RefInv readers deleters s.shared (s.procs.count ·))
    (hdel : 0 < deleters) (hdone : ∀ p ∈ s.procs, p = .done) : s.shared.removals ≠ [] := by
  have hzero : ∀ p, p ≠ Pc.done → s.procs.count p = 0 := fun p hp =>
    List.count_eq_zero.mpr fun hmem => hp (hdone p hmem)
  have hremoved : s.shared.removed = true := by
    have howed := h.owed hdel
    simp [hzero] at howed
    exact howed.2
  have honce := h.once
  rw [hzero .closing (by decide), hremoved] at honce
  exact List.ne_nil_of_length_eq_add_one honce

/-- The first reader has not looked at the mark yet when the second one comes. -/
def overtaken (readers : Nat) : List (Nat × Unit) :=
  [(0, ()), (0, ()), (1, ()), (readers, ()), (readers, ()), (readers, ()), (0, ()), (0, ()), (0, ())]

theorem run_overtaken (n m : Nat) :
    ∃ s, run (Pool.step refStep) (callers (n + 2) (m + 1)) (overtaken (n + 2)) = some s ∧
      s.shared.removals = [1] := by
  have h0 : ∀ (sh : SegmentRefs) (x : Pc) (rest : List Pc), Pool.step refStep ⟨sh, x :: rest⟩ (0, ()) =
      (refStep sh () x).map fun q => ⟨q.1, q.2 :: rest⟩ := fun _ _ _ => rfl
  have h1 : ∀ (sh : SegmentRefs) (x y : Pc) (rest : List Pc), Pool.step refStep ⟨sh, x :: y :: rest⟩ (1, ()) =
      (refStep sh () y).map fun q => ⟨q.1, x :: q.2 :: rest⟩ := fun _ _ _ _ => rfl
  have hd : ∀ (sh : SegmentRefs) (x y z : Pc) (rest : List Pc), Pool.step refStep
      ⟨sh, x :: y :: (List.replicate n .lookup ++ z :: rest)⟩ (n + 2, ()) =
      (refStep sh () z).map fun q => ⟨q.1, x :: y :: (List.replicate n .lookup ++ q.2 :: rest)⟩ := by
    intro sh x y z rest
    have h := Pool.step_middle refStep sh (x :: y :: List.replicate n .lookup) rest z ()
    simpa using h
  have hstart : callers (n + 2) (m + 1) = ⟨⟨true, 0, false, false, []⟩,
      .lookup :: .lookup :: (List.replicate n .lookup ++ .delete :: List.replicate m .delete)⟩ := rfl
  rw [hstart]
  simp [overtaken, run, h0, h1, hd, refStep]

/-- **The file is removed once, under no reader, and in the end**: with one reader at most, or no deleter. -/
theorem removal_safe_iff (readers deleters : Nat) :
    (∀ as s, run (Pool.step refStep) (callers readers deleters) as = some s → RemovedSafely deleters s) ↔
      readers ≤ 1 ∨ deleters = 0 := by
  constructor
  · intro h
    by_contra hno
    rw [not_or, Nat.not_le] at hno
    obtain ⟨n, rfl⟩ := Nat.exists_eq_add_of_le' hno.1
    obtain ⟨m, rfl⟩ := Nat.exists_eq_succ_of_ne_zero hno.2
    obtain ⟨s, hs, hremovals⟩ := run_overtaken n m
    have hzero := (h _ s hs).2.1 1 (by rw [hremovals]; exact List.mem_singleton_self 1)
    exact absurd hzero (by decide)
  · intro h as s hr
    have hinv := inv_run hr
    have honce := hinv.once
    refine ⟨?_, ?_, removed_of_done hinv⟩
    · have := Bool.toNat_le s.shared.removed
      omega
    · rcases h with h | h
      · exact (hinv.unread h).2
      · rw [(hinv.unremoved (hinv.deleter h).1).1]
        exact fun r hr => nomatch hr

/-- Two readers and a deleter, to the end: the file is removed while the second reader has its reference. -/
theorem removed_under_reader : ∃ s, run (Pool.step refStep) (callers 2 1) (overtaken 2) = some s ∧
    s.procs = [.done, .reading, .done] ∧ s.shared.removals = [1] := ⟨_, rfl, rfl, rfl⟩

end Vlog
end AkwaDB
