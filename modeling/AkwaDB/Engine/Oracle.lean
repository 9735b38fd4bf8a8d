import Mathlib.Data.List.Basic

/-!
# AkwaDB.Engine.Oracle

The timestamp oracle: commit timestamps, the highest timestamp below which everything is applied,
and the watermark over the snapshots of running transactions.

`Oracle.minReadTs` is what compaction must respect. It never falls: not by a commit, not by
`MarkApplied`, and not by a transaction that begins or ends.
-/

namespace AkwaDB

/-- `WaterMark`. `active` lists the snapshots of the running transactions, with repetitions. -/
structure WaterMark where
  active : List Nat
  minTs : Nat

namespace WaterMark

/-- `Begin`: `minTs` is set by the first snapshot and lowered by smaller ones. -/
def start (w : WaterMark) (readTs : Nat) : WaterMark :=
  let active := readTs :: w.active
  ⟨active, if active.all (· = readTs) || decide (readTs < w.minTs) then readTs else w.minTs⟩

def done (w : WaterMark) (readTs currentNextTs : Nat) : WaterMark :=
  match w.active.erase readTs with
  | [] => ⟨[], currentNextTs⟩
  | ts :: rest => ⟨ts :: rest, rest.foldl min ts⟩

def minReadTs (w : WaterMark) (defaultTs : Nat) : Nat :=
  if w.active = [] then defaultTs else w.minTs

/-- `minTs` is the least of the snapshots, and they are all at most `applied`. -/
structure Ok (w : WaterMark) (applied : Nat) : Prop where
  least : ∀ ts ∈ w.active, w.minTs ≤ ts
  attained : w.active ≠ [] → w.minTs ∈ w.active
  le : ∀ ts ∈ w.active, ts ≤ applied

theorem Ok.mono {w : WaterMark} {n n' : Nat} (h : w.Ok n) (hn : n ≤ n') : w.Ok n' :=
  ⟨h.least, h.attained, fun ts hts => Nat.le_trans (h.le ts hts) hn⟩

theorem minReadTs_le {w : WaterMark} {applied : Nat} (h : w.Ok applied) :
    w.minReadTs applied ≤ applied := by
  unfold minReadTs
  split
  · exact Nat.le_refl _
  · rename_i hne
    exact h.le _ (h.attained hne)

theorem foldl_min (l : List Nat) :
    ∀ a, (l.foldl min a = a ∨ l.foldl min a ∈ l) ∧ l.foldl min a ≤ a ∧
      ∀ b ∈ l, l.foldl min a ≤ b := by
  induction l with
  | nil => intro a; simp
  | cons c l ih =>
    intro a
    obtain ⟨hmem, hle, hall⟩ := ih (min a c)
    rw [List.foldl_cons]
    refine ⟨?_, by omega, ?_⟩
    · rcases hmem with h | h
      · rcases Nat.le_total a c with hac | hac
        · left
          rw [h, Nat.min_eq_left hac]
        · right
          rw [h, Nat.min_eq_right hac]
          exact List.mem_cons_self
      · exact Or.inr (List.mem_cons_of_mem _ h)
    · intro b hb
      rcases List.mem_cons.mp hb with rfl | hb
      · omega
      · exact hall b hb

theorem start_minReadTs (w : WaterMark) (readTs defaultTs : Nat) :
    (w.start readTs).minReadTs defaultTs = (w.start readTs).minTs := if_neg (List.cons_ne_nil _ _)

theorem start_ok {w : WaterMark} {applied : Nat} (h : w.Ok applied) :
    (w.start applied).Ok applied ∧ w.minReadTs applied ≤ (w.start applied).minReadTs applied := by
  have hle : ∀ ts ∈ applied :: w.active, ts ≤ applied := by
    intro ts hts
    rcases List.mem_cons.mp hts with rfl | hts
    · exact Nat.le_refl _
    · exact h.le ts hts
  by_cases hall : ∀ ts ∈ w.active, ts = applied
  · have hmin : (w.start applied).minTs = applied := by
      have : (applied :: w.active).all (· = applied) = true := by simpa using hall
      simp only [start, this, Bool.true_or, if_true]
    refine ⟨⟨?_, ?_, hle⟩, ?_⟩
    · intro ts hts
      rw [hmin]
      rcases List.mem_cons.mp hts with rfl | hts
      · exact Nat.le_refl _
      · exact Nat.le_of_eq (hall ts hts).symm
    · intro _
      rw [hmin]
      exact List.mem_cons_self
    · rw [start_minReadTs, hmin]
      exact minReadTs_le h
  · -- some snapshot is older, and `minTs` stays
    have hne : w.active ≠ [] := by
      rintro heq
      exact hall (by simp [heq])
    have hatt := h.attained hne
    have hmin : (w.start applied).minTs = w.minTs := by
      have hnot : (applied :: w.active).all (· = applied) = false := by
        rw [List.all_eq_false]
        by_contra hno
        refine hall fun ts hts => ?_
        by_contra hts'
        exact hno ⟨ts, List.mem_cons_of_mem _ hts, by simpa using hts'⟩
      have hge : ¬ applied < w.minTs := Nat.not_lt.mpr (h.le _ hatt)
      simp only [start, hnot, hge, Bool.false_or, decide_false, Bool.false_eq_true, if_false]
    refine ⟨⟨?_, ?_, hle⟩, ?_⟩
    · intro ts hts
      rw [hmin]
      rcases List.mem_cons.mp hts with rfl | hts
      · exact h.le _ hatt
      · exact h.least ts hts
    · intro _
      rw [hmin]
      exact List.mem_cons_of_mem _ hatt
    · have hsame : (w.start applied).minReadTs applied = w.minReadTs applied := by
        rw [start_minReadTs, hmin, minReadTs, if_neg hne]
      exact Nat.le_of_eq hsame.symm

theorem done_ok {w : WaterMark} {applied : Nat} (h : w.Ok applied) (readTs : Nat) :
    (w.done readTs applied).Ok applied ∧
      w.minReadTs applied ≤ (w.done readTs applied).minReadTs applied := by
  have hsub : ∀ ts ∈ w.active.erase readTs, ts ∈ w.active := fun ts hts => List.mem_of_mem_erase hts
  unfold done
  split
  · refine ⟨⟨by simp, fun hne => absurd rfl hne, by simp⟩, ?_⟩
    exact minReadTs_le h
  · rename_i ts rest heq
    rw [heq] at hsub
    obtain ⟨hmem, hle, hall⟩ := foldl_min rest ts
    have hatt : rest.foldl min ts ∈ ts :: rest := by
      rcases hmem with hm | hm
      · rw [hm]
        exact List.mem_cons_self
      · exact List.mem_cons_of_mem _ hm
    refine ⟨⟨?_, fun _ => hatt, fun b hb => h.le b (hsub b hb)⟩, ?_⟩
    · intro b hb
      rcases List.mem_cons.mp hb with rfl | hb
      · exact hle
      · exact hall b hb
    · have hne : w.active ≠ [] := by
        intro hnil
        have := hsub ts List.mem_cons_self
        rw [hnil] at this
        cases this
      rw [minReadTs, if_neg hne, minReadTs, if_neg (List.cons_ne_nil _ _)]
      exact h.least _ (hsub _ hatt)

end WaterMark

/-- `Oracle`, without what only conflict detection reads. -/
structure Oracle where
  nextTs : Nat
  appliedTs : Nat
  awaiting : List Nat
  watermark : WaterMark

namespace Oracle

def newOracle : Oracle := ⟨1, 1, [], ⟨[], 0⟩⟩

def newCommitTs (o : Oracle) : Nat × Oracle :=
  (o.nextTs + 1, { o with nextTs := o.nextTs + 1, awaiting := (o.nextTs + 1) :: o.awaiting })

def reserveVersion (o : Oracle) (ts : Nat) : Oracle :=
  { o with
    nextTs := max o.nextTs ts
    awaiting := if o.appliedTs < ts then ts :: o.awaiting else o.awaiting }

/-- The loop of `advanceAppliedLocked`, which can turn at most `nextTs - appliedTs` times. -/
def advanceFrom (awaiting : List Nat) : Nat → Nat → Nat
  | 0, applied => applied
  | fuel + 1, applied =>
    if applied + 1 ∈ awaiting then applied else advanceFrom awaiting fuel (applied + 1)

def advanceApplied (o : Oracle) : Oracle :=
  { o with appliedTs := advanceFrom o.awaiting (o.nextTs - o.appliedTs) o.appliedTs }

def markApplied (o : Oracle) (ts : Nat) : Oracle :=
  if ts ≤ o.appliedTs then o
  else advanceApplied { o with awaiting := o.awaiting.filter (· ≠ ts) }

def newReadTs (o : Oracle) : Nat × Oracle :=
  let readTs := if o.appliedTs = 0 then 1 else o.appliedTs
  (readTs, { o with watermark := o.watermark.start readTs })

def done (o : Oracle) (readTs : Nat) : Oracle :=
  { o with watermark := o.watermark.done readTs o.appliedTs }

def minReadTs (o : Oracle) : Nat := o.watermark.minReadTs o.appliedTs

def bump (o : Oracle) (minTs : Nat) : Oracle :=
  { o with nextTs := max o.nextTs minTs, appliedTs := max o.appliedTs minTs }

structure Ok (o : Oracle) : Prop where
  pos : 0 < o.appliedTs
  le : o.appliedTs ≤ o.nextTs
  mark : o.watermark.Ok o.appliedTs

theorem newOracle_ok : newOracle.Ok :=
  ⟨by decide, by decide, by simp [newOracle], by simp [newOracle], by simp [newOracle]⟩

theorem raise_ok {o o' : Oracle} (h : o.Ok) (hw : o'.watermark = o.watermark)
    (ha : o.appliedTs ≤ o'.appliedTs) (hn : o'.appliedTs ≤ o'.nextTs) :
    o'.Ok ∧ o.minReadTs ≤ o'.minReadTs := by
  refine ⟨⟨Nat.lt_of_lt_of_le h.pos ha, hn, ?_⟩, ?_⟩
  · rw [hw]
    exact h.mark.mono ha
  · rw [minReadTs, minReadTs, hw, WaterMark.minReadTs, WaterMark.minReadTs]
    split
    · exact ha
    · exact Nat.le_refl _

theorem newCommitTs_ok {o : Oracle} (h : o.Ok) :
    o.newCommitTs.2.Ok ∧ o.minReadTs ≤ o.newCommitTs.2.minReadTs :=
  raise_ok h rfl (Nat.le_refl _) (Nat.le_succ_of_le h.le)

theorem advanceFrom_le (awaiting : List Nat) (fuel : Nat) :
    ∀ applied, applied ≤ advanceFrom awaiting fuel applied ∧
      advanceFrom awaiting fuel applied ≤ applied + fuel := by
  induction fuel with
  | zero => intro a; exact ⟨Nat.le_refl _, Nat.le_refl _⟩
  | succ fuel ih =>
    intro a
    rw [advanceFrom]
    split
    · omega
    · have := ih (a + 1)
      omega

theorem markApplied_nextTs (o : Oracle) (ts : Nat) : (o.markApplied ts).nextTs = o.nextTs := by
  unfold markApplied
  split <;> rfl

theorem markApplied_ok {o : Oracle} (h : o.Ok) (ts : Nat) :
    (o.markApplied ts).Ok ∧ o.minReadTs ≤ (o.markApplied ts).minReadTs := by
  unfold markApplied
  split
  · exact ⟨h, Nat.le_refl _⟩
  · have hadv := advanceFrom_le (o.awaiting.filter (· ≠ ts)) (o.nextTs - o.appliedTs) o.appliedTs
    refine raise_ok h rfl hadv.1 (Nat.le_trans hadv.2 ?_)
    exact Nat.le_of_eq (Nat.add_sub_of_le h.le)

theorem newReadTs_ok {o : Oracle} (h : o.Ok) :
    o.newReadTs.2.Ok ∧ o.minReadTs ≤ o.newReadTs.2.minReadTs := by
  have hts : (if o.appliedTs = 0 then 1 else o.appliedTs) = o.appliedTs :=
    if_neg (Nat.pos_iff_ne_zero.mp h.pos)
  obtain ⟨hok, hle⟩ := WaterMark.start_ok h.mark
  simp only [newReadTs, hts]
  exact ⟨⟨h.pos, h.le, hok⟩, hle⟩

theorem done_ok {o : Oracle} (h : o.Ok) (readTs : Nat) :
    (o.done readTs).Ok ∧ o.minReadTs ≤ (o.done readTs).minReadTs := by
  obtain ⟨hok, hle⟩ := WaterMark.done_ok h.mark readTs
  exact ⟨⟨h.pos, h.le, hok⟩, hle⟩

end Oracle
end AkwaDB
