import AkwaDB.Engine.Oracle
import AkwaDB.Lib.Bytes
import AkwaDB.Lib.Newest
import Mathlib.Data.List.Dedup

/-!
# AkwaDB.Txn.Oracle

Conflict detection: the oracle remembers the writes of recent transactions and refuses a commit when
one of them is newer than the snapshot of the transaction and touches a key it read or writes.

The writes are kept twice, as a list of commits (`history`) and by fingerprint (`historyIndex`).
`Indexed` says that the two agree, and every operation keeps it.

- `conflicts_iff`: what the check looks at is the history.
- `checkAndCommitInternal_some`: what a commit adds to the history and what trimming takes from it.
-/

namespace AkwaDB

/-! ## The horizon moves over what is settled -/

namespace Oracle

theorem advanceFrom_lt {awaiting : List Nat} {fuel : Nat} :
    ∀ {applied : Nat}, (∀ v ∈ awaiting, applied < v) →
      ∀ v ∈ awaiting, advanceFrom awaiting fuel applied < v := by
  induction fuel with
  | zero => exact fun h => h
  | succ fuel ih =>
    intro applied h
    rw [advanceFrom]
    split
    · exact h
    · rename_i hnot
      refine ih fun v hv => ?_
      have hlt := h v hv
      have hne : v ≠ applied + 1 := fun he => hnot (he ▸ hv)
      omega

theorem advanceFrom_stops (awaiting : List Nat) (fuel : Nat) :
    ∀ applied, advanceFrom awaiting fuel applied = applied + fuel ∨
      advanceFrom awaiting fuel applied + 1 ∈ awaiting := by
  induction fuel with
  | zero => exact fun _ => Or.inl rfl
  | succ fuel ih =>
    intro applied
    rw [advanceFrom]
    split
    · exact Or.inr ‹_›
    · have := ih (applied + 1)
      rwa [Nat.add_assoc, Nat.add_comm 1] at this

/-- `appliedTs` lies below everything awaited, and as high as that allows. -/
structure Tight (o : Oracle) : Prop where
  below : ∀ v ∈ o.awaiting, o.appliedTs < v
  reach : o.appliedTs = o.nextTs ∨ o.appliedTs + 1 ∈ o.awaiting

variable {o : Oracle}

theorem advanceApplied_tight (hle : o.appliedTs ≤ o.nextTs) (h : ∀ v ∈ o.awaiting, o.appliedTs < v) :
    o.advanceApplied.Tight where
  below := advanceFrom_lt h
  reach := by
    have := advanceFrom_stops o.awaiting (o.nextTs - o.appliedTs) o.appliedTs
    rwa [Nat.add_sub_of_le hle] at this

theorem advanceApplied_ok (h : o.Ok) : o.advanceApplied.Ok := by
  have hadv := advanceFrom_le o.awaiting (o.nextTs - o.appliedTs) o.appliedTs
  have hle : o.advanceApplied.appliedTs ≤ o.nextTs :=
    Nat.le_trans hadv.2 (Nat.le_of_eq (Nat.add_sub_of_le h.le))
  exact (@raise_ok o o.advanceApplied h rfl hadv.1 hle).1

theorem le_advanceApplied (o : Oracle) : o.appliedTs ≤ o.advanceApplied.appliedTs :=
  (advanceFrom_le o.awaiting (o.nextTs - o.appliedTs) o.appliedTs).1

theorem newCommitTs_tight (hle : o.appliedTs ≤ o.nextTs) (h : o.Tight) :
    o.newCommitTs.2.Tight where
  below := by
    intro v hv
    cases List.mem_cons.mp hv with
    | inl heq => subst heq; exact Nat.lt_succ_of_le hle
    | inr hv => exact h.below v hv
  reach := by
    right
    cases h.reach with
    | inl heq => exact List.mem_cons.mpr (Or.inl (congrArg (· + 1) heq))
    | inr hmem => exact List.mem_cons_of_mem _ hmem

theorem markApplied_eq (h : o.Tight) {ts : Nat} (hts : ts ∈ o.awaiting) :
    o.markApplied ts = advanceApplied { o with awaiting := o.awaiting.filter (· ≠ ts) } :=
  if_neg (Nat.not_le.mpr (h.below ts hts))

theorem markApplied_tight (hle : o.appliedTs ≤ o.nextTs) (h : o.Tight) {ts : Nat}
    (hts : ts ∈ o.awaiting) : (o.markApplied ts).Tight := by
  rw [markApplied_eq h hts]
  exact advanceApplied_tight hle fun v hv => h.below v (List.mem_of_mem_filter hv)

theorem le_markApplied (ts : Nat) : o.appliedTs ≤ (o.markApplied ts).appliedTs := by
  unfold markApplied
  split
  · exact Nat.le_refl _
  · exact le_advanceApplied { o with awaiting := o.awaiting.filter (· ≠ ts) }

theorem newReadTs_fst (h : o.Ok) : o.newReadTs.1 = o.appliedTs :=
  if_neg (Nat.pos_iff_ne_zero.mp h.pos)

end Oracle

structure CommittedTxn where
  commitTs : Nat
  writes : List UInt64

/-- `Oracle` with what conflict detection reads. -/
structure TxnOracle extends Oracle where
  history : List CommittedTxn
  historyIndex : UInt64 → List Nat

namespace TxnOracle

def fingerprints (xxhash : Bytes → UInt64) (keys : List Bytes) : List UInt64 :=
  (keys.map xxhash).dedup

def indexWrites (commitTs : Nat) (writeFps : List UInt64) (index : UInt64 → List Nat) :
    UInt64 → List Nat :=
  fun fp => if fp ∈ writeFps then index fp ++ [commitTs] else index fp

def latestWrite (o : TxnOracle) (fp : UInt64) : Nat := (o.historyIndex fp).foldl max 0

def removeWrites (t : CommittedTxn) (index : UInt64 → List Nat) : UInt64 → List Nat :=
  fun fp => if fp ∈ t.writes then (index fp).erase t.commitTs else index fp

def trimHistory (o : TxnOracle) (minActiveTs : Nat) : TxnOracle :=
  { o with
    history := o.history.dropWhile fun t => decide (t.commitTs < minActiveTs)
    historyIndex := (o.history.takeWhile fun t => decide (t.commitTs < minActiveTs)).foldl
      (fun index t => removeWrites t index) o.historyIndex }

/-- The two loops of the check, over the keys read and over the keys written. -/
def conflicts (o : TxnOracle) (readTs : Nat) (fps : List UInt64) : Bool :=
  fps.any fun fp => decide (readTs < o.latestWrite fp)

def checkAndCommitInternal (o : TxnOracle) (readTs : Nat) (readFps writeFps : List UInt64) :
    Option (Nat × TxnOracle) :=
  if o.conflicts readTs readFps || o.conflicts readTs writeFps then none
  else
    let (commitTs, base) := o.toOracle.newCommitTs
    let o' : TxnOracle :=
      ⟨base, o.history ++ [⟨commitTs, writeFps⟩], indexWrites commitTs writeFps o.historyIndex⟩
    some (commitTs, o'.trimHistory base.minReadTs)

/-- `CheckAndCommit` of a transaction, and `CheckAndCommitKeys` of a block of commands. -/
def checkAndCommit (xxhash : Bytes → UInt64) (o : TxnOracle) (readTs : Nat)
    (readSet writeKeys : List Bytes) : Option (Nat × TxnOracle) :=
  o.checkAndCommitInternal readTs (fingerprints xxhash readSet) (fingerprints xxhash writeKeys)

def abortCommit (o : TxnOracle) (commitTs : Nat) : TxnOracle :=
  let base := Oracle.advanceApplied { o.toOracle with awaiting := o.awaiting.filter (· ≠ commitTs) }
  match o.history.find? fun t => decide (t.commitTs = commitTs) with
  | none => ⟨base, o.history, o.historyIndex⟩
  | some t =>
    ⟨base, o.history.eraseP fun t => decide (t.commitTs = commitTs), removeWrites t o.historyIndex⟩

structure Lists (index : UInt64 → List Nat) (h : List CommittedTxn) : Prop where
  mem : ∀ fp c, c ∈ index fp ↔ ∃ t ∈ h, t.commitTs = c ∧ fp ∈ t.writes
  nodup : ∀ fp, (index fp).Nodup

/-- The index lists exactly the commits of the history, which is in commit order. -/
structure Indexed (o : TxnOracle) : Prop where
  lists : Lists o.historyIndex o.history
  sorted : o.history.Pairwise fun a b => a.commitTs < b.commitTs
  le : ∀ t ∈ o.history, t.commitTs ≤ o.nextTs

variable {o : TxnOracle} {t : CommittedTxn}

theorem Indexed.mapBase (h : o.Indexed) {base : Oracle} (hn : o.nextTs ≤ base.nextTs) :
    Indexed { o with toOracle := base } :=
  ⟨h.lists, h.sorted, fun t ht => Nat.le_trans (h.le t ht) hn⟩

theorem lt_foldl_max {l : List Nat} {r : Nat} :
    ∀ {a : Nat}, r < l.foldl max a ↔ r < a ∨ ∃ c ∈ l, r < c := by
  induction l with
  | nil => simp
  | cons b l ih =>
    intro a
    rw [List.foldl_cons, ih]
    simp only [List.mem_cons, exists_eq_or_imp, lt_max_iff, or_assoc]

/-- **The check is about the history**: a remembered commit newer than the snapshot has a fingerprint. -/
theorem conflicts_iff (h : o.Indexed) {readTs : Nat} {fps : List UInt64} :
    o.conflicts readTs fps = true ↔
      ∃ t ∈ o.history, readTs < t.commitTs ∧ ∃ fp ∈ fps, fp ∈ t.writes := by
  simp only [conflicts, List.any_eq_true, decide_eq_true_eq]
  simp only [latestWrite, lt_foldl_max, h.lists.mem]
  constructor
  · rintro ⟨fp, hfp, hlt | ⟨c, ⟨t, ht, hc, hw⟩, hlt⟩⟩
    · omega
    · exact ⟨t, ht, hc ▸ hlt, fp, hfp, hw⟩
  · rintro ⟨t, ht, hlt, fp, hfp, hw⟩
    exact ⟨fp, hfp, Or.inr ⟨t.commitTs, ⟨t, ht, rfl, hw⟩, hlt⟩⟩

/-! ## Commits enter and leave -/

theorem Lists.add {index : UInt64 → List Nat} {h : List CommittedTxn} (hl : Lists index h)
    (hnew : ∀ a ∈ h, a.commitTs ≠ t.commitTs) :
    Lists (indexWrites t.commitTs t.writes index) (h ++ [t]) where
  mem fp c := by
    simp only [indexWrites, List.mem_append, List.mem_singleton, or_and_right, exists_or,
      exists_eq_left, ← hl.mem]
    split
    · rename_i hfp
      simp [hfp, eq_comm]
    · rename_i hfp
      simp [hfp]
  nodup fp := by
    simp only [indexWrites]
    split
    · refine List.Nodup.append (hl.nodup fp) (List.nodup_singleton _) ?_
      intro c hc hc'
      obtain ⟨a, ha, hac, _⟩ := (hl.mem fp c).mp hc
      exact hnew a ha (hac.trans (List.mem_singleton.mp hc'))
    · exact hl.nodup fp

theorem Lists.remove {index : UInt64 → List Nat} {h₁ h₂ : List CommittedTxn}
    (hl : Lists index (h₁ ++ t :: h₂))
    (hs : (h₁ ++ t :: h₂).Pairwise fun a b => a.commitTs < b.commitTs) :
    Lists (removeWrites t index) (h₁ ++ h₂) where
  mem fp c := by
    have hne : ∀ a ∈ h₁ ++ h₂, a.commitTs ≠ t.commitTs := by
      intro a ha
      have hp := List.pairwise_cons.mp
        ((List.perm_middle.pairwise_iff (fun {a b : CommittedTxn} => Ne.symm)).mp (hs.imp Nat.ne_of_lt))
      exact (hp.1 a ha).symm
    have hmem := hl.mem fp c
    simp only [List.mem_append, List.mem_cons] at hmem hne
    simp only [removeWrites, List.mem_append]
    split
    · rename_i hfp
      rw [(hl.nodup fp).mem_erase_iff, hmem]
      constructor
      · rintro ⟨hc, a, ha | rfl | ha, hac, hw⟩
        · exact ⟨a, Or.inl ha, hac, hw⟩
        · exact absurd hac.symm hc
        · exact ⟨a, Or.inr ha, hac, hw⟩
      · rintro ⟨a, ha, hac, hw⟩
        exact ⟨hac ▸ hne a ha, a, ha.imp_right Or.inr, hac, hw⟩
    · rename_i hfp
      rw [hmem]
      constructor
      · rintro ⟨a, ha | rfl | ha, hac, hw⟩
        · exact ⟨a, Or.inl ha, hac, hw⟩
        · exact absurd hw hfp
        · exact ⟨a, Or.inr ha, hac, hw⟩
      · rintro ⟨a, ha, hac, hw⟩
        exact ⟨a, ha.imp_right Or.inr, hac, hw⟩
  nodup fp := by
    simp only [removeWrites]
    split
    · exact (hl.nodup fp).erase _
    · exact hl.nodup fp

theorem Lists.removeAll {h : List CommittedTxn} : ∀ {pre : List CommittedTxn}
    {index : UInt64 → List Nat}, Lists index (pre ++ h) →
      (pre ++ h).Pairwise (fun a b => a.commitTs < b.commitTs) →
      Lists (pre.foldl (fun index t => removeWrites t index) index) h := by
  intro pre
  induction pre with
  | nil => exact fun hl _ => hl
  | cons t pre ih =>
    intro index hl hs
    have hone : Lists (removeWrites t index) ([] ++ (pre ++ h)) := hl.remove hs
    exact ih hone (List.pairwise_cons.mp hs).2

theorem trimHistory_indexed (h : o.Indexed) (minActiveTs : Nat) :
    (o.trimHistory minActiveTs).Indexed := by
  have hsplit := List.takeWhile_append_dropWhile
    (p := fun t : CommittedTxn => decide (t.commitTs < minActiveTs)) (l := o.history)
  refine ⟨?_, h.sorted.sublist (List.dropWhile_sublist _), ?_⟩
  · refine Lists.removeAll (h := o.history.dropWhile _) ?_ ?_
    · rw [hsplit]
      exact h.lists
    · rw [hsplit]
      exact h.sorted
  · exact fun t ht => h.le t ((List.dropWhile_sublist _).mem ht)

theorem mem_trimHistory {minActiveTs : Nat} (ht : t ∈ o.history) (hle : minActiveTs ≤ t.commitTs) :
    t ∈ (o.trimHistory minActiveTs).history := by
  have hsplit := List.takeWhile_append_dropWhile
    (p := fun t : CommittedTxn => decide (t.commitTs < minActiveTs)) (l := o.history)
  rw [← hsplit] at ht
  cases List.mem_append.mp ht with
  | inl hpre =>
    have hlt := List.all_takeWhile (p := fun t : CommittedTxn => decide (t.commitTs < minActiveTs))
      (l := o.history)
    have := List.all_eq_true.mp hlt t hpre
    simp only [decide_eq_true_eq] at this
    omega
  | inr hpost => exact hpost

theorem checkAndCommitInternal_some {o' : TxnOracle} (h : o.Indexed) {readTs commitTs : Nat}
    {readFps writeFps : List UInt64}
    (hc : o.checkAndCommitInternal readTs readFps writeFps = some (commitTs, o')) :
    commitTs = o.nextTs + 1 ∧ o'.toOracle = o.toOracle.newCommitTs.2 ∧ o'.Indexed ∧
      (∀ t ∈ o.history, readTs < t.commitTs → ∀ fp ∈ t.writes, fp ∉ readFps ∧ fp ∉ writeFps) ∧
      (∀ t, t ∈ o.history ∨ t = ⟨commitTs, writeFps⟩ → o.minReadTs ≤ t.commitTs →
        t ∈ o'.history) ∧
      ∀ t ∈ o'.history, t ∈ o.history ∨ t = ⟨commitTs, writeFps⟩ := by
  unfold checkAndCommitInternal at hc
  split at hc
  · cases hc
  · rename_i hno
    have hold : ∀ a ∈ o.history, a.commitTs < o.nextTs + 1 := fun a ha => Nat.lt_succ_of_le (h.le a ha)
    simp only [Option.some.injEq, Prod.mk.injEq] at hc
    obtain ⟨rfl, rfl⟩ := hc
    have hadd : Indexed ⟨o.toOracle.newCommitTs.2, o.history ++ [⟨o.nextTs + 1, writeFps⟩],
        indexWrites (o.nextTs + 1) writeFps o.historyIndex⟩ := by
      refine ⟨h.lists.add (t := ⟨o.nextTs + 1, writeFps⟩) fun a ha => Nat.ne_of_lt (hold a ha), ?_, ?_⟩
      · rw [List.pairwise_append]
        exact ⟨h.sorted, List.pairwise_singleton _ _, by simpa using hold⟩
      · intro t ht
        cases List.mem_append.mp ht with
        | inl ht => exact Nat.le_succ_of_le (h.le t ht)
        | inr ht => rw [List.mem_singleton.mp ht]; exact Nat.le_refl _
    refine ⟨rfl, rfl, trimHistory_indexed hadd _, ?_, ?_, ?_⟩
    · intro t ht hlt fp hfp
      simp only [Bool.or_eq_true, not_or, conflicts_iff h] at hno
      exact ⟨fun hr => hno.1 ⟨t, ht, hlt, fp, hr, hfp⟩, fun hw => hno.2 ⟨t, ht, hlt, fp, hw, hfp⟩⟩
    · intro t ht hle
      refine mem_trimHistory ?_ hle
      exact List.mem_append.mpr (ht.imp_right List.mem_singleton.mpr)
    · intro t ht
      simpa using (List.dropWhile_sublist _).mem ht

theorem abortCommit_spec (h : o.Indexed) (commitTs : Nat) :
    (o.abortCommit commitTs).toOracle =
        Oracle.advanceApplied { o.toOracle with awaiting := o.awaiting.filter (· ≠ commitTs) } ∧
      (o.abortCommit commitTs).Indexed ∧
      ∀ t, t ∈ (o.abortCommit commitTs).history ↔ t ∈ o.history ∧ t.commitTs ≠ commitTs := by
  unfold abortCommit
  cases hf : o.history.find? (fun t => decide (t.commitTs = commitTs)) with
  | none =>
    refine ⟨rfl, ⟨h.lists, h.sorted, h.le⟩, fun t => ?_⟩
    have hnone := List.find?_eq_none.mp hf
    simp only [decide_eq_true_eq] at hnone
    exact ⟨fun ht => ⟨ht, hnone t ht⟩, fun ht => ht.1⟩
  | some t =>
    obtain ⟨htc, h₁, h₂, hsplit, hpre⟩ := List.find?_eq_some_iff_append.mp hf
    have herase : o.history.eraseP (fun t => decide (t.commitTs = commitTs)) = h₁ ++ h₂ := by
      rw [hsplit, List.eraseP_append_right _ (by simpa using hpre),
        List.eraseP_cons_of_pos (p := fun t : CommittedTxn => decide (t.commitTs = commitTs)) htc]
    have hs := h.sorted
    have hl := h.lists
    rw [hsplit] at hs hl
    have hsub : (h₁ ++ h₂).Sublist (h₁ ++ t :: h₂) :=
      List.Sublist.append_left (List.sublist_cons_self _ _) _
    refine ⟨rfl, ⟨?_, ?_, ?_⟩, fun a => ?_⟩
    · simp only [herase]
      exact hl.remove hs
    · simp only [herase]
      exact hs.sublist hsub
    · simp only [herase]
      exact fun a ha => h.le a (hsplit ▸ hsub.mem ha)
    · simp only [herase]
      simp only [hsplit, List.mem_append, List.mem_cons]
      simp only [decide_eq_true_eq] at htc
      have hp := List.pairwise_cons.mp
        ((List.perm_middle.pairwise_iff (fun {a b : CommittedTxn} => Ne.symm)).mp (hs.imp Nat.ne_of_lt))
      constructor
      · intro ha
        exact ⟨ha.imp_right Or.inr, htc ▸ (hp.1 a (List.mem_append.mpr ha)).symm⟩
      · rintro ⟨ha | rfl | ha, hne⟩
        · exact Or.inl ha
        · exact absurd htc hne
        · exact Or.inr ha

end TxnOracle
end AkwaDB
