import AkwaDB.Lib.Slice
import AkwaDB.Txn.External

/-!
# AkwaDB.Txn.Index

The index of the conflict check as the code keeps it: slices that are changed in place, under keys that are taken out of
the map when their slice is empty.

`SliceOracle` is the oracle with its slices, and `view` forgets what stands behind them. Every operation on the slices
comes to the one on lists (`view_enter`, `view_trimHistoryLocked`, `view_abortCommit`), and on lists the index of a
fingerprint is the commits of the history that wrote it, in their order (`Mirrors`).

`index_mirrors_history`: both hold whatever is committed, refused, recorded, aborted and trimmed.
-/

namespace AkwaDB

namespace TxnOracle

/-- The commits that wrote a fingerprint, by a scan of the history. -/
def versions (history : List CommittedTxn) (fp : UInt64) : List Nat :=
  (history.filter fun t => decide (fp ∈ t.writes)).map CommittedTxn.commitTs

def Mirrors (history : List CommittedTxn) (index : UInt64 → List Nat) : Prop := ∀ fp, index fp = versions history fp

variable {history h₁ h₂ : List CommittedTxn} {index : UInt64 → List Nat} {t : CommittedTxn}

theorem Mirrors.add (h : Mirrors history index) (t : CommittedTxn) :
    Mirrors (history ++ [t]) (indexWrites t.commitTs t.writes index) := by
  intro fp
  rw [indexWrites, versions, List.filter_append, List.map_append, ← versions, ← h fp]
  by_cases hfp : fp ∈ t.writes <;> simp [hfp]

theorem Mirrors.remove (h : Mirrors (h₁ ++ t :: h₂) index) (hfirst : ∀ a ∈ h₁, a.commitTs ≠ t.commitTs) :
    Mirrors (h₁ ++ h₂) (removeWrites t index) := by
  intro fp
  have hsplit : ∀ h : List CommittedTxn, versions (h₁ ++ h) fp = versions h₁ fp ++ versions h fp := by
    intro h
    rw [versions, List.filter_append, List.map_append]
    rfl
  rw [removeWrites, h fp, hsplit, hsplit]
  by_cases hfp : fp ∈ t.writes
  · have hcons : versions (t :: h₂) fp = t.commitTs :: versions h₂ fp := by simp [versions, hfp]
    have hnot : t.commitTs ∉ versions h₁ fp := by
      intro hmem
      obtain ⟨a, ha, heq⟩ := List.mem_map.mp hmem
      exact hfirst a (List.mem_of_mem_filter ha) heq
    rw [if_pos hfp, hcons, List.erase_append_right _ hnot, List.erase_cons_head]
  · have hcons : versions (t :: h₂) fp = versions h₂ fp := by simp [versions, hfp]
    rw [if_neg hfp, hcons]

theorem Mirrors.trim {pre : List CommittedTxn} (h : Mirrors (pre ++ history) index) :
    Mirrors history (pre.foldl (fun index t => removeWrites t index) index) := by
  induction pre generalizing index with
  | nil => exact h
  | cons t pre ih =>
    have hone : Mirrors ([] ++ (pre ++ history)) (removeWrites t index) := h.remove (fun a ha => nomatch ha)
    exact ih hone

theorem mirrors_trimHistory {o : TxnOracle} (h : Mirrors o.history o.historyIndex) (minActiveTs : Nat) :
    Mirrors (o.trimHistory minActiveTs).history (o.trimHistory minActiveTs).historyIndex := by
  refine Mirrors.trim ?_
  show Mirrors (o.history.takeWhile _ ++ o.history.dropWhile _) o.historyIndex
  rwa [List.takeWhile_append_dropWhile]

theorem mirrors_abortCommit {o : TxnOracle} (h : Mirrors o.history o.historyIndex) (commitTs : Nat) :
    Mirrors (o.abortCommit commitTs).history (o.abortCommit commitTs).historyIndex := by
  unfold abortCommit
  cases hf : o.history.find? (fun t => decide (t.commitTs = commitTs)) with
  | none => exact h
  | some t =>
    obtain ⟨htc, h₁, h₂, hsplit, hpre⟩ := List.find?_eq_some_iff_append.mp hf
    have heq := of_decide_eq_true htc
    have herase : o.history.eraseP (fun t => decide (t.commitTs = commitTs)) = h₁ ++ h₂ := by
      rw [hsplit, List.eraseP_append_right _ (by simpa using hpre),
        List.eraseP_cons_of_pos (p := fun t : CommittedTxn => decide (t.commitTs = commitTs)) htc]
    rw [hsplit] at h
    show Mirrors (o.history.eraseP _) (removeWrites t o.historyIndex)
    rw [herase]
    refine h.remove fun a ha => ?_
    rw [heq]
    simpa using hpre a ha

end TxnOracle

open TxnOracle (Mirrors versions)

structure SliceOracle extends Oracle where
  history : Slice CommittedTxn
  historyIndex : UInt64 → Option (Slice Nat)

/-- How much larger than needed `append` makes an array. -/
structure Growth where
  spare : Nat → Nat

namespace SliceOracle

variable (g : Growth)

def slice (index : UInt64 → Option (Slice Nat)) (fp : UInt64) : Slice Nat := (index fp).getD .nil

def view (o : SliceOracle) : TxnOracle := ⟨o.toOracle, o.history.view, fun fp => (slice o.historyIndex fp).view⟩

def indexWritesLocked (commitTs : Nat) (writeFps : List UInt64) (index : UInt64 → Option (Slice Nat)) :
    UInt64 → Option (Slice Nat) :=
  writeFps.foldl (fun index fp => Function.update index fp
    (some ((slice index fp).push (List.replicate (g.spare (slice index fp).len) 0) commitTs))) index

def latestWriteLocked (o : SliceOracle) (fp : UInt64) : Nat := (slice o.historyIndex fp).view.foldl max 0

def removeWriteVersionLocked (commitTs : Nat) (index : UInt64 → Option (Slice Nat)) (fp : UInt64) :
    UInt64 → Option (Slice Nat) :=
  let list := (slice index fp).remove ((slice index fp).view.idxOf commitTs)
  Function.update index fp (if list.len = 0 then none else some list)

def trimHistoryLocked (o : SliceOracle) (minActiveTs : Nat) : SliceOracle :=
  let old := o.history.view.takeWhile fun t => decide (t.commitTs < minActiveTs)
  if old.length = 0 then o
  else
    { o with
      history := o.history.skip old.length
      historyIndex := old.foldl (fun index t => t.writes.foldl (removeWriteVersionLocked t.commitTs) index)
        o.historyIndex }

def enter (o : SliceOracle) (t : CommittedTxn) : SliceOracle :=
  { o with
    history := o.history.push (List.replicate (g.spare o.history.len) ⟨0, []⟩) t
    historyIndex := indexWritesLocked g t.commitTs t.writes o.historyIndex }

def conflicts (o : SliceOracle) (readTs : Nat) (fps : List UInt64) : Bool :=
  fps.any fun fp => decide (readTs < o.latestWriteLocked fp)

def checkAndCommitInternal (o : SliceOracle) (readTs : Nat) (readFps writeFps : List UInt64) :
    Option (Nat × SliceOracle) :=
  if o.conflicts readTs readFps || o.conflicts readTs writeFps then none
  else
    let (commitTs, base) := o.toOracle.newCommitTs
    some (commitTs, ({ o with toOracle := base }.enter g ⟨commitTs, writeFps⟩).trimHistoryLocked base.minReadTs)

def recordCommitted (xxhash : Bytes → UInt64) (o : SliceOracle) (commitTs : Nat) (writeKeys : List Bytes) :
    SliceOracle :=
  if writeKeys.isEmpty then o
  else (o.enter g ⟨commitTs, TxnOracle.fingerprints xxhash writeKeys⟩).trimHistoryLocked o.minReadTs

def abortCommit (o : SliceOracle) (commitTs : Nat) : SliceOracle :=
  let base := Oracle.advanceApplied { o.toOracle with awaiting := o.awaiting.filter (· ≠ commitTs) }
  match o.history.view.find? fun t => decide (t.commitTs = commitTs) with
  | none => { o with toOracle := base }
  | some t =>
    let found := o.history.view.findIdx fun t => decide (t.commitTs = commitTs)
    ⟨base, (o.history.remove found).clearBehind ⟨0, []⟩,
      t.writes.foldl (removeWriteVersionLocked commitTs) o.historyIndex⟩

/-! ## Slices come to lists -/

variable {g} {index : UInt64 → Option (Slice Nat)}

theorem slice_update (index : UInt64 → Option (Slice Nat)) (fp fp' : UInt64) (s : Option (Slice Nat)) :
    (slice (Function.update index fp s) fp').view =
      if fp' = fp then (s.getD .nil).view else (slice index fp').view := by
  unfold slice
  by_cases h : fp' = fp
  · subst h
    rw [Function.update_self, if_pos rfl]
  · rw [Function.update_of_ne h, if_neg h]

theorem view_foldl {f : (UInt64 → Option (Slice Nat)) → UInt64 → UInt64 → Option (Slice Nat)}
    (change : List Nat → List Nat)
    (hf : ∀ index fp fp', (slice (f index fp) fp').view =
      if fp' = fp then change (slice index fp').view else (slice index fp').view)
    {fps : List UInt64} (hfps : fps.Nodup) (index : UInt64 → Option (Slice Nat)) (fp : UInt64) :
    (slice (fps.foldl f index) fp).view = if fp ∈ fps then change (slice index fp).view else (slice index fp).view := by
  induction fps generalizing index with
  | nil => rfl
  | cons a fps ih =>
    obtain ⟨hnot, hrest⟩ := List.nodup_cons.mp hfps
    rw [List.foldl_cons, ih hrest, hf]
    by_cases ha : fp = a
    · subst ha
      rw [if_neg hnot, if_pos rfl, if_pos List.mem_cons_self]
    · simp [ha]

theorem view_indexWritesLocked {writeFps : List UInt64} (h : writeFps.Nodup) (commitTs : Nat) (fp : UInt64) :
    (slice (indexWritesLocked g commitTs writeFps index) fp).view =
      TxnOracle.indexWrites commitTs writeFps (fun fp => (slice index fp).view) fp := by
  refine view_foldl (· ++ [commitTs]) (fun index fp fp' => ?_) h index fp
  rw [slice_update]
  split
  · rename_i heq
    rw [heq, Option.getD_some, Slice.view_push]
  · rfl

theorem view_removeWriteVersionLocked (commitTs : Nat) (index : UInt64 → Option (Slice Nat)) (fp fp' : UInt64) :
    (slice (removeWriteVersionLocked commitTs index fp) fp').view =
      if fp' = fp then (slice index fp').view.erase commitTs else (slice index fp').view := by
  rw [removeWriteVersionLocked, slice_update]
  split
  · rename_i heq
    rw [heq, List.erase_eq_eraseIdx_of_idxOf rfl, ← Slice.view_remove]
    split
    · rename_i hzero
      rw [← Slice.length_view] at hzero
      exact (List.eq_nil_of_length_eq_zero hzero).symm
    · rfl
  · rfl

theorem view_removeWrites {t : CommittedTxn} (h : t.writes.Nodup) (fp : UInt64) :
    (slice (t.writes.foldl (removeWriteVersionLocked t.commitTs) index) fp).view =
      TxnOracle.removeWrites t (fun fp => (slice index fp).view) fp :=
  view_foldl (·.erase t.commitTs) (view_removeWriteVersionLocked t.commitTs) h index fp

theorem foldl_removeWrites {old : List CommittedTxn} (h : ∀ t ∈ old, t.writes.Nodup)
    (index : UInt64 → Option (Slice Nat)) :
    (fun fp =>
      (slice (old.foldl (fun index t => t.writes.foldl (removeWriteVersionLocked t.commitTs) index) index) fp).view) =
      old.foldl (fun index t => TxnOracle.removeWrites t index) fun fp => (slice index fp).view := by
  induction old generalizing index with
  | nil => rfl
  | cons t old ih =>
    rw [List.foldl_cons, List.foldl_cons, ih fun a ha => h a (List.mem_cons_of_mem _ ha)]
    congr 1
    funext fp
    exact view_removeWrites (h t List.mem_cons_self) fp

theorem view_trimHistoryLocked {o : SliceOracle} (h : ∀ t ∈ o.history.view, t.writes.Nodup) (minActiveTs : Nat) :
    (o.trimHistoryLocked minActiveTs).view = o.view.trimHistory minActiveTs := by
  have hold : ∀ t ∈ o.history.view.takeWhile (fun t => decide (t.commitTs < minActiveTs)), t.writes.Nodup :=
    fun t ht => h t ((List.takeWhile_sublist _).mem ht)
  have hsplit := List.takeWhile_append_dropWhile (p := fun t : CommittedTxn => decide (t.commitTs < minActiveTs))
    (l := o.history.view)
  have hskip := congrArg (List.drop (o.history.view.takeWhile fun t => decide (t.commitTs < minActiveTs)).length) hsplit
  rw [List.drop_left] at hskip
  unfold trimHistoryLocked TxnOracle.trimHistory
  dsimp only
  split
  · rename_i hzero
    have hnil := List.eq_nil_of_length_eq_zero hzero
    rw [hnil, List.nil_append] at hsplit
    simp only [view, hnil, hsplit, List.foldl_nil]
  · simp only [view, Slice.view_skip, hskip]
    rw [foldl_removeWrites hold]

theorem view_enter (o : SliceOracle) {t : CommittedTxn} (h : t.writes.Nodup) :
    (o.enter g t).view =
      ⟨o.toOracle, o.history.view ++ [t], TxnOracle.indexWrites t.commitTs t.writes o.view.historyIndex⟩ := by
  have hindex : (fun fp => (slice (indexWritesLocked g t.commitTs t.writes o.historyIndex) fp).view) =
      TxnOracle.indexWrites t.commitTs t.writes o.view.historyIndex :=
    funext fun fp => view_indexWritesLocked h t.commitTs fp
  simp only [view, enter, Slice.view_push, hindex]

theorem view_abortCommit {o : SliceOracle} (h : ∀ t ∈ o.history.view, t.writes.Nodup) (commitTs : Nat) :
    (o.abortCommit commitTs).view = o.view.abortCommit commitTs := by
  unfold abortCommit TxnOracle.abortCommit
  have hview : o.view.history = o.history.view := rfl
  rw [hview]
  cases hf : o.history.view.find? (fun t => decide (t.commitTs = commitTs)) with
  | none => rfl
  | some t =>
    have heq : t.commitTs = commitTs := by simpa using List.find?_some hf
    have hindex : (fun fp => (slice (t.writes.foldl (removeWriteVersionLocked commitTs) o.historyIndex) fp).view) =
        TxnOracle.removeWrites t o.view.historyIndex := by
      rw [← heq]
      exact funext (view_removeWrites (h t (List.mem_of_find?_eq_some hf)))
    simp only [view, Slice.view_clearBehind, Slice.view_remove, hindex, eraseIdx_findIdx]

/-! ## No empty slices -/

def Present (index : UInt64 → Option (Slice Nat)) : Prop := ∀ fp s, index fp = some s → s.len ≠ 0

theorem Present.update (h : Present index) (fp : UInt64) {s : Option (Slice Nat)} (hs : ∀ x, s = some x → x.len ≠ 0) :
    Present (Function.update index fp s) := by
  intro fp' x hx
  by_cases heq : fp' = fp
  · subst heq
    rw [Function.update_self] at hx
    exact hs x hx
  · rw [Function.update_of_ne heq] at hx
    exact h fp' x hx

theorem Present.indexWritesLocked (h : Present index) (commitTs : Nat) (writeFps : List UInt64) :
    Present (indexWritesLocked g commitTs writeFps index) := by
  refine List.foldlRecOn writeFps _ h fun index h fp _ => h.update fp fun x hx => ?_
  obtain rfl := Option.some.inj hx
  rw [← Slice.length_view, Slice.view_push, List.length_append]
  exact Nat.succ_ne_zero _

theorem Present.removeWrites (h : Present index) (commitTs : Nat) (writes : List UInt64) :
    Present (writes.foldl (removeWriteVersionLocked commitTs) index) := by
  refine List.foldlRecOn writes _ h fun index h fp _ => h.update fp fun x hx => ?_
  split at hx
  · cases hx
  · rename_i hne
    obtain rfl := Option.some.inj hx
    exact hne

/-- The index mirrors the history, has no empty slices, and no commit wrote a fingerprint twice. -/
structure Sound (o : SliceOracle) : Prop where
  distinct : ∀ t ∈ o.history.view, t.writes.Nodup
  present : Present o.historyIndex
  mirrors : Mirrors o.view.history o.view.historyIndex

variable {o : SliceOracle}

theorem Sound.enter (h : o.Sound) {t : CommittedTxn} (ht : t.writes.Nodup) : (o.enter g t).Sound where
  distinct := by
    intro a ha
    rw [show (o.enter g t).history.view = o.history.view ++ [t] from Slice.view_push _ _ _] at ha
    rcases List.mem_append.mp ha with ha | ha
    · exact h.distinct a ha
    · exact List.mem_singleton.mp ha ▸ ht
  present := h.present.indexWritesLocked t.commitTs t.writes
  mirrors := by
    rw [view_enter o ht]
    exact h.mirrors.add t

theorem Sound.trimHistoryLocked (h : o.Sound) (minActiveTs : Nat) : (o.trimHistoryLocked minActiveTs).Sound where
  distinct := by
    intro t ht
    have hview : (o.trimHistoryLocked minActiveTs).history.view = (o.view.trimHistory minActiveTs).history :=
      congrArg TxnOracle.history (view_trimHistoryLocked h.distinct minActiveTs)
    rw [hview] at ht
    exact h.distinct t ((List.dropWhile_sublist _).mem ht)
  present := by
    unfold SliceOracle.trimHistoryLocked
    dsimp only
    split
    · exact h.present
    · exact List.foldlRecOn _ _ h.present fun index h t _ => h.removeWrites t.commitTs t.writes
  mirrors := by
    rw [view_trimHistoryLocked h.distinct]
    exact TxnOracle.mirrors_trimHistory h.mirrors minActiveTs

theorem Sound.abortCommit (h : o.Sound) (commitTs : Nat) : (o.abortCommit commitTs).Sound where
  distinct := by
    intro t ht
    have hview : (o.abortCommit commitTs).history.view = (o.view.abortCommit commitTs).history :=
      congrArg TxnOracle.history (view_abortCommit h.distinct commitTs)
    rw [hview, TxnOracle.abortCommit] at ht
    split at ht
    · exact h.distinct t ht
    · exact h.distinct t ((List.eraseP_sublist).mem ht)
  present := by
    unfold SliceOracle.abortCommit
    dsimp only
    split
    · exact h.present
    · exact h.present.removeWrites commitTs _
  mirrors := by
    rw [view_abortCommit h.distinct]
    exact TxnOracle.mirrors_abortCommit h.mirrors commitTs

theorem Sound.base (h : o.Sound) (b : Oracle) : Sound { o with toOracle := b } := ⟨h.distinct, h.present, h.mirrors⟩

/-- What the oracle's callers do. A write set is a set. -/
inductive Event
  | check (readTs : Nat) (readFps : List UInt64) (writeFps : {l : List UInt64 // l.Nodup})
  | record (commitTs : Nat) (writeKeys : List Bytes)
  | abort (commitTs : Nat)
  /-- Readers come and go and commits are applied, so that the next trim has any watermark. -/
  | base (b : Oracle)

def step (g : Growth) (xxhash : Bytes → UInt64) (o : SliceOracle) : Event → SliceOracle
  | .check readTs readFps writeFps => ((o.checkAndCommitInternal g readTs readFps writeFps).map Prod.snd).getD o
  | .record commitTs writeKeys => o.recordCommitted g xxhash commitTs writeKeys
  | .abort commitTs => o.abortCommit commitTs
  | .base b => { o with toOracle := b }

def init (base : Oracle) : SliceOracle := ⟨base, .nil, fun _ => none⟩

theorem Sound.step (h : o.Sound) (xxhash : Bytes → UInt64) (e : Event) : (o.step g xxhash e).Sound := by
  cases e with
  | check readTs readFps writeFps =>
    unfold SliceOracle.step checkAndCommitInternal
    dsimp only
    split
    · exact h
    · exact ((h.base _).enter writeFps.2).trimHistoryLocked _
  | record commitTs writeKeys =>
    unfold SliceOracle.step recordCommitted
    dsimp only
    split
    · exact h
    · exact (h.enter (List.nodup_dedup _)).trimHistoryLocked _
  | abort commitTs => exact h.abortCommit commitTs
  | base b => exact h.base b

theorem sound_run (g : Growth) (xxhash : Bytes → UInt64) (base : Oracle) (events : List Event) :
    (events.foldl (step g xxhash) (init base)).Sound := by
  refine List.foldlRecOn events _ ?_ fun o h e _ => h.step xxhash e
  exact ⟨fun t ht => (nomatch ht), fun fp s hs => (nomatch hs), fun fp => rfl⟩

def scan (history : List CommittedTxn) (fp : UInt64) : Nat :=
  history.foldl (fun latest t => if fp ∈ t.writes then max latest t.commitTs else latest) 0

theorem scan_eq_foldl_versions (history : List CommittedTxn) (fp : UInt64) :
    scan history fp = (versions history fp).foldl max 0 := by
  rw [scan, versions, List.foldl_map, List.foldl_filter]
  simp only [decide_eq_true_eq]

/-- **The index mirrors the history**, whatever was committed, refused, recorded, aborted and trimmed before. -/
theorem index_mirrors_history (g : Growth) (xxhash : Bytes → UInt64) (base : Oracle) (events : List Event)
    (fp : UInt64) :
    let o := events.foldl (step g xxhash) (init base)
    (slice o.historyIndex fp).view = versions o.history.view fp ∧
      (o.historyIndex fp = none ↔ ∀ t ∈ o.history.view, fp ∉ t.writes) ∧
      o.latestWriteLocked fp = scan o.history.view fp := by
  intro o
  have h : o.Sound := sound_run g xxhash base events
  have hmirrors : (slice o.historyIndex fp).view = versions o.history.view fp := h.mirrors fp
  refine ⟨hmirrors, ?_, by rw [scan_eq_foldl_versions, ← hmirrors]; rfl⟩
  have hempty : versions o.history.view fp = [] ↔ ∀ t ∈ o.history.view, fp ∉ t.writes := by simp [versions]
  rw [← hempty, ← hmirrors]
  cases hs : o.historyIndex fp with
  | none => simp [slice, hs]
  | some s =>
    have hne : s.view ≠ [] := fun hnil => h.present fp s hs (by rw [← Slice.length_view, hnil]; rfl)
    simp [slice, hs, hne]

/-! ## The oracle on slices is the oracle on lists -/

def listStep (xxhash : Bytes → UInt64) (o : TxnOracle) : Event → TxnOracle
  | .check readTs readFps writeFps => ((o.checkAndCommitInternal readTs readFps writeFps).map Prod.snd).getD o
  | .record commitTs writeKeys => o.recordCommitted xxhash commitTs writeKeys
  | .abort commitTs => o.abortCommit commitTs
  | .base b => { o with toOracle := b }

theorem Sound.view_commit (h : o.Sound) {t : CommittedTxn} (ht : t.writes.Nodup) (minActiveTs : Nat) :
    ((o.enter g t).trimHistoryLocked minActiveTs).view = (TxnOracle.trimHistory ⟨o.toOracle, o.view.history ++ [t],
      TxnOracle.indexWrites t.commitTs t.writes o.view.historyIndex⟩ minActiveTs) := by
  rw [view_trimHistoryLocked (h.enter ht).distinct, view_enter o ht]
  rfl

theorem Sound.view_check (h : o.Sound) (readTs : Nat) (readFps : List UInt64) {writeFps : List UInt64}
    (hw : writeFps.Nodup) :
    (o.checkAndCommitInternal g readTs readFps writeFps).map (fun r => (r.1, r.2.view)) =
      o.view.checkAndCommitInternal readTs readFps writeFps := by
  unfold checkAndCommitInternal TxnOracle.checkAndCommitInternal
  have hconf : ∀ fps, o.conflicts readTs fps = o.view.conflicts readTs fps := fun _ => rfl
  rw [hconf, hconf]
  split
  · rfl
  · exact congrArg (fun o => some (_, o)) ((h.base _).view_commit (t := ⟨_, writeFps⟩) hw _)

theorem Sound.view_step (h : o.Sound) (xxhash : Bytes → UInt64) (e : Event) :
    (o.step g xxhash e).view = listStep xxhash o.view e := by
  cases e with
  | check readTs readFps writeFps =>
    rw [listStep, ← h.view_check (g := g) readTs readFps writeFps.2, SliceOracle.step]
    cases o.checkAndCommitInternal g readTs readFps writeFps <;> rfl
  | record commitTs writeKeys =>
    unfold SliceOracle.step listStep recordCommitted TxnOracle.recordCommitted
    dsimp only
    split
    · rfl
    · exact h.view_commit (t := ⟨commitTs, _⟩) (List.nodup_dedup _) _
  | abort commitTs => exact view_abortCommit h.distinct commitTs
  | base b => rfl

/-- **Slices do not show**: the oracle that changes them in place is the oracle on lists. -/
theorem slices_simulate (g : Growth) (xxhash : Bytes → UInt64) (base : Oracle) (events : List Event) :
    let o := events.foldl (step g xxhash) (init base)
    let lists := events.foldl (listStep xxhash) ⟨base, [], fun _ => []⟩
    o.view = lists ∧ ∀ readTs readFps (writeFps : {l : List UInt64 // l.Nodup}),
      (o.checkAndCommitInternal g readTs readFps writeFps).map (fun r => (r.1, r.2.view)) =
        lists.checkAndCommitInternal readTs readFps writeFps := by
  intro o lists
  have hview : o.view = lists := by
    suffices ∀ {o : SliceOracle}, o.Sound → (events.foldl (step g xxhash) o).view =
        events.foldl (listStep xxhash) o.view from this (sound_run g xxhash base [])
    induction events with
    | nil => exact fun _ => rfl
    | cons e events ih =>
      intro o h
      rw [List.foldl_cons, List.foldl_cons, ih (h.step xxhash e), h.view_step]
  refine ⟨hview, fun readTs readFps writeFps => ?_⟩
  rw [← hview]
  exact (sound_run g xxhash base events).view_check readTs readFps writeFps.2

end SliceOracle
end AkwaDB
