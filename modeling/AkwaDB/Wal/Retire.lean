import AkwaDB.Lib.Reach
import AkwaDB.Store.Table

/-!
# AkwaDB.Wal.Retire

When a rotated log segment may go: writers, rotations, the flush worker and shutdown, step by step.

A rotation (`flushBackpressure` or `forceFlush`, with `memTableMu` held) swaps the memtable, renames
`wal.log` to a segment, and then selects between handing the task to the flush worker and the
context's cancellation. The worker creates the table, installs it with an `A` record, and retires the
segment. On cancellation the select retires the segment as well, with no table made.

`retired_recorded`: in every run in which the select takes its cancellation branch only for an empty
memtable, a segment is retired only once its table is in the MANIFEST, and every acknowledged write
is in `wal.log`, in a segment, or in a listed table. `cancelled_select_loses` is the run without it.
-/

namespace AkwaDB
namespace Retire

structure FlushTask where
  seq : Nat
  memTable : SkipList

/-- Where `executeFlush` stands in the flush worker. -/
inductive Worker where
  | idle
  | took (task : FlushTask)
  | created (task : FlushTask) (sst : Table)
  | installed (task : FlushTask)
  | finishing
  | stopped

/-- `waiting` is the task at the select; the last three fields record what has happened. -/
structure State where
  mem : SkipList
  imm : Bool
  nextSeq : Nat
  waiting : Option FlushTask
  flushChan : List FlushTask
  worker : Worker
  cancelled : Bool
  segments : List FlushTask
  manifest : List Table
  acked : List Entry
  tasks : List FlushTask
  retired : List FlushTask

inductive Act where
  | write (es : List Entry) (seq : Nat)
  | rotate
  | enqueue
  | done
  | cancel
  | take
  | create
  | createFails
  | install
  | retire
  | finish
  | stop

def State.removeOrArchive (s : State) (task : FlushTask) : State :=
  { s with
    segments := s.segments.filter fun g => decide (g.seq ≠ task.seq)
    retired := s.retired ++ [task] }

section
variable (xxhash : Bytes → UInt64) (now : Int)

def State.step (s : State) : Act → Option State
  | .write es seq =>
    -- the memtable is pinned under the read lock
    if s.waiting.isSome then none
    else some { s with
      mem := es.foldl SkipList.insertNode s.mem
      nextSeq := max s.nextSeq seq
      acked := s.acked ++ es }
  | .rotate =>
    if s.cancelled ∨ s.imm ∨ s.waiting.isSome then none
    else
      let task := ⟨s.nextSeq + 1, s.mem⟩
      some { s with
        mem := SkipList.newSkipList.seedVersion s.mem.currentVersion
        imm := true
        nextSeq := s.nextSeq + 1
        waiting := some task
        segments := s.segments ++ [task]
        tasks := s.tasks ++ [task] }
  | .enqueue =>
    match s.waiting with
    | none => none
    | some task =>
      if s.flushChan.length < 16 then
        some { s with waiting := none, flushChan := s.flushChan ++ [task] }
      else none
  | .done =>
    match s.waiting with
    | none => none
    | some task =>
      if s.cancelled then some ({ s with waiting := none }.removeOrArchive task) else none
  | .cancel => some { s with cancelled := true }
  | .take =>
    match s.worker, s.flushChan with
    | .idle, task :: rest => some { s with worker := .took task, flushChan := rest }
    | _, _ => none
  | .create =>
    match s.worker with
    | .took task =>
      if task.memTable.allVersions = [] then
        some ({ s with worker := .finishing }.removeOrArchive task)
      else
        match Table.createAtLevel xxhash now task.seq 0 task.memTable.allVersions with
        | none => some { s with worker := .finishing }
        | some sst => some { s with worker := .created task sst }
    | _ => none
  | .createFails =>
    match s.worker with
    | .took _ => some { s with worker := .finishing }
    | _ => none
  | .install =>
    match s.worker with
    | .created task sst =>
      some { s with worker := .installed task, manifest := s.manifest ++ [sst] }
    | _ => none
  | .retire =>
    match s.worker with
    | .installed task => some ({ s with worker := .finishing }.removeOrArchive task)
    | _ => none
  | .finish =>
    match s.worker with
    | .finishing => some { s with worker := .idle, imm := false }
    | _ => none
  | .stop =>
    match s.worker, s.flushChan with
    | .idle, [] => if s.cancelled then some { s with worker := .stopped } else none
    | _, _ => none

end

def fresh : State :=
  ⟨SkipList.newSkipList.seedVersion 1, false, 0, none, [], .idle, false, [], [], [], [], []⟩

/-- The select takes its cancellation branch only with an empty memtable. -/
def StepOk (s : State) : Act → Prop
  | .done => ∀ task, s.waiting = some task → task.memTable.nodes = []
  | _ => True

/-- The table of a task: its number, and the versions of its memtable. -/
def Built (task : FlushTask) (sst : Table) : Prop :=
  sst.seq = task.seq ∧ sst.entries = task.memTable.allVersions.map Entry.stored

/-- The memtable is empty, or its table has an `A` record. -/
def Recorded (manifest : List Table) (task : FlushTask) : Prop :=
  task.memTable.nodes = [] ∨ ∃ sst ∈ manifest, Built task sst

def OnDisk (s : State) (x : Entry) : Prop :=
  x ∈ s.mem.nodes ∨ (∃ g ∈ s.segments, x ∈ g.memTable.nodes) ∨ ∃ sst ∈ s.manifest, x.stored ∈ sst.entries

/-- What the worker has in hand is a task, with its table once it has been created. -/
def Worker.Ok (tasks : List FlushTask) (manifest : List Table) : Worker → Prop
  | .took task => task ∈ tasks
  | .created task sst => task ∈ tasks ∧ Built task sst
  | .installed task => task ∈ tasks ∧ ∃ sst ∈ manifest, Built task sst
  | _ => True

structure Inv (s : State) : Prop where
  retired : ∀ task ∈ s.retired, Recorded s.manifest task
  worker : s.worker.Ok s.tasks s.manifest
  waiting : ∀ task, s.waiting = some task → task ∈ s.tasks
  queued : ∀ task ∈ s.flushChan, task ∈ s.tasks
  segment : ∀ g ∈ s.segments, g ∈ s.tasks
  distinct : (s.tasks.map FlushTask.seq).Nodup
  bound : ∀ task ∈ s.tasks, task.seq ≤ s.nextSeq
  acked : ∀ x ∈ s.acked, OnDisk s x

theorem inv_fresh : Inv fresh :=
  ⟨by simp [fresh], trivial, by simp [fresh], by simp [fresh], by simp [fresh],
    List.nodup_nil, by simp [fresh], by simp [fresh]⟩

theorem Worker.Ok.mono {tasks tasks' : List FlushTask} {manifest manifest' : List Table} {w : Worker}
    (h : w.Ok tasks manifest) (ht : tasks ⊆ tasks') (hm : manifest ⊆ manifest') :
    w.Ok tasks' manifest' := by
  cases w with
  | took task => exact ht h
  | created task sst => exact ⟨ht h.1, h.2⟩
  | installed task =>
    obtain ⟨h, sst, hsst, hb⟩ := h
    exact ⟨ht h, sst, hm hsst, hb⟩
  | idle => trivial
  | finishing => trivial
  | stopped => trivial

variable {task : FlushTask} {s : State}

theorem Recorded.mono {manifest manifest' : List Table} (h : Recorded manifest task)
    (hm : manifest ⊆ manifest') : Recorded manifest' task := by
  cases h with
  | inl h => exact Or.inl h
  | inr h =>
    obtain ⟨sst, hsst, hb⟩ := h
    exact Or.inr ⟨sst, hm hsst, hb⟩

section
variable (h : Inv s)
include h

theorem Inv.eq_of_seq {t u : FlushTask} (ht : t ∈ s.tasks) (hu : u ∈ s.tasks) (heq : t.seq = u.seq) :
    t = u := List.inj_on_of_nodup_map h.distinct ht hu heq

theorem Inv.setWorker {w : Worker} (hw : w.Ok s.tasks s.manifest) : Inv { s with worker := w } :=
  ⟨h.retired, hw, h.waiting, h.queued, h.segment, h.distinct, h.bound, h.acked⟩

theorem Inv.clearWaiting : Inv { s with waiting := none } :=
  ⟨h.retired, h.worker, fun _ hn => (nomatch hn), h.queued, h.segment, h.distinct, h.bound, h.acked⟩

theorem Inv.removeOrArchive (ht : task ∈ s.tasks) (hr : Recorded s.manifest task) :
    Inv (s.removeOrArchive task) := by
  refine ⟨?_, h.worker, h.waiting, h.queued, ?_, h.distinct, h.bound, ?_⟩
  · intro u hu
    cases List.mem_append.mp hu with
    | inl hu => exact h.retired u hu
    | inr hu =>
      rw [List.mem_singleton.mp hu]
      exact hr
  · exact fun g hg => h.segment g (List.mem_of_mem_filter hg)
  · intro x hx
    rcases h.acked x hx with hx | ⟨g, hg, hx⟩ | hx
    · exact Or.inl hx
    · by_cases hseq : g.seq = task.seq
      · -- the segment that goes is that of the task
        rw [h.eq_of_seq (h.segment g hg) ht hseq] at hx
        cases hr with
        | inl hempty =>
          rw [hempty] at hx
          cases hx
        | inr hb =>
          obtain ⟨sst, hsst, _, hent⟩ := hb
          refine Or.inr (Or.inr ⟨sst, hsst, ?_⟩)
          rw [hent]
          exact List.mem_map_of_mem (SkipList.mem_allVersions.mpr hx)
      · exact Or.inr (Or.inl ⟨g, List.mem_filter.mpr ⟨hg, by simpa using hseq⟩, hx⟩)
    · exact Or.inr (Or.inr hx)

theorem inv_write (es : List Entry) (seq : Nat) :
    Inv { s with
      mem := es.foldl SkipList.insertNode s.mem
      nextSeq := max s.nextSeq seq
      acked := s.acked ++ es } := by
  refine ⟨h.retired, h.worker, h.waiting, h.queued, h.segment, h.distinct, ?_, ?_⟩
  · exact fun task ht => Nat.le_trans (h.bound task ht) (Nat.le_max_left _ _)
  · intro x hx
    cases List.mem_append.mp hx with
    | inl hx => exact (h.acked x hx).imp_left fun hx => SkipList.mem_insertAll.mpr (Or.inr hx)
    | inr hx => exact Or.inl (SkipList.mem_insertAll.mpr (Or.inl hx))

theorem inv_rotate :
    let task : FlushTask := ⟨s.nextSeq + 1, s.mem⟩
    Inv { s with
      mem := SkipList.newSkipList.seedVersion s.mem.currentVersion
      imm := true
      nextSeq := s.nextSeq + 1
      waiting := some task
      segments := s.segments ++ [task]
      tasks := s.tasks ++ [task] } := by
  intro task
  have hsub : s.tasks ⊆ s.tasks ++ [task] := List.subset_append_left _ _
  refine ⟨h.retired, h.worker.mono hsub fun _ hm => hm, ?_, fun t ht => hsub (h.queued t ht), ?_, ?_, ?_, ?_⟩
  · intro t ht
    cases ht
    exact List.mem_append_right _ (List.mem_singleton.mpr rfl)
  · intro g hg
    exact List.mem_append.mpr ((List.mem_append.mp hg).imp_left (h.segment g))
  · -- the new number is above all others
    rw [List.map_append]
    refine h.distinct.append (List.nodup_singleton _) ?_
    intro n hn hnew
    obtain ⟨t, ht, rfl⟩ := List.mem_map.mp hn
    have hle := h.bound t ht
    have heq : t.seq = s.nextSeq + 1 := List.mem_singleton.mp hnew
    omega
  · intro t ht
    cases List.mem_append.mp ht with
    | inl ht => exact Nat.le_succ_of_le (h.bound t ht)
    | inr ht => rw [List.mem_singleton.mp ht]
  · intro x hx
    refine Or.inr ?_
    rcases h.acked x hx with hx | ⟨g, hg, hx⟩ | hx
    · exact Or.inl ⟨task, List.mem_append_right _ (List.mem_singleton.mpr rfl), hx⟩
    · exact Or.inl ⟨g, List.mem_append_left _ hg, hx⟩
    · exact Or.inr hx

theorem inv_install {sst : Table} (hw : s.worker = .created task sst) :
    Inv { s with worker := .installed task, manifest := s.manifest ++ [sst] } := by
  have hsub : s.manifest ⊆ s.manifest ++ [sst] := List.subset_append_left _ _
  have hok := h.worker
  rw [hw] at hok
  refine ⟨fun t ht => (h.retired t ht).mono hsub, ⟨hok.1, sst, by simp, hok.2⟩, h.waiting, h.queued,
    h.segment, h.distinct, h.bound, ?_⟩
  intro x hx
  rcases h.acked x hx with hx | hx | ⟨u, hu, hx⟩
  · exact Or.inl hx
  · exact Or.inr (Or.inl hx)
  · exact Or.inr (Or.inr ⟨u, hsub hu, hx⟩)

end

section
variable {xxhash : Bytes → UInt64} {now : Int} {s s' : State}

theorem inv_create (h : Inv s) (hs : s.step xxhash now .create = some s') : Inv s' := by
  unfold State.step at hs
  dsimp only at hs
  split at hs
  · rename_i task hw
    have ht : task ∈ s.tasks := by
      have hok := h.worker
      rw [hw] at hok
      exact hok
    split at hs
    · rename_i hempty
      cases hs
      exact (h.setWorker (w := .finishing) trivial).removeOrArchive ht
        (Or.inl (SkipList.allVersions_eq_nil.mp hempty))
    · rename_i hne
      split at hs
      · cases hs
        exact h.setWorker trivial
      · rename_i sst hsst
        cases hs
        obtain ⟨_, hent, hseq, _⟩ := Table.createAtLevel_wf task.memTable.allVersions_sorted hne hsst
        exact h.setWorker ⟨ht, hseq, hent⟩
  · cases hs

theorem inv_done (h : Inv s) (hok : StepOk s .done) (hs : s.step xxhash now .done = some s') :
    Inv s' := by
  unfold State.step at hs
  dsimp only at hs
  split at hs
  · cases hs
  · rename_i task hw
    split at hs
    · cases hs
      exact h.clearWaiting.removeOrArchive (h.waiting task hw) (Or.inl (hok task hw))
    · cases hs

theorem inv_enqueue (h : Inv s) (hs : s.step xxhash now .enqueue = some s') : Inv s' := by
  unfold State.step at hs
  dsimp only at hs
  split at hs
  · cases hs
  · rename_i task hw
    split at hs
    · cases hs
      refine ⟨h.retired, h.worker, fun _ hn => (nomatch hn), ?_, h.segment, h.distinct, h.bound, h.acked⟩
      intro t ht
      cases List.mem_append.mp ht with
      | inl ht => exact h.queued t ht
      | inr ht =>
        rw [List.mem_singleton.mp ht]
        exact h.waiting task hw
    · cases hs

theorem inv_take (h : Inv s) (hs : s.step xxhash now .take = some s') : Inv s' := by
  unfold State.step at hs
  dsimp only at hs
  split at hs
  · rename_i task rest _ hq
    cases hs
    have hqueued := h.queued
    rw [hq] at hqueued
    exact ⟨h.retired, hqueued task (by simp), h.waiting, fun t ht => hqueued t (by simp [ht]),
      h.segment, h.distinct, h.bound, h.acked⟩
  · cases hs

theorem inv_retire (h : Inv s) (hs : s.step xxhash now .retire = some s') : Inv s' := by
  unfold State.step at hs
  dsimp only at hs
  split at hs
  · rename_i task hw
    cases hs
    have hok := h.worker
    rw [hw] at hok
    exact (h.setWorker (w := .finishing) trivial).removeOrArchive hok.1 (Or.inr hok.2)
  · cases hs

theorem inv_step {a : Act} (h : Inv s) (hok : StepOk s a) (hs : s.step xxhash now a = some s') :
    Inv s' := by
  cases a with
  | write es seq =>
    unfold State.step at hs
    dsimp only at hs
    split at hs
    · cases hs
    · cases hs
      exact inv_write h es seq
  | rotate =>
    unfold State.step at hs
    dsimp only at hs
    split at hs
    · cases hs
    · cases hs
      exact inv_rotate h
  | enqueue => exact inv_enqueue h hs
  | done => exact inv_done h hok hs
  | cancel =>
    cases hs
    exact ⟨h.retired, h.worker, h.waiting, h.queued, h.segment, h.distinct, h.bound, h.acked⟩
  | take => exact inv_take h hs
  | create => exact inv_create h hs
  | createFails =>
    unfold State.step at hs
    dsimp only at hs
    split at hs
    · cases hs
      exact h.setWorker trivial
    · cases hs
  | install =>
    unfold State.step at hs
    dsimp only at hs
    split at hs
    · rename_i task sst hw
      cases hs
      exact inv_install h hw
    · cases hs
  | retire => exact inv_retire h hs
  | finish =>
    unfold State.step at hs
    dsimp only at hs
    split at hs
    · cases hs
      exact ⟨h.retired, trivial, h.waiting, h.queued, h.segment, h.distinct, h.bound, h.acked⟩
    · cases hs
  | stop =>
    unfold State.step at hs
    dsimp only at hs
    split at hs
    · split at hs
      · cases hs
        exact h.setWorker trivial
      · cases hs
    · cases hs

/-- **A segment is retired only once its table is recorded**, and no acknowledged write is lost. -/
theorem retired_recorded {as : List Act} {s : State}
    (hg : Guarded (State.step xxhash now) StepOk fresh as)
    (hr : run (State.step xxhash now) fresh as = some s) :
    (∀ task ∈ s.retired, Recorded s.manifest task) ∧ ∀ x ∈ s.acked, OnDisk s x := by
  have h := run_invariant inv_step inv_fresh hg hr
  exact ⟨h.retired, h.acked⟩

end

/-! ## Shutting down during a flush -/

def putK : Entry := ⟨[107], [0, 118], false, 0, 2⟩

def flushedOnClose : List Act :=
  [.write [putK] 2, .rotate, .enqueue, .cancel, .take, .create, .install, .retire, .finish, .stop]

theorem retired_recorded_onClose : ∃ s,
    run (State.step (fun _ => 0) 0) fresh flushedOnClose = some s ∧ s.retired ≠ [] ∧
      (∀ task ∈ s.retired, Recorded s.manifest task) ∧ ∀ x ∈ s.acked, OnDisk s x := by
  obtain ⟨s, hr, hne⟩ : ∃ s, run (State.step (fun _ => 0) 0) fresh flushedOnClose = some s ∧
      s.retired ≠ [] := ⟨_, rfl, List.cons_ne_nil _ _⟩
  refine ⟨s, hr, hne, retired_recorded (guarded_of_forall ?_ _) hr⟩
  intro s a ha
  cases a with
  | done => simp [flushedOnClose] at ha
  | _ => trivial

/-- The select takes the cancellation, and the only copy of an acknowledged write goes. -/
theorem cancelled_select_loses : ∃ s,
    run (State.step (fun _ => 0) 0) fresh [.write [putK] 2, .rotate, .cancel, .done] = some s ∧
      putK ∈ s.acked ∧ ¬ OnDisk s putK ∧ ∃ task ∈ s.retired, ¬ Recorded s.manifest task := by
  refine ⟨_, rfl, by decide, ?_, ⟨3, SkipList.newSkipList.seedVersion 1 |>.insertNode putK⟩,
    List.mem_singleton.mpr rfl, ?_⟩
  · rintro (h | ⟨_, h, _⟩ | ⟨_, h, _⟩)
    · cases h
    · cases h
    · cases h
  · rintro (h | ⟨_, h, _⟩)
    · cases h
    · cases h

end Retire
end AkwaDB
