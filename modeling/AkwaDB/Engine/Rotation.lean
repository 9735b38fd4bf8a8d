import AkwaDB.Engine.State
import AkwaDB.Lib.Channel
import AkwaDB.Lib.Interleave
import AkwaDB.Lib.Reach

/-!
# AkwaDB.Engine.Rotation

Rotations of the memtable that fail, and those who wait for the flush.

`triggerFlushLocked` swaps the memtables and closes the log before it renames the log file and opens
a new one. An error of the last two leaves all that behind. `flushBackpressure` and `forceFlush` wait
until there is no immutable memtable, and only the flush of a queued task takes it away.

`rotation_fine_iff`: in a run, every rotation that fails leaves the memtables and the log as they
were and nobody waits for a memtable without a task, exactly if no rotation fails.
-/

namespace AkwaDB
namespace Rotation

structure FlushTask where
  seq : Nat
  memTable : SkipList

inductive RotateError where
  | rename
  | create

/-- `walOpen`: the log takes appends. `broadcasts` counts those of `l0Cond`, `locked` is `memTableMu`. -/
structure Shared where
  engine : Engine
  walOpen : Bool
  walLog : List Entry
  segments : List (Nat × List Entry)
  flushChan : Chan FlushTask
  cancelled : Bool
  locked : Bool
  broadcasts : Nat
  failures : List RotateError

/-- A goroutine that writes. `since` is the number of broadcasts when it began to wait. -/
inductive Writer where
  | idle
  /-- In the loop of `flushBackpressure`, or in the first one of `forceFlush`. -/
  | waiting (force : Bool) (since : Nat)
  | sending (force : Bool) (task : FlushTask)
  | settling (since : Nat)

inductive Flusher where
  | idle
  | executing (task : FlushTask)
  | telling
  | stopped

inductive Closer where
  | called
  | cancelled
  | told

inductive Proc where
  | writer (w : Writer)
  | flusher (f : Flusher)
  | closer (c : Closer)

/-- What becomes of the file operations of a rotation. -/
structure RotateIo where
  renamed : Bool
  created : Bool

inductive Act where
  /-- `dispatch` of one entry; `pointer` when its value is in the value log. -/
  | write (x : Entry) (pointer : Bool)
  | flushBackpressure (io : RotateIo)
  | forceFlush (io : RotateIo)
  | wake (io : RotateIo)
  | send
  | ctxDone
  | receive
  | executeFlush (fails : Bool)
  | tell
  | cancel

abbrev System := Pool Shared Proc

def opened (engine : Engine) (writers : Nat) : System where
  shared := ⟨{ engine with imm := none }, true, [], [], Chan.make FlushTask 16, false, false, 0, []⟩
  procs := .closer .called :: .flusher .idle :: List.replicate writers (.writer .idle)

section Steps

variable (cfg : Config) (sizeInBytes : SkipList → Nat)

/-- The swap of the memtables and the close of the log come first. -/
def triggerFlushLocked (io : RotateIo) (sh : Shared) : Except RotateError FlushTask × Shared :=
  let old := sh.engine.mem
  let seq := sh.engine.nextSeq + 1
  let swapped := { sh with
    engine := { sh.engine with
      mem := SkipList.newSkipList.seedVersion old.currentVersion
      imm := some (old, seq)
      nextSeq := seq }
    walOpen := false }
  if io.renamed then
    let moved := { swapped with walLog := [], segments := sh.segments ++ [(seq, sh.walLog)] }
    if io.created then (.ok ⟨seq, old⟩, { moved with walOpen := true }) else (.error .create, moved)
  else (.error .rename, swapped)

def rotating (io : RotateIo) (force : Bool) (sh : Shared) : Shared × Writer :=
  match triggerFlushLocked io sh with
  | (.ok task, sh') => ({ sh' with locked := true }, .sending force task)
  | (.error e, sh') => ({ sh' with failures := sh'.failures ++ [e] }, .idle)

def flushBackpressure (io : RotateIo) (sh : Shared) : Shared × Writer :=
  if sh.cancelled then (sh, .idle)
  else if sizeInBytes sh.engine.mem < cfg.memTableSize then (sh, .idle)
  else if sh.engine.imm.isSome then (sh, .waiting false sh.broadcasts)
  else rotating io false sh

def forceFlush (io : RotateIo) (sh : Shared) : Shared × Writer :=
  if sh.cancelled then (sh, .idle)
  else if sh.engine.imm.isSome then (sh, .waiting true sh.broadcasts)
  else if sizeInBytes sh.engine.mem = 0 then (sh, .idle)
  else rotating io true sh

def await (wait : Nat → Writer) (sh : Shared) : Shared × Writer :=
  if sh.engine.imm.isSome ∧ sh.cancelled = false then (sh, wait sh.broadcasts) else (sh, .idle)

def writerStep (sh : Shared) : Act → Writer → Option (Shared × Writer)
  | .write x pointer, .idle =>
    if sh.locked then none
    else if sh.walOpen then
      some ({ sh with
        engine := { sh.engine with mem := sh.engine.mem.insertNode x }
        walLog := sh.walLog ++ [x] }, .idle)
    else if pointer then
      -- the error of the log is not looked at
      some ({ sh with engine := { sh.engine with mem := sh.engine.mem.insertNode x } }, .idle)
    else some (sh, .idle)
  | .flushBackpressure io, .idle => if sh.locked then none else some (flushBackpressure cfg sizeInBytes io sh)
  | .forceFlush io, .idle => if sh.locked then none else some (forceFlush sizeInBytes io sh)
  | .wake io, .waiting force since =>
    if sh.locked ∨ sh.broadcasts ≤ since then none
    else if force then some (forceFlush sizeInBytes io sh)
    else some (await (.waiting false) sh)
  | .wake _, .settling since =>
    if sh.locked ∨ sh.broadcasts ≤ since then none else some (await .settling sh)
  | .send, .sending force task =>
    match sh.flushChan.send task with
    | .sent flushChan =>
      let sh := { sh with flushChan, locked := false }
      some (if force then await .settling sh else (sh, .idle))
    | _ => none
  | .ctxDone, .sending _ task =>
    -- `removeOrArchive` takes the segment
    if sh.cancelled then
      some ({ sh with locked := false, segments := sh.segments.filter fun s => s.1 != task.seq }, .idle)
    else none
  | _, _ => none

/-- `executeFlush` up to the broadcast: the segment goes unless the table could not be created. -/
def executeFlush (fails : Bool) (task : FlushTask) (sh : Shared) : Shared :=
  let e := { sh.engine with imm := none }
  let gone := sh.segments.filter fun s => s.1 != task.seq
  if task.memTable.allVersions = [] then { sh with engine := e, segments := gone }
  else
    match if fails then none else Table.createAtLevel cfg.xxhash e.now task.seq 0 task.memTable.allVersions with
    | some t => { sh with
        engine := { e with levels := setLevel e.levels 0 (e.levels 0 ++ [t]) }
        segments := gone }
    | none => { sh with engine := e }

def flusherStep (sh : Shared) : Act → Flusher → Option (Shared × Flusher)
  | .receive, .idle =>
    match sh.flushChan.recv with
    | .value task flushChan => some ({ sh with flushChan }, .executing task)
    | _ => none
  | .ctxDone, .idle =>
    -- the worker empties the channel before it returns
    if sh.cancelled ∧ sh.flushChan.buf = [] then some (sh, .stopped) else none
  | .executeFlush fails, .executing task => some (executeFlush cfg fails task sh, .telling)
  | .tell, .telling => if sh.locked then none else some ({ sh with broadcasts := sh.broadcasts + 1 }, .idle)
  | _, _ => none

def closerStep (sh : Shared) : Act → Closer → Option (Shared × Closer)
  | .cancel, .called => some ({ sh with cancelled := true }, .cancelled)
  | .tell, .cancelled => if sh.locked then none else some ({ sh with broadcasts := sh.broadcasts + 1 }, .told)
  | _, _ => none

def move (sh : Shared) (a : Act) : Proc → Option (Shared × Proc)
  | .writer w => (writerStep cfg sizeInBytes sh a w).map fun r => (r.1, .writer r.2)
  | .flusher f => (flusherStep cfg sh a f).map fun r => (r.1, .flusher r.2)
  | .closer c => (closerStep sh a c).map fun r => (r.1, .closer r.2)

def step : System → Nat × Act → Option System := Pool.step (move cfg sizeInBytes)

end Steps

/-! ## What is to hold -/

def AsBefore (sh sh' : Shared) : Prop :=
  sh'.engine.mem = sh.engine.mem ∧ sh'.engine.imm = sh.engine.imm ∧ sh'.walOpen = sh.walOpen ∧
    sh'.walLog = sh.walLog

def Proc.waits : Proc → Bool
  | .writer (.waiting _ _) => true
  | .writer (.settling _) => true
  | _ => false

def Proc.task : Proc → Option FlushTask
  | .writer (.sending _ task) => some task
  | .flusher (.executing task) => some task
  | _ => none

def Cleared (s : System) (imm : SkipList × Nat) : Prop :=
  (∃ task, (task ∈ s.shared.flushChan.buf ∨ ∃ p ∈ s.procs, p.task = some task) ∧
    imm = (task.memTable, task.seq)) ∧ ∀ f, .flusher f ∈ s.procs → f ≠ .stopped

/-- Somebody waits for a memtable that no task will take away. -/
def Stranded (s : System) : Prop :=
  s.shared.cancelled = false ∧ (∃ p ∈ s.procs, p.waits = true) ∧
    ∃ imm, s.shared.engine.imm = some imm ∧ ¬ Cleared s imm

section Fine

variable (cfg : Config) (sizeInBytes : SkipList → Nat)

/-- A rotation that fails in this step leaves everything as it was, and nobody is stranded. -/
def Fine (s : System) (a : Nat × Act) : Prop :=
  ∀ s', step cfg sizeInBytes s a = some s' →
    (s'.shared.failures ≠ s.shared.failures → AsBefore s.shared s'.shared) ∧ ¬ Stranded s'

def Rotates (s : System) (a : Nat × Act) : Prop :=
  ∀ s', step cfg sizeInBytes s a = some s' → s'.shared.failures = s.shared.failures

end Fine

def Pending (sh : Shared) (p : Proc) (task : FlushTask) : Prop :=
  task ∈ sh.flushChan.buf ∨ p.task = some task

/-- The immutable memtable goes, comes with its task, or stays and no task is lost. -/
inductive Kept (sh : Shared) (p : Proc) (sh' : Shared) (q : Proc) : Prop where
  | gone (h : sh'.engine.imm = none)
  | rotated (task : FlushTask) (h : sh'.engine.imm = some (task.memTable, task.seq)) (hp : Pending sh' q task)
  | same (h : sh'.engine.imm = sh.engine.imm) (hp : ∀ task, Pending sh p task → Pending sh' q task)

def Failed (sh sh' : Shared) : Prop :=
  sh.engine.imm = none ∧ sh'.engine.imm ≠ none ∧ sh'.failures ≠ sh.failures

def Outcome (sh : Shared) (p : Proc) (sh' : Shared) (q : Proc) : Prop :=
  (sh.cancelled = true → sh'.cancelled = true) ∧
    (Failed sh sh' ∨ sh'.failures = sh.failures ∧ (sh'.cancelled = true ∨ Kept sh p sh' q))

theorem Outcome.still {sh : Shared} {p q : Proc} (h : p.task = none) : Outcome sh p sh q :=
  ⟨id, .inr ⟨rfl, .inr (.same rfl fun task ht => ht.imp_right fun hp => by rw [h] at hp; cases hp)⟩⟩

theorem rotating_outcome (io : RotateIo) (force : Bool) {sh : Shared} (himm : sh.engine.imm = none) (w : Writer) :
    Outcome sh (.writer w) (rotating io force sh).1 (.writer (rotating io force sh).2) := by
  simp only [rotating, triggerFlushLocked]
  cases io.renamed with
  | false => exact ⟨id, .inl ⟨himm, by simp, by simp⟩⟩
  | true =>
    cases io.created with
    | false => exact ⟨id, .inl ⟨himm, by simp, by simp⟩⟩
    | true => exact ⟨id, .inr ⟨rfl, .inr (.rotated ⟨_, _⟩ rfl (.inr rfl))⟩⟩

section Outcomes

variable {cfg : Config} {sizeInBytes : SkipList → Nat}

theorem imm_eq_none {sh : Shared} (h : ¬ sh.engine.imm.isSome = true) : sh.engine.imm = none := by
  simpa using h

theorem flushBackpressure_outcome (io : RotateIo) (sh : Shared) {w : Writer} (hw : (Proc.writer w).task = none) :
    Outcome sh (.writer w) (flushBackpressure cfg sizeInBytes io sh).1
      (.writer (flushBackpressure cfg sizeInBytes io sh).2) := by
  unfold flushBackpressure
  split
  · exact .still hw
  · split
    · exact .still hw
    · split
      · exact .still hw
      · rename_i himm
        exact rotating_outcome io false (imm_eq_none himm) w

theorem forceFlush_outcome (io : RotateIo) (sh : Shared) {w : Writer} (hw : (Proc.writer w).task = none) :
    Outcome sh (.writer w) (forceFlush sizeInBytes io sh).1 (.writer (forceFlush sizeInBytes io sh).2) := by
  unfold forceFlush
  split
  · exact .still hw
  · split
    · exact .still hw
    · rename_i himm
      split
      · exact .still hw
      · exact rotating_outcome io true (imm_eq_none himm) w

theorem await_fst (wait : Nat → Writer) (sh : Shared) : (await wait sh).1 = sh := by
  unfold await
  split <;> rfl

theorem pending_sent {sh : Shared} (force : Bool) (task : FlushTask) (q : Proc) :
    ∀ task', Pending sh (.writer (.sending force task)) task' →
      Pending { sh with flushChan := { sh.flushChan with buf := sh.flushChan.buf ++ [task] }, locked := false }
        q task' := by
  rintro task' (ht | ht)
  · exact .inl (List.mem_append_left _ ht)
  · cases ht
    exact .inl (by simp)

theorem writerStep_outcome {sh : Shared} {a : Act} {w : Writer} {r : Shared × Writer}
    (h : writerStep cfg sizeInBytes sh a w = some r) : Outcome sh (.writer w) r.1 (.writer r.2) := by
  unfold writerStep at h
  split at h
  · -- a write leaves the immutable memtable and the tasks alone
    split at h
    · cases h
    · split at h
      · cases h
        exact ⟨id, .inr ⟨rfl, .inr (.same rfl fun _ => id)⟩⟩
      · split at h <;> cases h <;> exact ⟨id, .inr ⟨rfl, .inr (.same rfl fun _ => id)⟩⟩
  · split at h
    · cases h
    · cases h
      exact flushBackpressure_outcome _ sh rfl
  · split at h
    · cases h
    · cases h
      exact forceFlush_outcome _ sh rfl
  · split at h
    · cases h
    · split at h <;> cases h
      · exact forceFlush_outcome _ sh rfl
      · rw [await_fst]
        exact .still rfl
  · split at h <;> cases h
    rw [await_fst]
    exact .still rfl
  · split at h
    · rename_i force task _ flushChan hc
      obtain ⟨_, rfl⟩ := Chan.send_eq_sent hc
      cases h
      split
      · rw [await_fst]
        exact ⟨id, .inr ⟨rfl, .inr (.same rfl (pending_sent force task _))⟩⟩
      · exact ⟨id, .inr ⟨rfl, .inr (.same rfl (pending_sent force task _))⟩⟩
    · cases h
  · split at h
    · rename_i hcan
      cases h
      exact ⟨id, .inr ⟨rfl, .inl hcan⟩⟩
    · cases h
  · cases h

theorem executeFlush_imm (fails : Bool) (task : FlushTask) (sh : Shared) :
    (executeFlush cfg fails task sh).engine.imm = none ∧
      (executeFlush cfg fails task sh).cancelled = sh.cancelled ∧
        (executeFlush cfg fails task sh).failures = sh.failures := by
  simp only [executeFlush]
  split
  · exact ⟨rfl, rfl, rfl⟩
  · split <;> exact ⟨rfl, rfl, rfl⟩

theorem flusherStep_outcome {sh : Shared} {a : Act} {f : Flusher} {r : Shared × Flusher}
    (h : flusherStep cfg sh a f = some r) :
    Outcome sh (.flusher f) r.1 (.flusher r.2) ∧ (r.2 = .stopped → sh.cancelled = true) := by
  unfold flusherStep at h
  split at h
  · split at h
    · rename_i task flushChan hc
      cases h
      obtain ⟨hbuf, _⟩ := Chan.recv_eq_value hc
      refine ⟨⟨id, .inr ⟨rfl, .inr (.same rfl fun task' ht => ?_)⟩⟩, fun hst => nomatch hst⟩
      rcases ht with ht | ht
      · rw [hbuf] at ht
        rcases List.mem_cons.mp ht with rfl | ht
        · exact .inr rfl
        · exact .inl ht
      · cases ht
    · cases h
  · split at h
    · rename_i hcan
      cases h
      exact ⟨.still rfl, fun _ => hcan.1⟩
    · cases h
  · rename_i fails task
    cases h
    obtain ⟨himm, hcan, hfail⟩ := @executeFlush_imm cfg fails task sh
    exact ⟨⟨fun h => hcan.trans h, .inr ⟨hfail, .inr (.gone himm)⟩⟩, fun hst => nomatch hst⟩
  · split at h <;> cases h
    exact ⟨⟨id, .inr ⟨rfl, .inr (.same rfl fun _ => id)⟩⟩, fun hst => nomatch hst⟩
  · cases h

theorem closerStep_outcome {sh : Shared} {a : Act} {c : Closer} {r : Shared × Closer}
    (h : closerStep sh a c = some r) : Outcome sh (.closer c) r.1 (.closer r.2) := by
  unfold closerStep at h
  split at h
  · cases h
    exact ⟨fun _ => rfl, .inr ⟨rfl, .inl rfl⟩⟩
  · split at h <;> cases h
    exact ⟨id, .inr ⟨rfl, .inr (.same rfl fun _ => id)⟩⟩
  · cases h

theorem move_outcome {sh sh' : Shared} {a : Act} {p q : Proc} (h : move cfg sizeInBytes sh a p = some (sh', q)) :
    Outcome sh p sh' q ∧ (q = .flusher .stopped → sh.cancelled = true) := by
  cases p with
  | writer w =>
    obtain ⟨r, hs, heq⟩ := Option.map_eq_some_iff.mp h
    cases heq
    exact ⟨writerStep_outcome hs, fun hq => nomatch hq⟩
  | flusher f =>
    obtain ⟨r, hs, heq⟩ := Option.map_eq_some_iff.mp h
    cases heq
    obtain ⟨hout, hstop⟩ := flusherStep_outcome hs
    exact ⟨hout, fun hq => hstop (Proc.flusher.inj hq)⟩
  | closer c =>
    obtain ⟨r, hs, heq⟩ := Option.map_eq_some_iff.mp h
    cases heq
    exact ⟨closerStep_outcome hs, fun hq => nomatch hq⟩

def Inv (s : System) : Prop :=
  s.shared.cancelled = false → (∀ imm, s.shared.engine.imm = some imm → Cleared s imm) ∧
    ∀ f, .flusher f ∈ s.procs → f ≠ .stopped

theorem inv_step {s s' : System} {a : Nat × Act} (h : Inv s) (hok : Rotates cfg sizeInBytes s a)
    (hs : step cfg sizeInBytes s a = some s') : Inv s' := by
  have hfail := hok s' hs
  obtain ⟨l, p, r, q, _, hl, hm, hr⟩ := Pool.step_split hs
  obtain ⟨⟨hcan, hout⟩, hstop⟩ := move_outcome hm
  intro hopen
  have hopen₀ : s.shared.cancelled = false := by
    cases hc : s.shared.cancelled with
    | false => rfl
    | true => rw [hcan hc] at hopen; cases hopen
  obtain ⟨hclear, hlive⟩ := h hopen₀
  have hlive' : ∀ f, .flusher f ∈ s'.procs → f ≠ .stopped := by
    intro f hf hfs
    subst hfs
    rw [hr] at hf
    rcases mem_middle.mp hf with hq | hf
    · rw [hstop hq.symm] at hopen₀
      cases hopen₀
    · exact hlive _ (by rw [hl]; exact mem_middle.mpr (.inr hf)) rfl
  refine ⟨fun imm himm => ⟨?_, hlive'⟩, hlive'⟩
  rcases hout with hbad | ⟨_, hkept⟩
  · exact absurd hfail hbad.2.2
  · rcases hkept with hkept | hkept
    · rw [hkept] at hopen
      cases hopen
    · cases hkept with
      | gone hgone =>
        rw [hgone] at himm
        cases himm
      | rotated task htask hp =>
        refine ⟨task, ?_, Option.some.inj (himm.symm.trans htask)⟩
        refine hp.imp_right fun hp => ⟨q, ?_, hp⟩
        rw [hr]
        simp
      | same hsame hp =>
        rw [hsame] at himm
        obtain ⟨⟨task, ht, rfl⟩, _⟩ := hclear imm himm
        refine ⟨task, ?_, rfl⟩
        rw [hr]
        rw [hl] at ht
        rcases ht with ht | ⟨x, hx, ht⟩
        · exact (hp task (.inl ht)).imp_right fun hq => ⟨q, by simp, hq⟩
        · rcases mem_middle.mp hx with rfl | hx
          · exact (hp task (.inr ht)).imp_right fun hq => ⟨q, by simp, hq⟩
          · exact .inr ⟨x, mem_middle.mpr (.inr hx), ht⟩

theorem inv_opened (engine : Engine) (writers : Nat) : Inv (opened engine writers) := by
  refine fun _ => ⟨fun imm himm => (by cases himm), ?_⟩
  rintro f hf rfl
  simp [opened] at hf

theorem fine_of_rotates {s : System} {a : Nat × Act} (h : Inv s) (hok : Rotates cfg sizeInBytes s a) :
    Fine cfg sizeInBytes s a := by
  intro s' hs
  refine ⟨fun hne => absurd (hok s' hs) hne, ?_⟩
  rintro ⟨hopen, _, imm, himm, hno⟩
  exact hno ((inv_step h hok hs hopen).1 imm himm)

theorem rotates_of_fine {s : System} {a : Nat × Act} (h : Fine cfg sizeInBytes s a) :
    Rotates cfg sizeInBytes s a := by
  intro s' hs
  by_contra hne
  obtain ⟨_, himm, _⟩ := (h s' hs).1 hne
  obtain ⟨l, p, r, q, _, _, hm, _⟩ := Pool.step_split hs
  rcases (move_outcome hm).1.2 with ⟨hnone, hsome, _⟩ | ⟨hsame, _⟩
  · exact hsome (himm.trans hnone)
  · exact hne hsame

end Outcomes

/-- **Rotations change nothing when they fail, and strand nobody, exactly if none fails.** -/
theorem rotation_fine_iff (cfg : Config) (sizeInBytes : SkipList → Nat) (engine : Engine) (writers : Nat)
    (as : List (Nat × Act)) :
    Guarded (step cfg sizeInBytes) (Fine cfg sizeInBytes) (opened engine writers) as ↔
      Guarded (step cfg sizeInBytes) (Rotates cfg sizeInBytes) (opened engine writers) as :=
  ⟨guarded_of_invariant (fun _ => True) (fun _ _ _ => trivial) (fun _ h => rotates_of_fine h) trivial,
    guarded_of_invariant Inv inv_step fine_of_rotates (inv_opened engine writers)⟩

theorem stranded_of {s : System} (hopen : s.shared.cancelled = false) (hw : s.procs.any Proc.waits = true)
    (himm : s.shared.engine.imm.isSome = true) (hbuf : s.shared.flushChan.buf = [])
    (htask : s.procs.all (fun p => p.task.isNone) = true) : Stranded s := by
  obtain ⟨p, hp, hpw⟩ := List.any_eq_true.mp hw
  obtain ⟨imm, himm⟩ := Option.isSome_iff_exists.mp himm
  refine ⟨hopen, ⟨p, hp, hpw⟩, imm, himm, ?_⟩
  rintro ⟨⟨task, ht | ⟨q, hq, ht⟩, _⟩, _⟩
  · rw [hbuf] at ht
    cases ht
  · have := List.all_eq_true.mp htask q hq
    rw [ht] at this
    cases this

/-- The log cannot be renamed, and the next `forceFlush` waits for a flush that nobody will do. -/
theorem rename_strands :
    ∃ s, run (step { Config.plain with memTableSize := 1 } fun m => m.nodes.length) (opened (Engine.fresh 0) 2)
        [(2, .write ⟨[1], [1], false, 0, 1⟩ false), (2, .flushBackpressure ⟨false, true⟩),
          (2, .write ⟨[2], [2], false, 0, 2⟩ false), (3, .forceFlush ⟨true, true⟩)] = some s ∧
      s.shared.engine.mem.nodes = [] ∧ s.shared.walOpen = false ∧ Stranded s :=
  ⟨_, rfl, by decide +kernel, by decide +kernel,
    stranded_of (by decide +kernel) (by decide +kernel) (by decide +kernel) rfl (by decide +kernel)⟩

end Rotation
end AkwaDB
