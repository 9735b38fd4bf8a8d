import AkwaDB.Lib.Channel
import AkwaDB.Lib.Interleave
import AkwaDB.Lib.Reach

/-!
# AkwaDB.Engine.Archiver

Rotated segments of the two logs with an archiver set: who archives them and who removes them.

A flushed segment of the write-ahead log is handed to the archive worker, which removes it once it is
archived; but the select that hands it over may take the branch of the cancelled context, and then
the segment is removed at once. The garbage collection of the value log archives a segment itself,
and removes it whatever came of that.

`archived_before_removed`: a segment is removed only after it was archived, in every run in which no
segment is retired through the cancelled context and the garbage collection removes what it, or the
worker before it, could archive.
-/

namespace AkwaDB
namespace Archiver

inductive Segment where
  | wal (seq : Nat)
  | vlog (fid : Nat)
  deriving DecidableEq

/-- `ArchiveSegment` returned success, or the file was removed. -/
inductive Event where
  | archived (seg : Segment)
  | removed (seg : Segment)
  deriving DecidableEq

structure ArchiveItem where
  seg : Segment
  removeSource : Bool

/-- `files` are the rotated segments on the disk; a flush task is the number of its segment. -/
structure Shared where
  files : List Segment
  nextSeq : Nat
  activeFid : Nat
  flushChan : Chan Nat
  archiveCh : Chan ArchiveItem
  cancelled : Bool
  events : List Event

/-- A goroutine that rotates in `flushBackpressure` or `forceFlush`. -/
inductive Writer where
  | idle
  /-- In `enqueueArchive` of the closed value-log segment, before the flush task is sent. -/
  | offering (fid : Nat) (seq : Nat)
  | sending (seq : Nat)
  | retiring (seq : Nat)

inductive Flusher where
  | idle
  | executing (seq : Nat)
  | retiring (seq : Nat)
  | stopped

inductive Worker where
  | idle
  | archiving (item : ArchiveItem)
  | removing (seg : Segment)
  | stopped

inductive Collector where
  | idle
  | archiving (fid : Nat)
  | deleting (fid : Nat)

inductive Proc where
  | writer (w : Writer)
  | flusher (f : Flusher)
  | worker (w : Worker)
  | collector (c : Collector)
  | closer

inductive Act where
  /-- `triggerFlushLocked`; the rotation of the value log may fail. -/
  | rotate (vlogRotated : Bool)
  | send
  | ctxDone
  | receive
  | executeFlush (fails : Bool)
  | archive (success : Bool)
  | remove
  /-- Garbage collection of a segment that nothing refers to any more. -/
  | collect (fid : Nat)
  | cancel

def Shared.remove (sh : Shared) (seg : Segment) : Shared :=
  { sh with files := sh.files.filter (· != seg), events := sh.events ++ [.removed seg] }

def Shared.archiveSegment (sh : Shared) (seg : Segment) (success : Bool) : Shared :=
  if success then { sh with events := sh.events ++ [.archived seg] } else sh

def enqueueArchive (sh : Shared) (item : ArchiveItem) : Act → Option (Shared × Bool)
  | .send =>
    match sh.archiveCh.send item with
    | .sent archiveCh => some ({ sh with archiveCh }, true)
    | _ => none
  | .ctxDone => if sh.cancelled then some (sh, false) else none
  | _ => none

def removeOrArchive (sh : Shared) (seg : Segment) (a : Act) : Option Shared :=
  (enqueueArchive sh ⟨seg, true⟩ a).map fun r => if r.2 then r.1 else r.1.remove seg

def writerStep (sh : Shared) (a : Act) : Writer → Option (Shared × Writer)
  | .idle =>
    match a with
    | .rotate vlogRotated =>
      let seq := sh.nextSeq + 1
      let files := sh.files ++ .wal seq :: if vlogRotated then [.vlog sh.activeFid] else []
      let activeFid := if vlogRotated then sh.activeFid + 1 else sh.activeFid
      some ({ sh with files, activeFid, nextSeq := seq },
        if 0 < sh.activeFid then .offering sh.activeFid seq else .sending seq)
    | _ => none
  | .offering fid seq => (enqueueArchive sh ⟨.vlog fid, false⟩ a).map fun r => (r.1, .sending seq)
  | .sending seq =>
    match a with
    | .send =>
      match sh.flushChan.send seq with
      | .sent flushChan => some ({ sh with flushChan }, .idle)
      | _ => none
    | .ctxDone => if sh.cancelled then some (sh, .retiring seq) else none
    | _ => none
  | .retiring seq => (removeOrArchive sh (.wal seq) a).map fun sh' => (sh', .idle)

def flusherStep (sh : Shared) (a : Act) : Flusher → Option (Shared × Flusher)
  | .idle =>
    match a with
    | .receive =>
      match sh.flushChan.recv with
      | .value seq flushChan => some ({ sh with flushChan }, .executing seq)
      | _ => none
    | .ctxDone => if sh.cancelled ∧ sh.flushChan.buf = [] then some (sh, .stopped) else none
    | _ => none
  | .executing seq =>
    match a with
    -- without a table the segment stays
    | .executeFlush fails => some (sh, if fails then .idle else .retiring seq)
    | _ => none
  | .retiring seq => (removeOrArchive sh (.wal seq) a).map fun sh' => (sh', .idle)
  | .stopped => none

def workerStep (sh : Shared) (a : Act) : Worker → Option (Shared × Worker)
  | .idle =>
    match a with
    | .receive =>
      match sh.archiveCh.recv with
      | .value item archiveCh => some ({ sh with archiveCh }, .archiving item)
      | _ => none
    | .ctxDone => if sh.cancelled ∧ sh.archiveCh.buf = [] then some (sh, .stopped) else none
    | _ => none
  | .archiving item =>
    match a with
    | .archive success =>
      some (sh.archiveSegment item.seg success,
        if item.removeSource ∧ success then .removing item.seg else .idle)
    | _ => none
  | .removing seg =>
    match a with
    | .remove => some (sh.remove seg, .idle)
    | _ => none
  | .stopped => none

/-- `runValueLogGCInternal` from `archivePath` on. -/
def collectorStep (sh : Shared) (a : Act) : Collector → Option (Shared × Collector)
  | .idle =>
    match a with
    | .collect fid => if .vlog fid ∈ sh.files ∧ fid ≠ sh.activeFid then some (sh, .archiving fid) else none
    | _ => none
  | .archiving fid =>
    match a with
    | .archive success => some (sh.archiveSegment (.vlog fid) success, .deleting fid)
    | _ => none
  | .deleting fid =>
    match a with
    | .remove => some (sh.remove (.vlog fid), .idle)
    | _ => none

def move (sh : Shared) (a : Act) : Proc → Option (Shared × Proc)
  | .writer w => (writerStep sh a w).map fun r => (r.1, .writer r.2)
  | .flusher f => (flusherStep sh a f).map fun r => (r.1, .flusher r.2)
  | .worker w => (workerStep sh a w).map fun r => (r.1, .worker r.2)
  | .collector c => (collectorStep sh a c).map fun r => (r.1, .collector r.2)
  | .closer => match a with
    | .cancel => some ({ sh with cancelled := true }, .closer)
    | _ => none

abbrev System := Pool Shared Proc

def step : System → Nat × Act → Option System := Pool.step move

/-- `Close`, the flush worker, the archive worker, the garbage collection and the writers. -/
def opened (activeFid writers : Nat) : System where
  shared := ⟨[], 0, activeFid, Chan.make Nat 16, Chan.make ArchiveItem 64, false, []⟩
  procs := .closer :: .flusher .idle :: .worker .idle :: .collector .idle ::
    List.replicate writers (.writer .idle)

/-! ## What is to hold -/

def ArchivedFirst (events : List Event) : Prop :=
  ∀ pre seg post, events = pre ++ .removed seg :: post → .archived seg ∈ pre

theorem archivedFirst_nil : ArchivedFirst [] := by
  intro pre seg post h
  simp at h

theorem archivedFirst_snoc {events : List Event} {e : Event} (h : ArchivedFirst events)
    (he : ∀ seg, e = .removed seg → .archived seg ∈ events) : ArchivedFirst (events ++ [e]) := by
  intro pre seg post heq
  cases List.eq_nil_or_concat post with
  | inl hnil =>
    subst hnil
    obtain ⟨rfl, hlast⟩ := List.append_inj' heq rfl
    exact he seg (List.singleton_inj.mp hlast)
  | inr hcons =>
    obtain ⟨post', last, rfl⟩ := hcons
    have hsplit : events ++ [e] = (pre ++ .removed seg :: post') ++ [last] := by simpa using heq
    exact h pre seg post' (List.append_inj' hsplit rfl).1

def Proc.retires : Proc → Option Segment
  | .writer (.retiring seq) => some (.wal seq)
  | .flusher (.retiring seq) => some (.wal seq)
  | _ => none

def Proc.collects : Proc → Option Segment
  | .collector (.archiving fid) => some (.vlog fid)
  | _ => none

/-- No segment is retired through the cancelled context, and what is collected was archived. -/
def Archives (s : System) : Nat × Act → Prop
  | (i, .ctxDone) => ∀ p ∈ s.procs[i]?, p.retires = none
  | (i, .archive success) => ∀ p ∈ s.procs[i]?, ∀ seg ∈ p.collects,
      success = true ∨ .archived seg ∈ s.shared.events
  | _ => True

instance (s : System) (a : Nat × Act) : Decidable (Archives s a) := by
  unfold Archives
  split <;> infer_instance

def Proc.Ok (events : List Event) : Proc → Prop
  | .worker (.removing seg) => .archived seg ∈ events
  | .collector (.deleting fid) => .archived (.vlog fid) ∈ events
  | _ => True

def Kept (sh sh' : Shared) (q : Proc) : Prop :=
  sh.events <+: sh'.events ∧ (ArchivedFirst sh.events → ArchivedFirst sh'.events) ∧ q.Ok sh'.events

variable {q : Proc} {sh sh' : Shared} {seg : Segment} {a : Act}

theorem Kept.still (h : sh'.events = sh.events) (hq : q.Ok sh.events) : Kept sh sh' q := by
  rw [Kept, h]
  exact ⟨List.prefix_rfl, id, hq⟩

theorem kept_archive {success : Bool} (hq : q.Ok (sh.archiveSegment seg success).events) :
    Kept sh (sh.archiveSegment seg success) q := by
  refine ⟨?_, fun h => ?_, hq⟩ <;> cases success
  · exact List.prefix_rfl
  · exact List.prefix_append _ _
  · exact h
  · exact archivedFirst_snoc h fun seg' he => nomatch he

theorem kept_remove (h : .archived seg ∈ sh.events) (hq : q.Ok (sh.remove seg).events) :
    Kept sh (sh.remove seg) q := by
  refine ⟨List.prefix_append _ _, fun hf => archivedFirst_snoc hf fun seg' he => ?_, hq⟩
  cases he
  exact h

theorem enqueueArchive_events {item : ArchiveItem} {r : Shared × Bool}
    (h : enqueueArchive sh item a = some r) :
    r.1.events = sh.events ∧ (r.2 = false → a = .ctxDone) := by
  unfold enqueueArchive at h
  split at h
  · split at h <;> cases h
    exact ⟨rfl, fun hr => nomatch hr⟩
  · split at h <;> cases h
    exact ⟨rfl, fun _ => rfl⟩
  · cases h

theorem removeOrArchive_events (ha : a ≠ .ctxDone) (h : removeOrArchive sh seg a = some sh') :
    sh'.events = sh.events := by
  obtain ⟨r, hr, rfl⟩ := Option.map_eq_some_iff.mp h
  obtain ⟨hev, hfalse⟩ := enqueueArchive_events hr
  cases hb : r.2 with
  | true => simpa using hev
  | false => exact absurd (hfalse hb) ha

theorem writerStep_kept {w : Writer} {r : Shared × Writer}
    (hret : a = .ctxDone → (Proc.writer w).retires = none) (h : writerStep sh a w = some r) :
    Kept sh r.1 (.writer r.2) := by
  refine .still ?_ trivial
  cases w with
  | idle =>
    simp only [writerStep] at h
    split at h <;> cases h
    rfl
  | offering fid seq =>
    obtain ⟨r', hr, rfl⟩ := Option.map_eq_some_iff.mp h
    exact (enqueueArchive_events hr).1
  | sending seq =>
    simp only [writerStep] at h
    split at h
    · split at h <;> cases h
      rfl
    · split at h <;> cases h
      rfl
    · cases h
  | retiring seq =>
    obtain ⟨sh', hr, rfl⟩ := Option.map_eq_some_iff.mp h
    exact removeOrArchive_events (fun ha => nomatch hret ha) hr

theorem flusherStep_kept {f : Flusher} {r : Shared × Flusher}
    (hret : a = .ctxDone → (Proc.flusher f).retires = none) (h : flusherStep sh a f = some r) :
    Kept sh r.1 (.flusher r.2) := by
  refine .still ?_ trivial
  cases f with
  | idle =>
    simp only [flusherStep] at h
    split at h
    · split at h <;> cases h
      rfl
    · split at h <;> cases h
      rfl
    · cases h
  | executing seq =>
    simp only [flusherStep] at h
    split at h <;> cases h
    rfl
  | retiring seq =>
    obtain ⟨sh', hr, rfl⟩ := Option.map_eq_some_iff.mp h
    exact removeOrArchive_events (fun ha => nomatch hret ha) hr
  | stopped => cases h

theorem workerStep_kept {w : Worker} {r : Shared × Worker} (hw : (Proc.worker w).Ok sh.events)
    (h : workerStep sh a w = some r) : Kept sh r.1 (.worker r.2) := by
  cases w with
  | idle =>
    simp only [workerStep] at h
    split at h
    · split at h <;> cases h
      exact .still rfl trivial
    · split at h <;> cases h
      exact .still rfl trivial
    · cases h
  | archiving item =>
    simp only [workerStep] at h
    split at h
    · rename_i success
      cases h
      refine kept_archive ?_
      split
      · rename_i hboth
        simp [Shared.archiveSegment, hboth.2, Proc.Ok]
      · trivial
    · cases h
  | removing seg =>
    simp only [workerStep] at h
    split at h <;> cases h
    exact kept_remove hw trivial
  | stopped => cases h

theorem collectorStep_kept {c : Collector} {r : Shared × Collector}
    (hc : (Proc.collector c).Ok sh.events)
    (harch : ∀ success, a = .archive success →
      ∀ seg ∈ (Proc.collector c).collects, success = true ∨ .archived seg ∈ sh.events)
    (h : collectorStep sh a c = some r) : Kept sh r.1 (.collector r.2) := by
  cases c with
  | idle =>
    simp only [collectorStep] at h
    split at h
    · split at h <;> cases h
      exact .still rfl trivial
    · cases h
  | archiving fid =>
    simp only [collectorStep] at h
    split at h
    · rename_i success
      cases h
      refine kept_archive ?_
      rcases harch success rfl (.vlog fid) rfl with rfl | hold
      · simp [Shared.archiveSegment, Proc.Ok]
      · cases success
        · exact hold
        · exact List.mem_append_left _ hold
    · cases h
  | deleting fid =>
    simp only [collectorStep] at h
    split at h <;> cases h
    exact kept_remove hc trivial

def Inv (s : System) : Prop := ArchivedFirst s.shared.events ∧ ∀ p ∈ s.procs, p.Ok s.shared.events

theorem Proc.Ok.mono {events events' : List Event} {p : Proc} (h : p.Ok events) (hsub : events <+: events') :
    p.Ok events' := by
  cases p with
  | worker w => cases w <;> first | exact trivial | exact hsub.subset h
  | collector c => cases c <;> first | exact trivial | exact hsub.subset h
  | _ => trivial

theorem move_kept {p : Proc} (hp : p.Ok sh.events) (hret : a = .ctxDone → p.retires = none)
    (harch : ∀ success, a = .archive success → ∀ seg ∈ p.collects, success = true ∨ .archived seg ∈ sh.events)
    (hm : move sh a p = some (sh', q)) : Kept sh sh' q := by
  cases p with
  | writer w =>
    obtain ⟨r, hw, heq⟩ := Option.map_eq_some_iff.mp hm
    cases heq
    exact writerStep_kept hret hw
  | flusher f =>
    obtain ⟨r, hf, heq⟩ := Option.map_eq_some_iff.mp hm
    cases heq
    exact flusherStep_kept hret hf
  | worker w =>
    obtain ⟨r, hw, heq⟩ := Option.map_eq_some_iff.mp hm
    cases heq
    exact workerStep_kept hp hw
  | collector c =>
    obtain ⟨r, hc, heq⟩ := Option.map_eq_some_iff.mp hm
    cases heq
    exact collectorStep_kept hp harch hc
  | closer =>
    simp only [move] at hm
    split at hm <;> cases hm
    exact .still rfl trivial

theorem inv_step {s s' : System} {a : Nat × Act} (h : Inv s) (hok : Archives s a) (hs : step s a = some s') :
    Inv s' := by
  obtain ⟨i, a⟩ := a
  obtain ⟨l, p, r, q, hp, hl, hm, hr⟩ := Pool.step_split hs
  obtain ⟨hfirst, hall⟩ := h
  rw [hl] at hall
  have hret : a = .ctxDone → p.retires = none := by
    rintro rfl
    exact hok p hp
  have harch : ∀ success, a = .archive success → ∀ seg ∈ p.collects,
      success = true ∨ .archived seg ∈ s.shared.events := by
    rintro success rfl
    exact hok p hp
  obtain ⟨hsub, hkeep, hq⟩ := move_kept (hall p (by simp)) hret harch hm
  refine ⟨hkeep hfirst, ?_⟩
  rw [hr]
  exact Pool.forall_middle hq fun x hx => (hall x (mem_middle.mpr (.inr hx))).mono hsub

/-- **A segment is archived before it is removed.** -/
theorem archived_before_removed {activeFid writers : Nat} {as : List (Nat × Act)} {s : System}
    (hg : Guarded step Archives (opened activeFid writers) as)
    (hr : run step (opened activeFid writers) as = some s) : ArchivedFirst s.shared.events := by
  have hinit : Inv (opened activeFid writers) := by
    refine ⟨archivedFirst_nil, fun p hp => ?_⟩
    simp only [opened, List.mem_cons, List.mem_replicate] at hp
    rcases hp with rfl | rfl | rfl | rfl | ⟨_, rfl⟩ <;> trivial
  exact (run_invariant (fun h hok hs => inv_step h hok hs) hinit hg hr).1

theorem archived_before_removed_both :
    ∃ s, run step (opened 1 1) [(4, .rotate true), (4, .send), (4, .send), (2, .receive), (2, .archive true),
        (1, .receive), (1, .executeFlush false), (1, .send), (3, .collect 1), (3, .archive false), (3, .remove),
        (2, .receive), (2, .archive true), (2, .remove)] = some s ∧
      s.shared.files = [] ∧ ArchivedFirst s.shared.events := by
  have hg : Guarded step Archives (opened 1 1) [(4, .rotate true), (4, .send), (4, .send), (2, .receive),
      (2, .archive true), (1, .receive), (1, .executeFlush false), (1, .send), (3, .collect 1),
      (3, .archive false), (3, .remove), (2, .receive), (2, .archive true), (2, .remove)] := by decide +kernel
  exact ⟨_, rfl, by decide +kernel, archived_before_removed hg rfl⟩

theorem removed_unarchived :
    (∃ s, run step (opened 0 1) [(4, .rotate false), (4, .send), (1, .receive), (0, .cancel),
        (1, .executeFlush false), (1, .ctxDone)] = some s ∧ s.shared.events = [.removed (.wal 1)]) ∧
    ∃ s, run step (opened 1 1) [(4, .rotate true), (4, .send), (2, .receive), (2, .archive false), (3, .collect 1),
        (3, .archive false), (3, .remove)] = some s ∧ s.shared.events = [.removed (.vlog 1)] :=
  ⟨⟨_, rfl, rfl⟩, ⟨_, rfl, rfl⟩⟩

end Archiver
end AkwaDB
