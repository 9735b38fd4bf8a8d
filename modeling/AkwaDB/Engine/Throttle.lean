import AkwaDB.Lib.Channel
import AkwaDB.Lib.Interleave
import AkwaDB.Lib.Reach

/-!
# AkwaDB.Engine.Throttle

Writers that wait for level 0 to shrink, next to the flush worker and compactions.

`throttleL0` reads the number of tables under the lock of the level and waits on `l0Cond` under that
of the memtable, without a second look. `removeFromLevel` broadcasts after it has taken tables out of
level 0, and `executeFlush` when it returns. `flushBackpressure` and `forceFlush` wait on the same
condition variable for the immutable memtable to go.

`no_lost_wakeup_iff`: in a run, nobody sleeps below the threshold without a broadcast to come, exactly
if whoever goes to sleep still sees a full level or a broadcast to come, and no `Clear` empties the level
under a sleeper. `wakeup_lost` has a writer that sleeps for ever.
-/

namespace AkwaDB
namespace Throttle

def l0BackpressureThreshold : Nat := 8

def l0StopThreshold : Nat := 16

/-- `tombstones` is whether the ratio of tombstones is above `tombstoneCompactionRatio`. -/
structure L0Table where
  seq : Nat
  tombstones : Bool
  deriving DecidableEq

/-- `imm` is whether there is an immutable memtable, `metaMu` whether that lock is held. -/
structure Shared where
  level0 : List L0Table
  imm : Bool
  flushChan : Chan Nat
  compactChan : Chan Unit
  metaMu : Bool
  broadcasts : Nat
  nextSeq : Nat

/-- The loop of `flushBackpressure`, and those of `forceFlush` before and after its task is sent. -/
inductive Loop where
  | pressure
  | before
  | after
  deriving DecidableEq

/-- `since` is the number of broadcasts when the writer began to wait. -/
inductive Writer where
  | select
  | throttle
  | counted (l0 : Nat)
  | signalled (l0 : Nat)
  | waiting (since : Nat)
  | working
  | settling
  | blocked (loop : Loop) (since : Nat)
  deriving DecidableEq

inductive Flusher where
  | idle
  | executing (seq : Nat)
  | appended
  | returning
  | cleared
  deriving DecidableEq

inductive Compactor where
  | select
  | looping
  | deciding
  | chosen
  | merging (picked : List L0Table)
  | removed
  | finishing
  | checking
  deriving DecidableEq

/-- A caller of `Compact` does not take `metaMu`. An outsider is the maintenance, the collection of the
value log, or an ingestion. -/
inductive Proc where
  | writer (w : Writer)
  | flusher (f : Flusher)
  | worker (c : Compactor)
  | caller (c : Compactor)
  | outsider
  deriving DecidableEq

inductive Act where
  | receive
  | count
  | signal
  | wait
  | delay
  | wake
  | clear
  | press (full : Bool)
  /-- `forceFlush`, and its next look; `dirty` is whether the memtable has something. -/
  | force (dirty : Bool)
  | retry (dirty : Bool)
  | append (tombstones : Bool)
  | fail
  | storeNil
  | broadcast
  | lock
  /-- What `Compact` finds in the other levels: a table with tombstones, a score above that of level 0. -/
  | decide (below other : Bool)
  | copy
  | remove
  | unlock
  | check
  | tick
  | collect
  | ingest (tables : List L0Table)

def Shared.signal (sh : Shared) : Shared :=
  match sh.compactChan.send () with
  | .sent compactChan => { sh with compactChan }
  | _ => sh

def Shared.rotate (sh : Shared) : Option Shared :=
  match sh.flushChan.send (sh.nextSeq + 1) with
  | .sent flushChan => some { sh with flushChan, imm := true, nextSeq := sh.nextSeq + 1 }
  | _ => none

def look (sh : Shared) (dirty : Bool) (loop : Loop) : Option (Shared × Writer) :=
  if sh.imm then some (sh, .blocked loop sh.broadcasts)
  else
    match loop with
    | .pressure => some (sh, .select)
    | .before => if dirty then sh.rotate.map fun sh => (sh, .settling) else some (sh, .working)
    | .after => some (sh, .working)

def writerStep (sh : Shared) : Act → Writer → Option (Shared × Writer)
  | .receive, .select => some (sh, .throttle)
  | .count, .throttle =>
    if sh.level0.length < l0BackpressureThreshold then some (sh, .working)
    else some (sh, .counted sh.level0.length)
  | .signal, .counted l0 => some (sh.signal, .signalled l0)
  | .wait, .signalled l0 => if l0StopThreshold ≤ l0 then some (sh, .waiting sh.broadcasts) else none
  | .delay, .signalled l0 => if l0StopThreshold ≤ l0 then none else some (sh, .throttle)
  | .wake, .waiting since => if since < sh.broadcasts then some (sh, .throttle) else none
  | .clear, .working => some ({ sh with level0 := [], imm := false }, .working)
  | .press full, .working =>
    if !full then some (sh, .select)
    else if sh.imm then some (sh, .blocked .pressure sh.broadcasts)
    else sh.rotate.map fun sh => (sh, .select)
  | .force dirty, .working => look sh dirty .before
  | .retry dirty, .settling => look sh dirty .after
  | .retry dirty, .blocked loop since => if since < sh.broadcasts then look sh dirty loop else none
  | _, _ => none

def flusherStep (sh : Shared) : Act → Flusher → Option (Shared × Flusher)
  | .receive, .idle =>
    match sh.flushChan.recv with
    | .value seq flushChan => some ({ sh with flushChan }, .executing seq)
    | _ => none
  | .append tombstones, .executing seq =>
    if sh.metaMu then none else some ({ sh with level0 := sh.level0 ++ [⟨seq, tombstones⟩] }, .appended)
  -- nothing to write, or the table cannot be created
  | .fail, .executing _ => some (sh, .returning)
  | .signal, .appended => some (sh.signal, .returning)
  | .storeNil, .returning => some ({ sh with imm := false }, .cleared)
  | .broadcast, .cleared => some ({ sh with broadcasts := sh.broadcasts + 1 }, .idle)
  | _, _ => none

/-- `Compact`: a table with many tombstones comes first, from the deepest level up, and then the best score. -/
def takesLevel0 (threshold : Nat) (level0 : List L0Table) (below other : Bool) : Bool :=
  !below && (level0.any L0Table.tombstones || (!other && decide (max 1 threshold ≤ level0.length)))

def compactStep (threshold : Nat) (sh : Shared) : Act → Compactor → Option (Shared × Compactor)
  | .decide below other, .deciding =>
    if takesLevel0 threshold sh.level0 below other then some (sh, .chosen) else some (sh, .finishing)
  | .copy, .chosen => if sh.level0 = [] then some (sh, .finishing) else some (sh, .merging sh.level0)
  | .remove, .merging picked =>
    some ({ sh with level0 := sh.level0.filter fun t => decide (t ∉ picked) }, .removed)
  | .broadcast, .removed => some ({ sh with broadcasts := sh.broadcasts + 1 }, .finishing)
  | _, _ => none

def workerStep (threshold : Nat) (sh : Shared) : Act → Compactor → Option (Shared × Compactor)
  | .receive, .select =>
    match sh.compactChan.recv with
    | .value _ compactChan => some ({ sh with compactChan }, .looping)
    | _ => none
  | .lock, .looping => if sh.metaMu then none else some ({ sh with metaMu := true }, .deciding)
  | .unlock, .finishing => some ({ sh with metaMu := false }, .checking)
  | .check, .checking =>
    if threshold ≤ sh.level0.length then some (sh, .looping) else some (sh, .select)
  | a, c => compactStep threshold sh a c

def callerStep (threshold : Nat) (sh : Shared) : Act → Compactor → Option (Shared × Compactor)
  | .receive, .select => some (sh, .deciding)
  | .check, .finishing => some (sh, .select)
  | a, c => compactStep threshold sh a c

def outsiderStep (threshold : Nat) (sh : Shared) : Act → Option Shared
  | .tick => some (if threshold ≤ sh.level0.length then sh.signal else sh)
  | .collect => some sh.signal
  | .ingest tables => if sh.metaMu then none else some { sh with level0 := sh.level0 ++ tables }
  | _ => none

def move (threshold : Nat) (sh : Shared) (a : Act) : Proc → Option (Shared × Proc)
  | .writer w => (writerStep sh a w).map fun r => (r.1, .writer r.2)
  | .flusher f => (flusherStep sh a f).map fun r => (r.1, .flusher r.2)
  | .worker c => (workerStep threshold sh a c).map fun r => (r.1, .worker r.2)
  | .caller c => (callerStep threshold sh a c).map fun r => (r.1, .caller r.2)
  | .outsider => (outsiderStep threshold sh a).map fun sh => (sh, .outsider)

abbrev System := Pool Shared Proc

def step (threshold : Nat) : System → Nat × Act → Option System := Pool.step (move threshold)

def opened (level0 : List L0Table) (writers callers : Nat) : System where
  shared := ⟨level0, false, Chan.make Nat 16, Chan.make Unit 1, false, 0, 0⟩
  procs := .flusher .idle :: .worker .select :: .outsider :: List.replicate writers (.writer .select) ++
    List.replicate callers (.caller .select)

/-! ## What is to hold -/

def Proc.asleep (broadcasts : Nat) : Proc → Bool
  | .writer (.waiting since) => decide (broadcasts ≤ since)
  | .writer (.blocked _ since) => decide (broadcasts ≤ since)
  | _ => false

/-- A goroutine that is going to broadcast, when level 0 has `n` tables. -/
def Proc.promises (threshold n : Nat) : Proc → Bool
  | .flusher .idle => false
  | .flusher _ => true
  | .worker .select => false
  | .worker .chosen => decide (0 < n)
  | .worker (.merging _) => true
  | .worker .removed => true
  | .worker _ => decide (max 1 threshold ≤ n)
  | .caller .chosen => decide (0 < n)
  | .caller (.merging _) => true
  | .caller .removed => true
  | _ => false

variable (threshold : Nat)

def Coming (s : System) : Prop :=
  s.shared.flushChan.buf ≠ [] ∨
    (max 1 threshold ≤ s.shared.level0.length ∧ s.shared.compactChan.buf ≠ []) ∨
    ∃ p ∈ s.procs, p.promises threshold s.shared.level0.length = true

/-- Somebody sleeps although level 0 is not full, and nobody is going to broadcast. -/
def Lost (s : System) : Prop :=
  (∃ p ∈ s.procs, p.asleep s.shared.broadcasts = true) ∧ s.shared.level0.length < l0StopThreshold ∧
    ¬ Coming threshold s

/-- Who goes to sleep sees a full level or a broadcast to come; `Clear` wakes nobody. -/
def Watchful (s : System) : Nat × Act → Prop
  | (_, .wait) => l0StopThreshold ≤ s.shared.level0.length ∨ Coming threshold s
  | (_, .clear) =>
    (∀ p ∈ s.procs, p.asleep s.shared.broadcasts = false) ∨
      Coming threshold ⟨{ s.shared with level0 := [] }, s.procs⟩
  | _ => True

instance (s : System) : Decidable (Coming threshold s) := by
  unfold Coming
  infer_instance

instance (s : System) : Decidable (Lost threshold s) := by
  unfold Lost
  infer_instance

instance (s : System) (a : Nat × Act) : Decidable (Watchful threshold s a) := by
  unfold Watchful
  split <;> infer_instance

variable {threshold}

theorem Shared.signal_eq (sh : Shared) :
    ∃ c, sh.signal = { sh with compactChan := c } ∧ (sh.compactChan.buf ≠ [] → c.buf ≠ []) := by
  unfold Shared.signal
  split
  · rename_i c hc
    obtain ⟨-, rfl⟩ := Chan.send_eq_sent hc
    exact ⟨_, rfl, fun _ => by simp⟩
  · exact ⟨sh.compactChan, rfl, id⟩

theorem Shared.rotate_eq {sh sh' : Shared} (h : sh.rotate = some sh') :
    ∃ c, sh' = { sh with flushChan := c, imm := true, nextSeq := sh.nextSeq + 1 } ∧ c.buf ≠ [] := by
  unfold Shared.rotate at h
  split at h
  · rename_i c hc
    obtain ⟨-, rfl⟩ := Chan.send_eq_sent hc
    cases h
    exact ⟨_, rfl, by simp⟩
  · cases h

/-- A goroutine passes on what it or a channel has promised. -/
structure Carries (threshold : Nat) (sh sh' : Shared) (p q : Proc) : Prop where
  level0 : sh.level0.length ≤ sh'.level0.length
  own : p.promises threshold sh.level0.length = true → q.promises threshold sh'.level0.length = true
  flushes : sh.flushChan.buf ≠ [] →
    sh'.flushChan.buf ≠ [] ∨ q.promises threshold sh'.level0.length = true
  signals : max 1 threshold ≤ sh'.level0.length → sh.compactChan.buf ≠ [] →
    sh'.compactChan.buf ≠ [] ∨ q.promises threshold sh'.level0.length = true

def Proc.flushing : Proc → Bool
  | .flusher (.executing _) => true
  | .flusher .appended => true
  | .flusher .returning => true
  | _ => false

/-- Where there is an immutable memtable there is a flush for it. -/
def Flushed (s : System) : Prop :=
  s.shared.imm = true → s.shared.flushChan.buf ≠ [] ∨ ∃ p ∈ s.procs, p.flushing = true

inductive FlushEffect (sh : Shared) (p : Proc) (sh' : Shared) (q : Proc) : Prop where
  | gone (h : sh'.imm = false)
  | queued (h : sh'.flushChan.buf ≠ [])
  | going (h : q.flushing = true)
  | same (hi : sh'.imm = sh.imm) (hf : sh'.flushChan = sh.flushChan) (hp : p.flushing = false)

inductive Effect (threshold : Nat) (a : Act) (sh : Shared) (p : Proc) : Shared → Proc → Prop where
  | wakes {q : Proc} (hp : p.flushing = false) (hq : ∀ b, q.asleep b = false) :
    Effect threshold a sh p { sh with broadcasts := sh.broadcasts + 1 } q
  | sleeps {w w' : Writer} (hp : p = .writer w) (hw : ∀ b, (Proc.writer w').asleep b = decide (b ≤ sh.broadcasts))
    (hwhy : a = .wait ∨ sh.imm = true) : Effect threshold a sh p sh (.writer w')
  | clears (ha : a = .clear) (hp : p = .writer .working) :
    Effect threshold a sh p { sh with level0 := [], imm := false } p
  | goes {sh' : Shared} {q : Proc} (hb : sh'.broadcasts = sh.broadcasts) (hq : ∀ b, q.asleep b = false)
    (hf : FlushEffect sh p sh' q)
    (h : Carries threshold sh sh' p q ∨ q.promises threshold sh'.level0.length = true) :
    Effect threshold a sh p sh' q

section Step

variable {a : Act} {sh sh' : Shared} {p q : Proc} {w w' : Writer} {c c' : Compactor}

theorem Effect.flush (h : Effect threshold a sh p sh' q) : FlushEffect sh p sh' q := by
  cases h with
  | wakes hp _ => exact .same rfl rfl hp
  | sleeps hp _ _ => exact .same rfl rfl (by rw [hp]; rfl)
  | clears _ _ => exact .gone rfl
  | goes _ _ hf _ => exact hf

theorem Effect.stays (hp : p.flushing = false) (hq : ∀ b, q.asleep b = false)
    (h : p.promises threshold sh.level0.length = true → q.promises threshold sh.level0.length = true) :
    Effect threshold a sh p sh q :=
  .goes rfl hq (.same rfl rfl hp) (.inl ⟨Nat.le_refl _, h, Or.inl, fun _ => Or.inl⟩)

theorem Effect.signals (hf : p.flushing = false ∨ q.flushing = true) (hq : ∀ b, q.asleep b = false)
    (h : p.promises threshold sh.level0.length = true → q.promises threshold sh.level0.length = true) :
    Effect threshold a sh p sh.signal q := by
  obtain ⟨c, hc, hbuf⟩ := sh.signal_eq
  rw [hc]
  exact .goes rfl hq (hf.elim (.same rfl rfl) .going)
    (.inl ⟨Nat.le_refl _, h, Or.inl, fun _ hne => .inl (hbuf hne)⟩)

theorem Effect.rotates (hq : ∀ b, (Proc.writer w').asleep b = false) (h : sh.rotate = some sh') :
    Effect threshold a sh (.writer w) sh' (.writer w') := by
  obtain ⟨c, rfl, hc⟩ := Shared.rotate_eq h
  exact .goes rfl hq (.queued hc) (.inl ⟨Nat.le_refl _, nofun, fun _ => .inl hc, fun _ => Or.inl⟩)

theorem look_effect {dirty : Bool} {loop : Loop} (h : look sh dirty loop = some (sh', w')) :
    Effect threshold a sh (.writer w) sh' (.writer w') := by
  unfold look at h
  split at h
  · rename_i himm
    cases h
    exact .sleeps rfl (fun _ => rfl) (.inr himm)
  · split at h
    · cases h
      exact .stays rfl (fun _ => rfl) id
    · split at h
      · obtain ⟨sh₁, hrot, heq⟩ := Option.map_eq_some_iff.mp h
        cases heq
        exact .rotates (fun _ => rfl) hrot
      · cases h
        exact .stays rfl (fun _ => rfl) id
    · cases h
      exact .stays rfl (fun _ => rfl) id

theorem writerStep_effect (h : writerStep sh a w = some (sh', w')) :
    Effect threshold a sh (.writer w) sh' (.writer w') := by
  unfold writerStep at h
  split at h
  · cases h
    exact .stays rfl (fun _ => rfl) id
  · split at h
    · cases h
      exact .stays rfl (fun _ => rfl) id
    · cases h
      exact .stays rfl (fun _ => rfl) id
  · cases h
    exact .signals (.inl rfl) (fun _ => rfl) id
  · split at h
    · cases h
      exact .sleeps rfl (fun _ => rfl) (.inl rfl)
    · cases h
  · split at h
    · cases h
    · cases h
      exact .stays rfl (fun _ => rfl) id
  · split at h
    · cases h
      exact .stays rfl (fun _ => rfl) id
    · cases h
  · cases h
    exact .clears rfl rfl
  · split at h
    · cases h
      exact .stays rfl (fun _ => rfl) id
    · split at h
      · rename_i himm
        cases h
        exact .sleeps rfl (fun _ => rfl) (.inr himm)
      · obtain ⟨sh₁, hrot, heq⟩ := Option.map_eq_some_iff.mp h
        cases heq
        exact .rotates (fun _ => rfl) hrot
  · exact look_effect h
  · exact look_effect h
  · split at h
    · exact look_effect h
    · cases h
  · cases h

theorem flusherStep_effect {f f' : Flusher} (h : flusherStep sh a f = some (sh', f')) :
    Effect threshold a sh (.flusher f) sh' (.flusher f') := by
  unfold flusherStep at h
  split at h
  · split at h
    · cases h
      exact .goes rfl (fun _ => rfl) (.going rfl) (.inr rfl)
    · cases h
  · split at h
    · cases h
    · cases h
      exact .goes rfl (fun _ => rfl) (.going rfl) (.inr rfl)
  · cases h
    exact .goes rfl (fun _ => rfl) (.going rfl) (.inr rfl)
  · cases h
    exact .signals (.inr rfl) (fun _ => rfl) id
  · cases h
    exact .goes rfl (fun _ => rfl) (.gone rfl) (.inr rfl)
  · cases h
    exact .wakes rfl fun _ => rfl
  · cases h

theorem compactStep_effect {f : Compactor → Proc}
    (hproc : ∀ c, (f c).flushing = false ∧ ∀ b, (f c).asleep b = false)
    (hdecide : ∀ n, (f .deciding).promises threshold n = true →
      (f .finishing).promises threshold n = true ∧ (f .chosen).promises threshold n = true)
    (hchosen : ∀ n, (f .chosen).promises threshold n = true → n ≠ 0)
    (hsure : (∀ n ts, (f (.merging ts)).promises threshold n = true) ∧ ∀ n, (f .removed).promises threshold n = true)
    (h : compactStep threshold sh a c = some (sh', c')) :
    Effect threshold a sh (f c) sh' (f c') := by
  unfold compactStep at h
  split at h
  · split at h
    · cases h
      exact .stays (hproc _).1 (hproc _).2 fun hp => (hdecide _ hp).2
    · cases h
      exact .stays (hproc _).1 (hproc _).2 fun hp => (hdecide _ hp).1
  · split at h
    · rename_i hnil
      cases h
      exact .stays (hproc _).1 (hproc _).2 fun hp => absurd (by rw [hnil]; rfl) (hchosen _ hp)
    · cases h
      exact .goes rfl (hproc _).2 (.same rfl rfl (hproc _).1) (.inr (hsure.1 _ _))
  · cases h
    exact .goes rfl (hproc _).2 (.same rfl rfl (hproc _).1) (.inr (hsure.2 _))
  · cases h
    exact .wakes (hproc _).1 (hproc _).2
  · cases h

theorem workerStep_effect (h : workerStep threshold sh a c = some (sh', c')) :
    Effect threshold a sh (.worker c) sh' (.worker c') := by
  unfold workerStep at h
  split at h
  · split at h
    · cases h
      exact .goes rfl (fun _ => rfl) (.same rfl rfl rfl)
        (.inl ⟨Nat.le_refl _, nofun, Or.inl, fun hn _ => .inr (decide_eq_true hn)⟩)
    · cases h
  · split at h
    · cases h
    · cases h
      exact .goes rfl (fun _ => rfl) (.same rfl rfl rfl) (.inl ⟨Nat.le_refl _, id, Or.inl, fun _ => Or.inl⟩)
  · cases h
    exact .goes rfl (fun _ => rfl) (.same rfl rfl rfl) (.inl ⟨Nat.le_refl _, id, Or.inl, fun _ => Or.inl⟩)
  · split at h
    · cases h
      exact .stays rfl (fun _ => rfl) id
    · rename_i hlt
      cases h
      refine .stays rfl (fun _ => rfl) fun hp => ?_
      have hle := of_decide_eq_true hp
      omega
  · refine compactStep_effect (f := Proc.worker) (fun _ => ⟨rfl, fun _ => rfl⟩) (fun n hp => ⟨hp, ?_⟩) (fun n hp => ?_)
      ⟨fun _ _ => rfl, fun _ => rfl⟩ h
    · have hle := of_decide_eq_true hp
      exact decide_eq_true (by omega)
    · have hlt := of_decide_eq_true hp
      omega

theorem callerStep_effect (h : callerStep threshold sh a c = some (sh', c')) :
    Effect threshold a sh (.caller c) sh' (.caller c') := by
  unfold callerStep at h
  split at h
  · cases h
    exact .stays rfl (fun _ => rfl) id
  · cases h
    exact .stays rfl (fun _ => rfl) id
  · refine compactStep_effect (f := Proc.caller) (fun _ => ⟨rfl, fun _ => rfl⟩) (fun _ => nofun) (fun n hp => ?_)
      ⟨fun _ _ => rfl, fun _ => rfl⟩ h
    have hlt := of_decide_eq_true hp
    omega

theorem outsiderStep_effect (h : outsiderStep threshold sh a = some sh') :
    Effect threshold a sh .outsider sh' .outsider := by
  unfold outsiderStep at h
  split at h
  · split at h
    · cases h
      exact .signals (.inl rfl) (fun _ => rfl) id
    · cases h
      exact .stays rfl (fun _ => rfl) id
  · cases h
    exact .signals (.inl rfl) (fun _ => rfl) id
  · split at h
    · cases h
    · cases h
      exact .goes rfl (fun _ => rfl) (.same rfl rfl rfl)
        (.inl ⟨by simp, nofun, Or.inl, fun _ => Or.inl⟩)
  · cases h

theorem move_effect (h : move threshold sh a p = some (sh', q)) :
    Effect threshold a sh p sh' q := by
  cases p with
  | writer w =>
    obtain ⟨⟨sh₁, w₁⟩, hs, heq⟩ := Option.map_eq_some_iff.mp h
    cases heq
    exact writerStep_effect hs
  | flusher f =>
    obtain ⟨⟨sh₁, f₁⟩, hs, heq⟩ := Option.map_eq_some_iff.mp h
    cases heq
    exact flusherStep_effect hs
  | worker c =>
    obtain ⟨⟨sh₁, c₁⟩, hs, heq⟩ := Option.map_eq_some_iff.mp h
    cases heq
    exact workerStep_effect hs
  | caller c =>
    obtain ⟨⟨sh₁, c₁⟩, hs, heq⟩ := Option.map_eq_some_iff.mp h
    cases heq
    exact callerStep_effect hs
  | outsider =>
    obtain ⟨sh₁, hs, heq⟩ := Option.map_eq_some_iff.mp h
    cases heq
    exact outsiderStep_effect hs

theorem move_wait (h : move threshold sh .wait p = some (sh', q)) :
    (∃ l0, p = .writer (.signalled l0)) ∧ sh' = sh ∧ q = .writer (.waiting sh.broadcasts) := by
  cases p with
  | writer w =>
    obtain ⟨⟨sh₁, w₁⟩, hs, heq⟩ := Option.map_eq_some_iff.mp h
    cases heq
    cases w with
    | signalled l0 =>
      simp only [writerStep] at hs
      split at hs
      · cases hs
        exact ⟨⟨l0, rfl⟩, rfl, rfl⟩
      · cases hs
    | _ => cases hs
  | flusher f => cases f <;> cases h
  | worker c => cases c <;> cases h
  | caller c => cases c <;> cases h
  | outsider => cases h

theorem move_clear (h : move threshold sh .clear p = some (sh', q)) :
    p = .writer .working ∧ q = p ∧ sh' = { sh with level0 := [], imm := false } := by
  cases p with
  | writer w =>
    cases w with
    | working =>
      cases h
      exact ⟨rfl, rfl, rfl⟩
    | _ => cases h
  | flusher f => cases f <;> cases h
  | worker c => cases c <;> cases h
  | caller c => cases c <;> cases h
  | outsider => cases h

end Step

variable {p : Proc}

theorem Proc.asleep_mono {b b' : Nat} (hle : b ≤ b') (h : p.asleep b = false) :
    p.asleep b' = false := by
  unfold Proc.asleep at h ⊢
  split <;> simp_all <;> omega

theorem Proc.promises_mono {n n' : Nat} (hle : n ≤ n') (h : p.promises threshold n = true) :
    p.promises threshold n' = true := by
  unfold Proc.promises at h ⊢
  split <;> simp_all <;> omega

theorem Proc.promises_of_flushing {n : Nat} (h : p.flushing = true) :
    p.promises threshold n = true := by
  unfold Proc.flushing at h
  split at h
  · rfl
  · rfl
  · rfl
  · cases h

theorem Carries.writer {sh : Shared} {w w' : Writer} : Carries threshold sh sh (.writer w) (.writer w') :=
  ⟨Nat.le_refl _, nofun, Or.inl, fun _ => Or.inl⟩

theorem Coming.carry {sh sh' : Shared} {l r : List Proc} {q : Proc}
    (hc : Carries threshold sh sh' p q) (h : Coming threshold ⟨sh, l ++ p :: r⟩) :
    Coming threshold ⟨sh', l ++ q :: r⟩ := by
  have hq : q.promises threshold sh'.level0.length = true → Coming threshold ⟨sh', l ++ q :: r⟩ :=
    fun hp => .inr (.inr ⟨q, mem_middle.mpr (.inl rfl), hp⟩)
  rcases h with hbuf | ⟨hn, hbuf⟩ | ⟨x, hx, hp⟩
  · exact (hc.flushes hbuf).elim .inl hq
  · have hn' := Nat.le_trans hn hc.level0
    exact (hc.signals hn' hbuf).elim (fun hb => .inr (.inl ⟨hn', hb⟩)) hq
  · rcases mem_middle.mp hx with rfl | hx
    · exact hq (hc.own hp)
    · exact .inr (.inr ⟨x, mem_middle.mpr (.inr hx), Proc.promises_mono hc.level0 hp⟩)

structure Inv (threshold : Nat) (s : System) : Prop where
  since : ∀ p ∈ s.procs, p.asleep (s.shared.broadcasts + 1) = false
  flushed : Flushed s
  sound : ¬ Lost threshold s

section Run

variable {s s' : System} {a : Nat × Act}

theorem flushed_step (h : Flushed s) (hs : step threshold s a = some s') : Flushed s' := by
  obtain ⟨l, p, r, q, -, hl, hm, hl'⟩ := Pool.step_split hs
  intro himm
  cases (move_effect hm).flush with
  | gone hg => rw [hg] at himm; cases himm
  | queued hq => exact .inl hq
  | going hq => exact .inr ⟨q, by rw [hl']; exact mem_middle.mpr (.inl rfl), hq⟩
  | same hi hf hp =>
    rw [hf, hl']
    rw [hi] at himm
    refine (h himm).imp_right fun ⟨x, hx, hxf⟩ => ⟨x, ?_, hxf⟩
    rw [hl] at hx
    rcases mem_middle.mp hx with rfl | hx
    · rw [hp] at hxf
      cases hxf
    · exact mem_middle.mpr (.inr hx)

theorem since_step (h : ∀ p ∈ s.procs, p.asleep (s.shared.broadcasts + 1) = false)
    (hs : step threshold s a = some s') : ∀ p ∈ s'.procs, p.asleep (s'.shared.broadcasts + 1) = false := by
  obtain ⟨l, p, r, q, -, hl, hm, hl'⟩ := Pool.step_split hs
  have hothers : ∀ x ∈ l ++ r, x.asleep (s.shared.broadcasts + 1) = false :=
    fun x hx => h x (by rw [hl]; exact mem_middle.mpr (.inr hx))
  obtain ⟨sh', procs'⟩ := s'
  subst hl'
  have heff := move_effect hm
  cases heff with
  | wakes _ hq => exact Pool.forall_middle (hq _) fun x hx => Proc.asleep_mono (Nat.le_succ _) (hothers x hx)
  | sleeps _ hw _ => exact Pool.forall_middle (by rw [hw]; simp) hothers
  | clears _ hp => exact Pool.forall_middle (by rw [hp]; rfl) hothers
  | goes hb hq _ _ => exact Pool.forall_middle (hq _) fun x hx => by rw [hb]; exact hothers x hx

theorem sound_step (hi : Inv threshold s) (hw : Watchful threshold s a) (hs : step threshold s a = some s') :
    ¬ Lost threshold s' := by
  obtain ⟨l, p, r, q, -, hl, hm, hl'⟩ := Pool.step_split hs
  obtain ⟨sh, procs⟩ := s
  obtain ⟨sh', procs'⟩ := s'
  subst hl hl'
  rintro ⟨⟨x, hx, hasleep⟩, hfew, hnone⟩
  -- a promise that does not depend on who moves is still there
  have hstill : Coming threshold ⟨sh, l ++ p :: r⟩ → Carries threshold sh sh' p q → False :=
    fun hc hcarry => hnone (hc.carry hcarry)
  have heff := move_effect hm
  cases heff with
  | wakes _ hq =>
    rcases mem_middle.mp hx with rfl | hx
    · rw [hq] at hasleep
      cases hasleep
    · rw [hi.since x (mem_middle.mpr (.inr hx))] at hasleep
      cases hasleep
  | sleeps hp _ hwhy =>
    subst hp
    rcases hwhy with ha | himm
    · obtain ⟨i, act⟩ := a
      subst ha
      rcases hw with hfull | hc
      · exact absurd hfew (Nat.not_lt.mpr hfull)
      · exact hstill hc .writer
    · refine hstill ?_ .writer
      rcases hi.flushed himm with hbuf | ⟨y, hy, hf⟩
      · exact .inl hbuf
      · exact .inr (.inr ⟨y, hy, Proc.promises_of_flushing hf⟩)
  | clears ha _ =>
    obtain ⟨i, act⟩ := a
    subst ha
    rcases hw with hawake | hc
    · rw [hawake x hx] at hasleep
      cases hasleep
    · exact hnone hc
  | goes hb hq _ h =>
    rcases h with hcarry | hp
    · rcases mem_middle.mp hx with rfl | hx
      · rw [hq] at hasleep
        cases hasleep
      · rw [hb] at hasleep
        refine hi.sound ⟨⟨x, mem_middle.mpr (.inr hx), hasleep⟩, ?_, fun hc => hstill hc hcarry⟩
        exact Nat.lt_of_le_of_lt hcarry.level0 hfew
    · exact hnone (.inr (.inr ⟨q, mem_middle.mpr (.inl rfl), hp⟩))

theorem inv_step (hi : Inv threshold s) (hw : Watchful threshold s a) (hs : step threshold s a = some s') :
    Inv threshold s' :=
  ⟨since_step hi.since hs, flushed_step hi.flushed hs, sound_step hi hw hs⟩

theorem lost_of_not_watchful (hw : ¬ Watchful threshold s a) (hs : step threshold s a = some s') :
    Lost threshold s' := by
  obtain ⟨l, p, r, q, -, hl, hm, hl'⟩ := Pool.step_split hs
  obtain ⟨sh, procs⟩ := s
  obtain ⟨sh', procs'⟩ := s'
  obtain ⟨i, act⟩ := a
  subst hl hl'
  cases act with
  | wait =>
    have hwait : (∃ l0, p = .writer (.signalled l0)) ∧ sh' = sh ∧ q = .writer (.waiting sh.broadcasts) := move_wait hm
    obtain ⟨⟨l0, rfl⟩, rfl, rfl⟩ := hwait
    rw [Watchful, not_or] at hw
    refine ⟨⟨_, mem_middle.mpr (.inl rfl), decide_eq_true (Nat.le_refl _)⟩, Nat.lt_of_not_le hw.1, fun hc => hw.2 ?_⟩
    exact hc.carry .writer
  | clear =>
    obtain ⟨-, rfl, rfl⟩ := move_clear hm
    rw [Watchful, not_or] at hw
    refine ⟨?_, Nat.zero_lt_succ _, hw.2⟩
    by_contra hno
    refine hw.1 fun x hx => ?_
    cases hx' : x.asleep sh.broadcasts with
    | false => rfl
    | true => exact absurd ⟨x, hx, hx'⟩ hno
  | _ => exact absurd trivial hw

theorem inv_opened (level0 : List L0Table) (writers callers : Nat) :
    Inv threshold (opened level0 writers callers) := by
  have hawake : ∀ p ∈ (opened level0 writers callers).procs, ∀ b, p.asleep b = false := by
    simp only [opened, List.cons_append, List.mem_cons, List.mem_append, List.mem_replicate]
    rintro p (rfl | rfl | rfl | ⟨_, rfl⟩ | ⟨_, rfl⟩) b <;> rfl
  refine ⟨fun p hp => hawake p hp _, nofun, ?_⟩
  rintro ⟨⟨p, hp, hasleep⟩, -⟩
  rw [hawake p hp] at hasleep
  cases hasleep

theorem never_lost_iff {as : List (Nat × Act)} :
    ∀ {s s' : System}, Inv threshold s → run (step threshold) s as = some s' →
      ((∀ bs t, bs <+: as → run (step threshold) s bs = some t → ¬ Lost threshold t) ↔
        Guarded (step threshold) (Watchful threshold) s as) := by
  induction as with
  | nil =>
    intro s s' hi _
    refine ⟨fun _ => trivial, fun _ bs t hbs ht => ?_⟩
    rw [List.prefix_nil.mp hbs] at ht
    cases ht
    exact hi.sound
  | cons a as ih =>
    intro s s' hi hr
    obtain ⟨m, hm, hrest⟩ := run_cons hr
    constructor
    · intro hnever
      have hw : Watchful threshold s a := by
        by_contra hw
        exact hnever [a] m (by simp) (by simp [run, hm]) (lost_of_not_watchful hw hm)
      refine ⟨hw, fun m' hm' => ?_⟩
      rw [hm] at hm'
      cases hm'
      refine (ih (inv_step hi hw hm) hrest).mp fun bs t hbs ht => ?_
      exact hnever (a :: bs) t (by simpa using hbs) (by simpa [run, hm] using ht)
    · rintro ⟨hw, hnext⟩ bs t hbs ht
      cases bs with
      | nil =>
        cases ht
        exact hi.sound
      | cons b bs =>
        obtain ⟨rfl, htail⟩ := List.cons_prefix_cons.mp hbs
        obtain ⟨m', hm', ht⟩ := run_cons ht
        rw [hm] at hm'
        cases hm'
        exact (ih (inv_step hi hw hm) hrest).mpr (hnext m hm) bs t htail ht

end Run

/-- **No wake-up is lost in a run exactly if every step is watchful.** -/
theorem no_lost_wakeup_iff (threshold : Nat) (level0 : List L0Table) (writers callers : Nat)
    {as : List (Nat × Act)} {s : System} (hr : run (step threshold) (opened level0 writers callers) as = some s) :
    (∀ bs t, bs <+: as → run (step threshold) (opened level0 writers callers) bs = some t → ¬ Lost threshold t) ↔
      Guarded (step threshold) (Watchful threshold) (opened level0 writers callers) as :=
  never_lost_iff (inv_opened level0 writers callers) hr

def sixteenTables : List L0Table := (List.range 16).map fun seq => ⟨seq, false⟩

def inTime : List (Nat × Act) :=
  [(3, .receive), (3, .count), (3, .signal), (1, .receive), (1, .lock), (1, .decide false false), (1, .copy),
    (3, .wait), (1, .remove), (1, .broadcast), (1, .unlock), (1, .check), (3, .wake), (3, .count)]

theorem no_wakeup_lost_in_time : ∃ s, run (step 4) (opened sixteenTables 1 0) inTime = some s ∧ ¬ Lost 4 s := by
  obtain ⟨s, hs⟩ : ∃ s, run (step 4) (opened sixteenTables 1 0) inTime = some s := ⟨_, rfl⟩
  have hall := (no_lost_wakeup_iff 4 sixteenTables 1 0 hs).mpr (by decide +kernel)
  exact ⟨s, hs, hall inTime s List.prefix_rfl hs⟩

/-- **A writer sleeps for ever**: the compaction it asked for was through before it began to wait. -/
theorem wakeup_lost : ∃ s, run (step 4) (opened sixteenTables 1 0)
      [(3, .receive), (3, .count), (3, .signal), (1, .receive), (1, .lock), (1, .decide false false), (1, .copy),
        (1, .remove), (1, .broadcast), (1, .unlock), (1, .check), (3, .wait)] = some s ∧
    Lost 4 s ∧ s.shared.level0 = [] ∧ s.shared.compactChan.buf = [] ∧
    s.procs = [.flusher .idle, .worker .select, .outsider, .writer (.waiting 1)] := by
  refine ⟨_, rfl, ?_, rfl, rfl, rfl⟩
  decide +kernel

end Throttle
end AkwaDB
