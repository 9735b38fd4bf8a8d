import AkwaDB.Lib.Channel
import AkwaDB.Lib.Interleave
import AkwaDB.Lib.Reach
import Mathlib.Algebra.GroupWithZero.Nat
import Mathlib.Data.List.ReduceOption

/-!
# AkwaDB.Engine.Shutdown

`Close` next to clients in `submitWrite` and writers anywhere in their loop.

`Close` cancels the context and then closes the channel of requests, whoever may still use it. The
select of `submitWrite` may take its send after the cancellation, and the drain loop of a writer does
not look at `ok`. `throttleL0`, the work on a request and `flushBackpressure` only take time.

`close_safe`: nobody panics, and once all writers have stopped every request has had its reply, in
every run in which no client sends after the cancellation and the channel is closed while no writer
drains it. `close_unsafe` has a run for each of the three failures.
-/

namespace AkwaDB
namespace Shutdown

inductive Client where
  | idle
  | selecting (req : Nat)
  | waiting (req : Nat)
  | panicked
  deriving DecidableEq

/-- In a batch, `none` is the nil of a closed channel. -/
inductive Writer where
  | select
  | received (req : Nat)
  | draining (batch : List (Option Nat))
  | dispatching (batch : List (Option Nat))
  | replying (batch : List Nat)
  | sweeping
  | stopped
  | panicked
  deriving DecidableEq

inductive Closer where
  | called
  | cancelled
  | closed
  deriving DecidableEq

inductive Proc where
  | client (c : Client)
  | writer (w : Writer)
  | closer (c : Closer)
  deriving DecidableEq

structure Shared where
  writeReq : Chan Nat
  cancelled : Bool
  made : Nat
  accepted : List Nat
  replied : List Nat

inductive Act where
  | call
  | send
  | ctxDone
  | timeout
  | await
  | receive
  | work
  | cancel
  | close

def Shared.reply (sh : Shared) (req : Nat) : Shared := { sh with replied := sh.replied ++ [req] }

def maxBatch : Nat := 256

def clientStep (sh : Shared) : Act → Client → Option (Shared × Client)
  | .call, .idle => some ({ sh with made := sh.made + 1 }, .selecting sh.made)
  | .send, .selecting req =>
    match sh.writeReq.send req with
    | .sent writeReq => some ({ sh with writeReq, accepted := sh.accepted ++ [req] }, .waiting req)
    | .panics => some (sh, .panicked)
    | .blocks => none
  | .ctxDone, .selecting _ => if sh.cancelled then some (sh, .idle) else none
  | .timeout, .selecting _ => some (sh, .idle)
  | .await, .waiting req => if req ∈ sh.replied then some (sh, .idle) else none
  | _, _ => none

def writerWork (sh : Shared) : Writer → Option (Shared × Writer)
  | .received req =>
    if sh.cancelled then some (sh.reply req, .select) else some (sh, .draining [some req])
  | .draining batch =>
    if batch.length < maxBatch then
      match sh.writeReq.recv with
      | .value req writeReq => some ({ sh with writeReq }, .draining (batch ++ [some req]))
      | .closed => some (sh, .draining (batch ++ [none]))
      | .blocks => some (sh, .dispatching batch)
    else some (sh, .dispatching batch)
  | .dispatching batch =>
    if none ∈ batch then some (sh, .panicked) else some (sh, .replying batch.reduceOption)
  | .replying [] => some (sh, .select)
  | .replying (req :: batch) => some (sh.reply req, .replying batch)
  | .sweeping =>
    match sh.writeReq.recv with
    | .value req writeReq => some ({ sh with writeReq }.reply req, .sweeping)
    | .closed => some (sh, .stopped)
    | .blocks => some (sh, .stopped)
  | _ => none

def writerStep (sh : Shared) : Act → Writer → Option (Shared × Writer)
  | .receive, .select =>
    match sh.writeReq.recv with
    | .value req writeReq => some ({ sh with writeReq }, .received req)
    | .closed => some (sh, .stopped)
    | .blocks => none
  | .ctxDone, .select => if sh.cancelled then some (sh, .sweeping) else none
  | .work, w => writerWork sh w
  | _, _ => none

def closerStep (sh : Shared) : Act → Closer → Option (Shared × Closer)
  | .cancel, .called => some ({ sh with cancelled := true }, .cancelled)
  | .close, .cancelled => sh.writeReq.close.map fun writeReq => ({ sh with writeReq }, .closed)
  | _, _ => none

def move (sh : Shared) (a : Act) : Proc → Option (Shared × Proc)
  | .client c => (clientStep sh a c).map fun r => (r.1, .client r.2)
  | .writer w => (writerStep sh a w).map fun r => (r.1, .writer r.2)
  | .closer c => (closerStep sh a c).map fun r => (r.1, .closer r.2)

abbrev System := Pool Shared Proc

def step : System → Nat × Act → Option System := Pool.step move

def opened (clients writers : Nat) : System where
  shared := ⟨Chan.make Nat 4096, false, 0, [], []⟩
  procs := .closer .called :: .writer .select :: List.replicate writers (.writer .select) ++
    List.replicate clients (.client .idle)

/-! ## What is to hold -/

def Proc.panicked : Proc → Bool
  | .client .panicked => true
  | .writer .panicked => true
  | _ => false

def Proc.running : Proc → Bool
  | .writer .stopped => false
  | .writer _ => true
  | _ => false

/-- Nobody panics, and when all writers have stopped each accepted request has had its reply. -/
def Safe (s : System) : Prop :=
  (∀ p ∈ s.procs, p.panicked = false) ∧
    ((∀ p ∈ s.procs, p.running = false) → s.shared.replied.Perm s.shared.accepted)

def Proc.draining : Proc → Bool
  | .writer (.draining _) => true
  | _ => false

/-- No send follows the cancellation, and no writer drains the channel while it is closed. -/
def Calm (s : System) : Nat × Act → Prop
  | (_, .send) => s.shared.cancelled = false
  | (_, .close) => ∀ p ∈ s.procs, p.draining = false
  | _ => True

instance (s : System) (a : Nat × Act) : Decidable (Calm s a) := by
  unfold Calm
  split <;> infer_instance

def Proc.held : Proc → List Nat
  | .writer (.received req) => [req]
  | .writer (.draining batch) => batch.reduceOption
  | .writer (.dispatching batch) => batch.reduceOption
  | .writer (.replying batch) => batch
  | _ => []

/-- How a goroutine stands to the channel and the context. -/
def Proc.Ok (sh : Shared) : Proc → Prop
  | .client .panicked => False
  | .writer (.draining batch) => none ∉ batch ∧ sh.writeReq.closed = false
  | .writer (.dispatching batch) => none ∉ batch
  | .writer .sweeping => sh.cancelled = true
  | .writer .stopped => sh.cancelled = true ∧ sh.writeReq.buf = []
  | .writer .panicked => False
  | .closer .cancelled => sh.cancelled = true
  | _ => True

/-- The channel is closed by the one who cancelled before. -/
def Shared.Ok (sh : Shared) : Prop := sh.writeReq.closed = true → sh.cancelled = true

structure Later (sh sh' : Shared) : Prop where
  ok : sh'.Ok
  cancelled : sh.cancelled = true → sh'.cancelled = true
  empty : sh.cancelled = true → sh.writeReq.buf = [] → sh'.writeReq.buf = []

/-- Every request accepted is in one place. -/
def Balanced (sh sh' : Shared) (p q : Proc) : Prop :=
  ∀ req, sh'.accepted.count req + (sh.replied.count req + sh.writeReq.buf.count req + p.held.count req) =
    sh.accepted.count req + (sh'.replied.count req + sh'.writeReq.buf.count req + q.held.count req)

variable {sh sh' : Shared} {a : Act}

theorem Later.refl (h : sh.Ok) : Later sh sh := ⟨h, id, fun _ => id⟩

theorem Later.reply (h : Later sh sh') (req : Nat) : Later sh (sh'.reply req) :=
  ⟨h.ok, h.cancelled, h.empty⟩

theorem later_recv (h : sh.Ok) {req : Nat} {writeReq : Chan Nat}
    (hr : sh.writeReq.recv = .value req writeReq) :
    Later sh { sh with writeReq } ∧ writeReq.closed = sh.writeReq.closed ∧
      sh.writeReq.buf = req :: writeReq.buf := by
  obtain ⟨hbuf, hc⟩ := Chan.recv_eq_value hr
  have hclosed : writeReq.closed = sh.writeReq.closed := by rw [hc]
  refine ⟨⟨fun hcl => h (hclosed ▸ hcl), id, fun _ he => ?_⟩, hclosed, hbuf⟩
  rw [hbuf] at he
  cases he

theorem clientStep_spec {c c' : Client} (h : sh.Ok) (hsend : a = .send → sh.cancelled = false)
    (hs : clientStep sh a c = some (sh', c')) :
    (Proc.client c').Ok sh' ∧ Later sh sh' ∧ sh'.writeReq.closed = sh.writeReq.closed ∧
      Balanced sh sh' (.client c) (.client c') := by
  unfold clientStep at hs
  split at hs
  · cases hs
    exact ⟨trivial, ⟨h, id, fun _ => id⟩, rfl, fun _ => rfl⟩
  · split at hs
    · rename_i req writeReq hc
      obtain ⟨_, rfl⟩ := Chan.send_eq_sent hc
      cases hs
      refine ⟨trivial, ⟨h, id, fun hcan => ?_⟩, rfl, fun req' => ?_⟩
      · rw [hsend rfl] at hcan
        cases hcan
      · simp only [List.count_append, Proc.held]
        omega
    · -- the channel would be closed, and so the context cancelled
      rename_i hc
      have hcan := h (Chan.send_eq_panics.mp hc)
      rw [hsend rfl] at hcan
      cases hcan
    · cases hs
  · split at hs
    · cases hs
      exact ⟨trivial, .refl h, rfl, fun _ => rfl⟩
    · cases hs
  · cases hs
    exact ⟨trivial, .refl h, rfl, fun _ => rfl⟩
  · split at hs
    · cases hs
      exact ⟨trivial, .refl h, rfl, fun _ => rfl⟩
    · cases hs
  · cases hs

theorem writerWork_spec {w w' : Writer} (h : sh.Ok) (hw : (Proc.writer w).Ok sh)
    (hs : writerWork sh w = some (sh', w')) :
    (Proc.writer w').Ok sh' ∧ Later sh sh' ∧ sh'.writeReq.closed = sh.writeReq.closed ∧
      Balanced sh sh' (.writer w) (.writer w') := by
  cases w with
  | received req =>
    simp only [writerWork] at hs
    split at hs
    · cases hs
      refine ⟨trivial, (Later.refl h).reply req, rfl, fun req' => ?_⟩
      simp only [Shared.reply, List.count_append, Proc.held, List.count_nil]
      omega
    · rename_i hcan
      cases hs
      refine ⟨⟨by simp, ?_⟩, .refl h, rfl, fun _ => rfl⟩
      cases hcl : sh.writeReq.closed with
      | false => rfl
      | true => exact absurd (h hcl) hcan
  | draining batch =>
    obtain ⟨hbatch, hopen⟩ := hw
    simp only [writerWork] at hs
    split at hs
    · split at hs
      · rename_i req writeReq hc
        cases hs
        obtain ⟨hlater, hclosed, hbuf⟩ := later_recv h hc
        refine ⟨⟨by simpa using hbatch, hclosed.trans hopen⟩, hlater, hclosed, fun req' => ?_⟩
        have hone : (batch ++ [some req]).reduceOption = batch.reduceOption ++ [req] := by
          rw [List.reduceOption_append]
          rfl
        simp only [Proc.held, hone, hbuf, List.count_append, List.count_cons, List.count_nil]
        omega
      · -- only a closed channel gives nil
        rename_i hc
        rw [(Chan.recv_eq_closed hc).2] at hopen
        cases hopen
      · cases hs
        exact ⟨hbatch, .refl h, rfl, fun _ => rfl⟩
    · cases hs
      exact ⟨hbatch, .refl h, rfl, fun _ => rfl⟩
  | dispatching batch =>
    simp only [writerWork, if_neg (show none ∉ batch from hw)] at hs
    cases hs
    exact ⟨trivial, .refl h, rfl, fun _ => rfl⟩
  | replying batch =>
    cases batch with
    | nil =>
      cases hs
      exact ⟨trivial, .refl h, rfl, fun _ => rfl⟩
    | cons req batch =>
      cases hs
      refine ⟨trivial, (Later.refl h).reply req, rfl, fun req' => ?_⟩
      simp only [Shared.reply, List.count_append, Proc.held, List.count_cons, List.count_nil]
      omega
  | sweeping =>
    simp only [writerWork] at hs
    split at hs
    · rename_i req writeReq hc
      cases hs
      obtain ⟨hlater, hclosed, hbuf⟩ := later_recv h hc
      refine ⟨hw, hlater.reply req, hclosed, fun req' => ?_⟩
      simp only [Shared.reply, Proc.held, hbuf, List.count_append, List.count_cons, List.count_nil]
      omega
    · rename_i hc
      cases hs
      obtain ⟨hbuf, hclosed⟩ := Chan.recv_eq_closed hc
      exact ⟨⟨h hclosed, hbuf⟩, .refl h, rfl, fun _ => rfl⟩
    · rename_i hc
      cases hs
      exact ⟨⟨hw, Chan.recv_eq_blocks hc⟩, .refl h, rfl, fun _ => rfl⟩
  | select => cases hs
  | stopped => cases hs
  | panicked => cases hs

theorem writerStep_spec {w w' : Writer} (h : sh.Ok) (hw : (Proc.writer w).Ok sh)
    (hs : writerStep sh a w = some (sh', w')) :
    (Proc.writer w').Ok sh' ∧ Later sh sh' ∧ sh'.writeReq.closed = sh.writeReq.closed ∧
      Balanced sh sh' (.writer w) (.writer w') := by
  unfold writerStep at hs
  split at hs
  · split at hs
    · rename_i req writeReq hc
      cases hs
      obtain ⟨hlater, hclosed, hbuf⟩ := later_recv h hc
      refine ⟨trivial, hlater, hclosed, fun req' => ?_⟩
      simp only [Proc.held, hbuf, List.count_cons, List.count_nil]
      omega
    · rename_i hc
      cases hs
      obtain ⟨hbuf, hclosed⟩ := Chan.recv_eq_closed hc
      exact ⟨⟨h hclosed, hbuf⟩, .refl h, rfl, fun _ => rfl⟩
    · cases hs
  · split at hs
    · rename_i hcan
      cases hs
      exact ⟨hcan, .refl h, rfl, fun _ => rfl⟩
    · cases hs
  · exact writerWork_spec h hw hs
  · cases hs

theorem closerStep_spec {c c' : Closer} (hc : (Proc.closer c).Ok sh)
    (hs : closerStep sh a c = some (sh', c')) :
    (Proc.closer c').Ok sh' ∧ Later sh sh' ∧ (a ≠ .close → sh'.writeReq.closed = sh.writeReq.closed) ∧
      Balanced sh sh' (.closer c) (.closer c') := by
  unfold closerStep at hs
  split at hs
  · cases hs
    exact ⟨rfl, ⟨fun _ => rfl, fun _ => rfl, fun _ => id⟩, fun _ => rfl, fun _ => rfl⟩
  · obtain ⟨writeReq, hclose, heq⟩ := Option.map_eq_some_iff.mp hs
    cases heq
    obtain ⟨_, rfl⟩ := Chan.close_eq_some.mp hclose
    exact ⟨trivial, ⟨fun _ => hc, id, fun _ => id⟩, fun hne => absurd rfl hne, fun _ => rfl⟩
  · cases hs

theorem Proc.Ok.later {p : Proc} (h : p.Ok sh) (hl : Later sh sh')
    (hopen : p.draining = true → sh'.writeReq.closed = sh.writeReq.closed) : p.Ok sh' := by
  cases p with
  | client c => cases c <;> exact h
  | writer w =>
    cases w with
    | draining batch => exact ⟨h.1, (hopen rfl).trans h.2⟩
    | sweeping => exact hl.cancelled h
    | stopped => exact ⟨hl.cancelled h.1, hl.empty h.1 h.2⟩
    | _ => exact h
  | closer c =>
    cases c with
    | cancelled => exact hl.cancelled h
    | _ => exact h

structure Inv (s : System) : Prop where
  shared : s.shared.Ok
  procs : ∀ p ∈ s.procs, p.Ok s.shared
  writer : ∃ w, .writer w ∈ s.procs
  accounts : ∀ req, s.shared.accepted.count req = s.shared.replied.count req +
    s.shared.writeReq.buf.count req + (s.procs.map fun p => p.held.count req).sum

theorem move_spec {p q : Proc} (h : sh.Ok) (hp : p.Ok sh)
    (hsend : a = .send → sh.cancelled = false) (hm : move sh a p = some (sh', q)) :
    q.Ok sh' ∧ Later sh sh' ∧ (a ≠ .close → sh'.writeReq.closed = sh.writeReq.closed) ∧
      Balanced sh sh' p q ∧ ((∃ w, p = .writer w) → ∃ w, q = .writer w) := by
  cases p with
  | client c =>
    obtain ⟨⟨sh₁, c'⟩, hs, heq⟩ := Option.map_eq_some_iff.mp hm
    cases heq
    obtain ⟨hok, hl, hc, hb⟩ := clientStep_spec h hsend hs
    exact ⟨hok, hl, fun _ => hc, hb, fun ⟨_, hw⟩ => nomatch hw⟩
  | writer w =>
    obtain ⟨⟨sh₁, w'⟩, hs, heq⟩ := Option.map_eq_some_iff.mp hm
    cases heq
    obtain ⟨hok, hl, hc, hb⟩ := writerStep_spec h hp hs
    exact ⟨hok, hl, fun _ => hc, hb, fun _ => ⟨w', rfl⟩⟩
  | closer c =>
    obtain ⟨⟨sh₁, c'⟩, hs, heq⟩ := Option.map_eq_some_iff.mp hm
    cases heq
    obtain ⟨hok, hl, hc, hb⟩ := closerStep_spec hp hs
    exact ⟨hok, hl, hc, hb, fun ⟨_, hw⟩ => nomatch hw⟩

theorem inv_step {s s' : System} {a : Nat × Act} (h : Inv s) (hok : Calm s a) (hs : step s a = some s') :
    Inv s' := by
  obtain ⟨i, a⟩ := a
  obtain ⟨l, p, r, q, _, hl, hm, hr⟩ := Pool.step_split hs
  have hall := h.procs
  rw [hl] at hall
  have hsend : a = .send → s.shared.cancelled = false := by
    rintro rfl
    exact hok
  obtain ⟨hq, hlater, hclosed, hb, hkind⟩ := move_spec h.shared (hall p (by simp)) hsend hm
  refine ⟨hlater.ok, ?_, ?_, fun req => ?_⟩
  · rw [hr]
    refine Pool.forall_middle hq fun x hx => ?_
    have hx' : x ∈ l ++ p :: r := mem_middle.mpr (Or.inr hx)
    refine (hall x hx').later hlater fun hd => ?_
    by_cases ha : a = .close
    · -- the channel is closed while nobody drains it
      subst ha
      rw [show x.draining = false from hok x (hl ▸ hx')] at hd
      cases hd
    · exact hclosed ha
  · obtain ⟨w, hw⟩ := h.writer
    rw [hl] at hw
    rw [hr]
    rcases mem_middle.mp hw with hpw | hw
    · obtain ⟨w', rfl⟩ := hkind ⟨w, hpw.symm⟩
      exact ⟨w', by simp⟩
    · exact ⟨w, mem_middle.mpr (Or.inr hw)⟩
  · have hacc := h.accounts req
    have hbal := hb req
    rw [hl] at hacc
    rw [hr]
    simp only [List.map_append, List.map_cons, List.sum_append, List.sum_cons] at hacc ⊢
    omega

theorem inv_opened (clients writers : Nat) : Inv (opened clients writers) := by
  refine ⟨fun h => ?_, ?_, ⟨.select, by simp [opened]⟩, fun req => ?_⟩
  · cases h
  · intro p hp
    simp only [opened, List.cons_append, List.mem_cons, List.mem_append, List.mem_replicate] at hp
    rcases hp with rfl | rfl | ⟨_, rfl⟩ | ⟨_, rfl⟩ <;> trivial
  · simp [opened, Chan.make, Proc.held]

theorem Inv.safe {s : System} (h : Inv s) : Safe s := by
  constructor
  · intro p hp
    have hok := h.procs p hp
    cases p with
    | client c => cases c <;> first | rfl | exact hok.elim
    | writer w => cases w <;> first | rfl | exact hok.elim
    | closer c => rfl
  · intro hstop
    have hheld : ∀ p ∈ s.procs, p.held = [] := by
      intro p hp
      have hp := hstop p hp
      cases p with
      | client c => rfl
      | writer w => cases w <;> first | rfl | cases hp
      | closer c => rfl
    obtain ⟨w, hw⟩ := h.writer
    have hbuf : s.shared.writeReq.buf = [] := by
      have hok := h.procs _ hw
      have hrun := hstop _ hw
      cases w <;> first | exact hok.2 | cases hrun
    rw [List.perm_iff_count]
    intro req
    have hzero : (s.procs.map fun p => p.held.count req) = s.procs.map fun _ => 0 :=
      List.map_congr_left fun p hp => by rw [hheld p hp, List.count_nil]
    have := h.accounts req
    simp [hbuf, hzero] at this
    omega

/-- **`Close` is safe** when it neither meets a client that sends nor a writer that drains. -/
theorem close_safe {clients writers : Nat} {as : List (Nat × Act)} {s : System}
    (hg : Guarded step Calm (opened clients writers) as) (hr : run step (opened clients writers) as = some s) :
    Safe s :=
  (run_invariant (fun h hok hs => inv_step h hok hs) (inv_opened clients writers) hg hr).safe

theorem close_safe_queued :
    ∃ s, run step (opened 2 0) [(2, .call), (2, .send), (1, .receive), (1, .work), (1, .work), (1, .work),
        (1, .work), (2, .await), (3, .call), (3, .send), (0, .cancel), (1, .work), (1, .ctxDone), (1, .work),
        (0, .close), (1, .work), (3, .await)] = some s ∧ s.shared.accepted = [0, 1] ∧ Safe s := by
  have hg : Guarded step Calm (opened 2 0) [(2, .call), (2, .send), (1, .receive), (1, .work), (1, .work),
      (1, .work), (1, .work), (2, .await), (3, .call), (3, .send), (0, .cancel), (1, .work), (1, .ctxDone),
      (1, .work), (0, .close), (1, .work), (3, .await)] := by decide +kernel
  exact ⟨_, rfl, rfl, close_safe hg rfl⟩

/-- A send on the closed channel, nils drained from it, and a request that nobody will answer. -/
theorem close_unsafe :
    (∃ s, run step (opened 1 0) [(2, .call), (0, .cancel), (0, .close), (2, .send)] = some s ∧
      .client .panicked ∈ s.procs) ∧
    (∃ s, run step (opened 1 0) ([(2, .call), (2, .send), (1, .receive), (1, .work), (0, .cancel), (0, .close)] ++
        List.replicate 257 (1, .work)) = some s ∧ .writer .panicked ∈ s.procs) ∧
    ∃ s, run step (opened 1 0) [(0, .cancel), (1, .ctxDone), (1, .work), (2, .call), (2, .send), (0, .close)] =
        some s ∧ (∀ p ∈ s.procs, p.running = false) ∧ s.shared.accepted = [0] ∧ s.shared.replied = [] := by
  refine ⟨⟨_, rfl, by decide +kernel⟩, ?_, ⟨_, rfl, by decide +kernel, rfl, rfl⟩⟩
  have hnil : (run step (opened 1 0) ([(2, .call), (2, .send), (1, .receive), (1, .work), (0, .cancel),
      (0, .close)] ++ List.replicate 257 (1, .work))).any
        (fun s => decide (.writer .panicked ∈ s.procs)) = true := by decide +kernel
  obtain ⟨s, hs, hp⟩ := exists_of_any hnil
  exact ⟨s, hs, of_decide_eq_true hp⟩

end Shutdown
end AkwaDB
