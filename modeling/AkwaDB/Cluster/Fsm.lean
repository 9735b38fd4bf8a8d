import AkwaDB.Server.Alike

/-!
# AkwaDB.Cluster.Fsm

The state machine that Raft drives, on two nodes.

Each node applies the commands of one log, in order, and has a life of its own in between: its clock goes on,
versions are given out to commits that wait or fail, expired keys are swept. Neither node sees the other, so
two runs over one log can be put next to each other command by command.

A batch that comes with a version is put in at that version, and any other write above the counter of the node
that applies it. A number of seconds is added to the clock of that node.

- `fsmApply`: `EngineFSM.Apply`.
- `nodes_agree`: the nodes show the same as long as no node has a newer version of a key when a batch with a
  version writes it, and no command falls on two sides of an expiry or counts seconds at two times.
- `nodes_diverge`: otherwise they may not.
-/

namespace AkwaDB
namespace Cluster

open Keyspace (Agree)
open Server
open Wal (BatchWriteEntry)

/-! ## The state machine -/

inductive RaftCommand where
  | batchApply (entries : List BatchWriteEntry) (version : Nat)
  | command (op : Op) (args : List Bytes)

variable (rt : Runtime)

def fsmApply : RaftCommand → DbM Result
  | .batchApply entries version => do
    if 0 < version then batchApplyWithVersion entries version else submitBatch entries
    return .nil
  | .command op args => executeReplicatedCommand rt op args

/-- What happens on a node between two commands of the log. -/
inductive Local where
  | tick (seconds : Nat)
  /-- Versions up to this one are given out: to a transaction that waits for its place in the log, to one
  that is aborted, or to the sweep. -/
  | reserve (version : Nat)
  | sweep (keys : List Bytes)

def Local.step (n : Node) : Local → Node
  | tick seconds => n.tick seconds
  | reserve version => n.reserve version
  | sweep keys => n.applyAt (n.nextTs + 1) (keys.map tombstone)

structure Nodes where
  left : Node
  right : Node

inductive Act where
  | apply (c : RaftCommand)
  | left (l : Local)
  | right (l : Local)

def step (s : Nodes) : Act → Option Nodes
  | .apply c => some ⟨((fsmApply rt c).run s.left).2, ((fsmApply rt c).run s.right).2⟩
  | .left l => some { s with left := l.step s.left }
  | .right l => some { s with right := l.step s.right }

/-- Nothing of these keys expires between the two times, for a lookup, for a scan or for an increment. -/
def Still (n : Node) (t u : Int) (keys : List Bytes) : Prop :=
  ∀ x ∈ n.log, (∃ key ∈ keys, covers key x.key = true) →
    (n.db x.key).all fun i => i.expired t == i.expired u && i.listed t == i.listed u && i.lasts t == i.lasts u

/-- The command does not depend on what only one of the nodes has. -/
def Placed (s : Nodes) : RaftCommand → Prop
  | .batchApply entries version => 0 < version → s.left.AtMost version entries ∧ s.right.AtMost version entries
  | .command op args =>
    (relative op args = true → s.left.now = s.right.now) ∧
      Still s.left s.left.now s.right.now (named op args) ∧ Still s.right s.left.now s.right.now (named op args)

def Local.Unseen (n : Node) : Local → Prop
  | .sweep keys => ∀ k ∈ keys, n.db.live n.now k = none
  | _ => True

def Steady (s : Nodes) : Act → Prop
  | .apply c => Placed s c
  | .left l => l.Unseen s.left
  | .right l => l.Unseen s.right

instance (n : Node) (t u : Int) (keys : List Bytes) : Decidable (Still n t u keys) :=
  inferInstanceAs (Decidable (∀ x ∈ n.log, (∃ key ∈ keys, covers key x.key = true) → _))

instance (s : Nodes) (c : RaftCommand) : Decidable (Placed s c) := by
  unfold Placed
  split <;> infer_instance

instance (n : Node) (l : Local) : Decidable (l.Unseen n) := by
  unfold Local.Unseen
  split <;> infer_instance

instance (s : Nodes) (a : Act) : Decidable (Steady s a) := by
  unfold Steady
  split <;> infer_instance

variable {rt}

theorem Still.item {n : Node} {t u : Int} {keys : List Bytes} (h : Still n t u keys) {k : Bytes} {i : Item}
    (hk : ∃ key ∈ keys, covers key k = true) (hi : n.db k = some i) :
    i.expired t = i.expired u ∧ i.listed t = i.listed u ∧ i.lasts t = i.lasts u := by
  obtain ⟨x, hx, rfl⟩ := List.mem_map.mp (n.mem_log_of_db hi)
  have := h x hx hk
  rw [hi] at this
  simpa [and_assoc] using this

theorem Still.live_eq {n : Node} {t u : Int} {keys : List Bytes} (h : Still n t u keys) {k : Bytes}
    (hk : ∃ key ∈ keys, covers key k = true) : n.db.live t k = n.db.live u k := by
  unfold Keyspace.live
  cases hi : n.db k with
  | none => rfl
  | some i => simp only [Option.filter_some, (h.item hk hi).1]

theorem alike_of_still {m n : Node} {t u : Int} {keys : List Bytes} (h : Shown t u m n)
    (hm : Still m t u keys) (hn : Still n t u keys) :
    Alike (fun k => ∃ key ∈ keys, covers key k = true) t u m n := by
  have hlive : ∀ k, (∃ key ∈ keys, covers key k = true) → m.db.live t k = n.db.live u k := by
    intro k hk
    rcases Int.le_total t u with hle | hle
    · rw [hm.live_eq hk]
      exact h.agree u (by omega) k
    · rw [← hn.live_eq hk]
      exact h.agree t (by omega) k
  have hitem : ∀ {k i}, (∃ key ∈ keys, covers key k = true) → n.db.live u k = some i →
      i.listed t = i.listed u ∧ i.lasts t = i.lasts u := fun hk hi =>
    (hm.item hk (Option.filter_eq_some_iff.mp ((hlive _ hk).trans hi)).1).2
  refine ⟨h, hlive, fun k hk => ?_, fun k hk => ?_⟩
  · rw [any_listed m.db, any_listed n.db, hlive k hk]
    cases hi : n.db.live u k with
    | none => rfl
    | some i => simp only [Option.any_some, (hitem hk hi).1]
  · rw [hlive k hk]
    cases hi : n.db.live u k with
    | none => rw [Option.any_none, Option.any_none]
    | some i => simp only [Option.any_some, (hitem hk hi).2]

def Same (s : Nodes) : Prop := Agree (max s.left.now s.right.now) s.left.db s.right.db

theorem Same.shown {s : Nodes} (h : Same s) : Shown s.left.now s.right.now s.left s.right := ⟨rfl, rfl, h⟩

theorem same_of_shown {t u : Int} {m n : Node} (h : Shown t u m n) : Same ⟨m, n⟩ := by
  show Agree (max m.now n.now) m.db n.db
  rw [h.left, h.right]
  exact h.agree

theorem same_apply {s : Nodes} {c : RaftCommand} (h : Same s) (hc : Placed s c) :
    Same ⟨((fsmApply rt c).run s.left).2, ((fsmApply rt c).run s.right).2⟩ := by
  cases c with
  | command op args =>
    obtain ⟨hrel, hleft, hright⟩ := hc
    have halike := alike_of_still h.shown hleft hright
    exact same_of_shown (tied_execute rt op args (fun key hkey k hk => ⟨key, hkey, hk⟩) hrel _ _ halike).2
  | batchApply entries version =>
    simp only [fsmApply]
    by_cases hv : 0 < version
    · obtain ⟨hleft, hright⟩ := hc hv
      rw [if_pos hv]
      exact same_of_shown (h.shown.applyAt hleft hright)
    · rw [if_neg hv]
      exact same_of_shown (h.shown.applyAt (s.left.atMost_nextTs _) (s.right.atMost_nextTs _))

theorem agree_local {n : Node} {l : Local} (h : l.Unseen n) :
    n.now ≤ (l.step n).now ∧ Agree n.now (l.step n).db n.db := by
  cases l with
  | tick seconds => exact ⟨by show n.now ≤ n.now + seconds; omega, .refl _ _⟩
  | reserve version => exact ⟨Int.le_refl _, .refl _ _⟩
  | sweep keys =>
    refine ⟨Int.le_refl _, ?_⟩
    show Agree n.now (n.applyAt _ _).db n.db
    rw [Node.db_applyAt (n.atMost_nextTs _)]
    refine Repl.agree_tombstones fun b hb => ?_
    obtain ⟨k, hk, rfl⟩ := List.mem_map.mp hb
    exact ⟨rfl, h k hk⟩

theorem same_step {s s' : Nodes} {a : Act} (h : Same s) (ha : Steady s a) (hs : step rt s a = some s') : Same s' := by
  cases a with
  | apply c =>
    cases hs
    exact same_apply h ha
  | left l =>
    cases hs
    obtain ⟨hnow, hl⟩ := agree_local ha
    have hleft : Agree (max (l.step s.left).now s.right.now) (l.step s.left).db s.left.db := hl.later (by omega)
    exact hleft.trans (h.later (by omega))
  | right l =>
    cases hs
    obtain ⟨hnow, hl⟩ := agree_local ha
    have hright : Agree (max s.left.now (l.step s.right).now) s.right.db (l.step s.right).db :=
      (hl.later (by omega)).symm
    have hboth : Agree (max s.left.now (l.step s.right).now) s.left.db s.right.db := h.later (by omega)
    exact hboth.trans hright

/-- **Two nodes that apply one log show the same** from the later of their clocks on. -/
theorem nodes_agree {s s' : Nodes} {as : List Act}
    (hsame : ∀ t, max s.left.now s.right.now ≤ t → ∀ k, s.left.db.live t k = s.right.db.live t k)
    (hg : Guarded (step rt) Steady s as) (hr : run (step rt) s as = some s') :
    ∀ t, max s'.left.now s'.right.now ≤ t → ∀ k, s'.left.db.live t k = s'.right.db.live t k :=
  run_invariant same_step (show Same s from hsame) hg hr

def Nodes.apart : Nodes where
  left := (Node.fresh 1000).reserve 3
  right := (Node.fresh 1005).reserve 10

/-- `SET`, a transaction, `INCRBY`, and `SETEX` once the clocks are the same; then only one node sweeps. -/
theorem nodes_agree_ownClocks :
    let k : Bytes := [115, 0, 107]
    let j : Bytes := [115, 0, 106]
    let as : List Act :=
      [.apply (.command .set [[107], [53]]), .left (.reserve 20), .apply (.batchApply [⟨k, [55], 0, false⟩] 30),
       .apply (.command .incrby [[107], [49]]), .left (.tick 5), .apply (.command .setex [[106], [54, 48], [118]]),
       .right (.tick 100), .right (.sweep [j])]
    ∃ s', run (step .plain) .apart as = some s' ∧ s'.left.db.get 1005 k = some [56] ∧
      s'.left.db.get 1005 j = some [118] ∧ s'.right.db j = none ∧
      ∀ t, 1105 ≤ t → ∀ k, s'.left.db.live t k = s'.right.db.live t k := by
  intro k j as
  have hg : Guarded (step .plain) Steady .apart as := by decide +kernel
  have hrun : ∃ s', run (step .plain) .apart as = some s' ∧ (s'.left.db.get 1005 k = some [56] ∧
      s'.left.db.get 1005 j = some [118] ∧ s'.right.db j = none) ∧ max s'.left.now s'.right.now = 1105 :=
    ⟨_, rfl, by decide +kernel, by decide +kernel⟩
  obtain ⟨s', hr, ⟨h1, h2, h3⟩, hnow⟩ := hrun
  refine ⟨s', hr, h1, h2, h3, fun t ht => ?_⟩
  exact nodes_agree (fun _ _ _ => rfl) hg hr t (by omega)

/-- The nodes give `SET` versions on both sides of the transaction's, and `SETEX` counts from two times. -/
theorem nodes_diverge :
    let k : Bytes := [115, 0, 107]
    (∃ s', run (step .plain) .apart
        [.apply (.command .set [[107], [98]]), .apply (.batchApply [⟨k, [97], 0, false⟩] 5)] = some s' ∧
      s'.left.db.live 1005 k = some ⟨[97], 0⟩ ∧ s'.right.db.live 1005 k = some ⟨[98], 0⟩) ∧
    ∃ s', run (step .plain) .apart [.apply (.command .setex [[107], [54, 48], [118]])] = some s' ∧
      s'.left.db.live 1005 k = some ⟨[118], 1060⟩ ∧ s'.right.db.live 1005 k = some ⟨[118], 1065⟩ := by
  intro k
  exact ⟨⟨_, rfl, by decide +kernel, by decide +kernel⟩, ⟨_, rfl, by decide +kernel, by decide +kernel⟩⟩

end Cluster
end AkwaDB
