import AkwaDB.Txn.External

/-!
# AkwaDB.Txn.Watermark

The watermark over the open snapshots. `NewReadTs` enters a snapshot and `Done` takes it out again.
`NewTransactionAt` enters nothing, but its transaction ends with `Done` as well, and that takes out the
snapshot of another transaction when the two timestamps are equal.

- `watermark_minTs`: in every run `minTs` is the least entered snapshot, if there is one.
- `minReadTs_le_later`: in every run a transaction that begins later gets no smaller a snapshot.
- `watermark_protects`: while no transaction of `NewTransactionAt` ends at the timestamp of an open
  snapshot, exactly the open snapshots are entered, and `MinReadTs` is below them all.
-/

namespace AkwaDB
namespace Txn

variable {xxhash : Bytes → UInt64} {n : Nat} {sh sh' : Shared} {base : List Entry} {count : Nat}

/-! ## What one move enters and takes out -/

def Proc.snapshot (p : Proc) : Option Nat := p.tx.map Tx.readTs

def Proc.closes : Action → Proc → Option Nat
  | .finish, .running t => some t.readTs
  | .reply _, .settled ⟨_, some t, _⟩ true => some t.readTs
  | .done, .ending t => some t.readTs
  | _, _ => none

/-- The snapshots that are entered, before and after a move. -/
inductive Marks (active : List Nat) (idle : Bool) (closed : Option Nat) :
    Option Nat → List Nat → Option Nat → Prop where
  | stay (ts : Option Nat) : Marks active idle closed ts active ts
  | enter (ts : Nat) (h : idle = true) : Marks active idle closed none (ts :: active) (some ts)
  | takeOut (ts : Nat) (h : closed = some ts) : Marks active idle closed (some ts) (active.erase ts) none

theorem Tx.get_readTs (t : Tx) (log : List Entry) (now : Int) (key : Bytes) :
    (t.get log now key).readTs = t.readTs := by
  unfold Tx.get
  split <;> rfl

theorem Proc.Moves.marks {p q : Proc} {a : Action} (h : p.Moves xxhash sh a sh' q) :
    Marks sh.oracle.watermark.active p.isIdle (p.closes a) p.snapshot sh'.oracle.watermark.active
      q.snapshot := by
  have settle : ∀ b ok, (sh.settle b ok).1.oracle.watermark.active = sh.oracle.watermark.active :=
    fun b ok => congrArg WaterMark.active (markApplied_watermark _ b.version)
  have takeOut : ∀ ts, Marks sh.oracle.watermark.active false (some ts) (some ts)
      (sh.oracle.toOracle.done ts).watermark.active none := fun ts =>
    done_active sh.oracle.watermark ts sh.oracle.appliedTs ▸ .takeOut ts rfl
  cases h with
  | start readOnly => exact .enter _ rfl
  | get key now t =>
    have hts : (Proc.running (t.get sh.log now key)).snapshot = (Proc.running t).snapshot :=
      congrArg some (t.get_readTs _ _ _)
    rw [hts]
    exact .stay _
  | finish t => exact takeOut _
  | grant t commitTs o hcheck =>
    obtain ⟨_, ho⟩ := TxnOracle.checkAndCommit_base hcheck
    simp only [ho]
    exact .stay _
  | refuse t commitTs =>
    rw [settle]
    exact .stay _
  | failPlain now ok version r =>
    rw [settle]
    exact .stay _
  | fail now ok t commitTs entries =>
    rw [settle]
    exact .stay _
  | mark b =>
    rw [settle]
    exact .stay _
  | reply synced commitTs t entries => exact takeOut _
  | abort synced commitTs t entries =>
    simp only [TxnOracle.abortCommit_base]
    exact .stay _
  | done t => exact takeOut _
  | _ => exact .stay _

/-- The snapshot that `NewReadTs` gave, while its transaction is open. -/
def Peer.entered (p : Peer) : Option Nat := if p.begun then p.proc.snapshot else none

def Peer.closes : PeerAction → Peer → Option Nat
  | .own a, p => p.proc.closes a
  | _, _ => none

/-- A transaction of `NewTransactionAt` ends at no open snapshot of the others. -/
def EndsApart (s : Peers) (a : Nat × PeerAction) : Prop :=
  ∀ p ∈ s.procs[a.1]?, p.begun = false → ∀ ts ∈ p.closes a.2, ∀ q ∈ s.procs, q.entered ≠ some ts

instance (s : Peers) (a : Nat × PeerAction) : Decidable (EndsApart s a) :=
  inferInstanceAs (Decidable (∀ p ∈ s.procs[a.1]?, p.begun = false → _))

def Entered (sh : Shared) (procs : List Peer) : Prop :=
  sh.oracle.watermark.active.Perm (procs.filterMap Peer.entered)

variable {l r : List Peer} {p q : Peer} {a : PeerAction}

theorem Entered.congr (h : Entered sh (l ++ p :: r))
    (hactive : sh'.oracle.watermark.active = sh.oracle.watermark.active) (hq : q.entered = p.entered) :
    Entered sh' (l ++ q :: r) := by
  unfold Entered
  rw [hactive, filterMap_middle_congr hq]
  exact h

section Marks

variable {idle : Bool} {closed ts ts' : Option Nat}

theorem Entered.marks (h : Entered sh (l ++ p :: r))
    (hm : Marks sh.oracle.watermark.active idle closed ts sh'.oracle.watermark.active ts')
    (hp : p.entered = ts) (hq : q.entered = ts') : Entered sh' (l ++ q :: r) := by
  unfold Entered at h ⊢
  generalize sh'.oracle.watermark.active = active at hm ⊢
  cases hm with
  | stay ts => rwa [filterMap_middle_congr (hq.trans hp.symm)]
  | enter ts _ =>
    rw [filterMap_middle_none hp] at h
    exact (h.cons ts).trans (filterMap_middle_some hq).symm
  | takeOut ts _ =>
    have := (h.trans (filterMap_middle_some hp)).erase ts
    rwa [List.erase_cons_head, ← filterMap_middle_none hq] at this

theorem Entered.apart (h : Entered sh (l ++ p :: r))
    (hm : Marks sh.oracle.watermark.active false closed ts sh'.oracle.watermark.active ts')
    (hp : p.entered = none) (hq : q.entered = none)
    (hend : ∀ ts ∈ closed, ∀ x ∈ l ++ p :: r, x.entered ≠ some ts) : Entered sh' (l ++ q :: r) := by
  refine h.congr ?_ (hq.trans hp.symm)
  generalize sh'.oracle.watermark.active = active at hm ⊢
  cases hm with
  | stay ts => rfl
  | enter ts hidle => cases hidle
  | takeOut ts hclosed =>
    refine List.erase_of_not_mem fun hmem => ?_
    obtain ⟨x, hx, hxts⟩ := List.mem_filterMap.mp (h.mem_iff.mp hmem)
    exact hend ts hclosed x hx hxts

end Marks

theorem entered_step (h : Entered sh (l ++ p :: r)) (hm : p.Moves xxhash sh a sh' q)
    (hend : p.begun = false → ∀ ts ∈ p.closes a, ∀ x ∈ l ++ p :: r, x.entered ≠ some ts) :
    Entered sh' (l ++ q :: r) := by
  cases hm with
  | own a begun p sh' q hm =>
    have hmarks := hm.marks
    cases begun with
    | true => exact h.marks hmarks rfl rfl
    | false =>
      cases hidle : p.isIdle with
      | true =>
        have hp : Peer.entered ⟨false, p, none⟩ = p.snapshot := by
          cases p with
          | idle => rfl
          | _ => cases hidle
        exact h.marks hmarks hp rfl
      | false =>
        rw [hidle] at hmarks
        exact h.apart hmarks rfl rfl (hend rfl)
  | newTransactionAt readTs readOnly begun =>
    exact h.congr rfl (by cases begun <;> rfl)
  | bump commitTs begun t => exact h.congr rfl rfl
  | record commitTs begun t =>
    refine h.congr ?_ rfl
    simp only [TxnOracle.recordCommitted_toOracle]

theorem peers_ok {s s' : Peers} {as : List (Nat × PeerAction)} (h : s.shared.oracle.Ok)
    (hr : run (Pool.step (Peer.step xxhash)) s as = some s') :
    s'.shared.oracle.Ok ∧ s.shared.oracle.appliedTs ≤ s'.shared.oracle.appliedTs := by
  refine @run_invariant _ _ _ (fun x : Peers => x.shared.oracle.Ok ∧
    s.shared.oracle.appliedTs ≤ x.shared.oracle.appliedTs) (fun _ _ => True) ?_ _ _ _
    ⟨h, Nat.le_refl _⟩ (guarded_of_forall (fun _ _ _ => trivial) s) hr
  intro x a x' hx _ hs
  obtain ⟨l, p, r, q, _, _, hq, _⟩ := Pool.step_split hs
  obtain ⟨hok, hle⟩ := (Peer.moves_of_step hq).oracle_ok hx.1
  exact ⟨hok, Nat.le_trans hx.2 hle⟩

theorem peers_init_ok (hn : 0 < n) : (Peers.init n base count).shared.oracle.Ok :=
  (init_steady hn base count).ok

theorem watermark_minTs {o : Oracle} (h : o.Ok) (hne : o.watermark.active ≠ []) :
    o.watermark.active.min? = some o.watermark.minTs :=
  List.min?_eq_some_iff.mpr ⟨h.mark.attained hne, h.mark.least⟩

theorem minReadTs_le_later {s s' : Peers} {as : List (Nat × PeerAction)} (h : s.shared.oracle.Ok)
    (hr : run (Pool.step (Peer.step xxhash)) s as = some s') :
    s.shared.oracle.minReadTs ≤ s'.shared.oracle.newReadTs.1 := by
  obtain ⟨hok, hle⟩ := peers_ok h hr
  rw [Oracle.newReadTs_fst hok]
  exact Nat.le_trans (WaterMark.minReadTs_le h.mark) hle

theorem peers_entered {as : List (Nat × PeerAction)} {s : Peers}
    (hg : Guarded (Pool.step (Peer.step xxhash)) EndsApart (Peers.init n base count) as)
    (hr : run (Pool.step (Peer.step xxhash)) (Peers.init n base count) as = some s) :
    Entered s.shared s.procs := by
  refine @run_invariant _ _ _ (fun s : Peers => Entered s.shared s.procs) _ ?_ _ _ _ ?_ hg hr
  · intro s a s' h hok hs
    obtain ⟨l, p, r, q, hp, hl, hq, hl'⟩ := Pool.step_split hs
    rw [hl']
    rw [hl] at h
    refine entered_step h (Peer.moves_of_step hq) ?_
    rw [← hl]
    exact hok p hp
  · have hnone : (Peers.init n base count).procs.filterMap Peer.entered = [] := by
      refine List.filterMap_eq_nil_iff.mpr fun p hp => ?_
      rw [List.eq_of_mem_replicate hp]
      rfl
    rw [Entered, hnone]
    exact List.Perm.nil

/-- **The watermark protects the open snapshots, as long as nobody else closes them.** -/
theorem watermark_protects (xxhash : Bytes → UInt64) {as : List (Nat × PeerAction)} {s : Peers} (hn : 0 < n)
    (hg : Guarded (Pool.step (Peer.step xxhash)) EndsApart (Peers.init n base count) as)
    (hr : run (Pool.step (Peer.step xxhash)) (Peers.init n base count) as = some s) :
    (s.shared.oracle.watermark.active ≠ [] →
      s.shared.oracle.watermark.active.min? = some s.shared.oracle.watermark.minTs) ∧
    (∀ p ∈ s.procs, ∀ ts ∈ p.entered, s.shared.oracle.minReadTs ≤ ts) ∧
    ∀ bs s', run (Pool.step (Peer.step xxhash)) s bs = some s' →
      s.shared.oracle.minReadTs ≤ s'.shared.oracle.newReadTs.1 := by
  have hok := (peers_ok (peers_init_ok hn) hr).1
  refine ⟨watermark_minTs hok, ?_, fun bs s' => minReadTs_le_later hok⟩
  intro p hp ts hts
  refine minReadTs_le_active hok ((peers_entered hg hr).mem_iff.mpr ?_)
  exact List.mem_filterMap.mpr ⟨p, hp, hts⟩

def rollbackElsewhere : List (Nat × PeerAction) :=
  [(0, .own (.start true)), (1, .newTransactionAt 5 false), (1, .own .finish)]

theorem watermark_protects_elsewhere : ∃ s,
    run (Pool.step (Peer.step fun _ => 0)) (Peers.init 1 [] 2) rollbackElsewhere = some s ∧
      s.procs.filterMap Peer.entered = [1] ∧
      (s.shared.oracle.watermark.active ≠ [] →
        s.shared.oracle.watermark.active.min? = some s.shared.oracle.watermark.minTs) ∧
      (∀ p ∈ s.procs, ∀ ts ∈ p.entered, s.shared.oracle.minReadTs ≤ ts) ∧
      ∀ bs s', run (Pool.step (Peer.step fun _ => 0)) s bs = some s' →
        s.shared.oracle.minReadTs ≤ s'.shared.oracle.newReadTs.1 := by
  obtain ⟨s, hs⟩ : ∃ s,
      run (Pool.step (Peer.step fun _ => 0)) (Peers.init 1 [] 2) rollbackElsewhere = some s := ⟨_, rfl⟩
  refine ⟨s, hs, ?_, watermark_protects (fun _ => 0) (by decide) (by decide +kernel) hs⟩
  cases hs
  rfl

/-- A `View` at 1; a transaction at the same timestamp is rolled back; then a `Put`. -/
def rollbackAtSnapshot : List (Nat × PeerAction) :=
  [(0, .own (.start true)), (1, .newTransactionAt 1 false), (1, .own .finish),
   (1, .own (.request (.put [97] [1] 0))), (1, .own .assign), (1, .own (.append 0 true)),
   (1, .own .insert), (1, .own .mark)]

/-- The `View` is still open, and `MinReadTs` has passed it. -/
theorem snapshot_unprotected : ∃ s,
    run (Pool.step (Peer.step fun _ => 0)) (Peers.init 1 [] 2) rollbackAtSnapshot = some s ∧
      s.procs.filterMap Peer.entered = [1] ∧ s.shared.oracle.minReadTs = 2 :=
  ⟨_, rfl, rfl, rfl⟩

end Txn
end AkwaDB
