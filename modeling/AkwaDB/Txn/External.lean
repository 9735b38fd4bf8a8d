import AkwaDB.Txn.Serial

/-!
# AkwaDB.Txn.External

Transactions that bring their own timestamps: `NewTransactionAt` takes the snapshot of the caller, and
`CommitAt` commits at the caller's timestamp, in three steps. `Bump` raises `appliedTs` to it,
`RecordCommitted` enters the writes into the history, and `BatchApplyWithVersion` applies the batch
like the one of any other transaction.

Between `Bump` and the end of the batch `appliedTs` is above versions that are still to be inserted,
those of the batch itself and those of commits that were pending.

- `readers_keep_snapshots`: while no snapshot is taken at or above a pending version, and `Bump` stays
  above the snapshots in use, every reader keeps its snapshot and sees every batch as a whole.
-/

namespace AkwaDB

namespace TxnOracle

def recordCommitted (xxhash : Bytes → UInt64) (o : TxnOracle) (commitTs : Nat)
    (writeKeys : List Bytes) : TxnOracle :=
  if writeKeys.isEmpty then o
  else
    let writeFps := fingerprints xxhash writeKeys
    let o' : TxnOracle :=
      ⟨o.toOracle, o.history ++ [⟨commitTs, writeFps⟩], indexWrites commitTs writeFps o.historyIndex⟩
    o'.trimHistory o.minReadTs

theorem recordCommitted_toOracle (xxhash : Bytes → UInt64) (o : TxnOracle) (commitTs : Nat)
    (writeKeys : List Bytes) :
    (o.recordCommitted xxhash commitTs writeKeys).toOracle = o.toOracle := by
  unfold recordCommitted
  split <;> rfl

theorem checkAndCommit_base {xxhash : Bytes → UInt64} {o o' : TxnOracle} {readTs commitTs : Nat}
    {readSet writeKeys : List Bytes}
    (h : o.checkAndCommit xxhash readTs readSet writeKeys = some (commitTs, o')) :
    commitTs = o.nextTs + 1 ∧ o'.toOracle = o.toOracle.newCommitTs.2 := by
  unfold checkAndCommit checkAndCommitInternal at h
  split at h
  · cases h
  · cases h
    exact ⟨rfl, rfl⟩

theorem abortCommit_base (o : TxnOracle) (commitTs : Nat) : (o.abortCommit commitTs).toOracle =
    Oracle.advanceApplied { o.toOracle with awaiting := o.awaiting.filter (· ≠ commitTs) } := by
  unfold abortCommit
  split <;> rfl

end TxnOracle

namespace Txn

/-- `begun`: `NewReadTs` gave the snapshot. `bumped`: a `CommitAt` before its `RecordCommitted`. -/
structure Peer where
  begun : Bool
  proc : Proc
  bumped : Option Nat

inductive PeerAction where
  | own (a : Action)
  | newTransactionAt (readTs : Nat) (readOnly : Bool)
  /-- `CommitAt` of a transaction with writes: `Bump`. -/
  | bump (commitTs : Nat)
  | record

def Proc.isIdle : Proc → Bool
  | .idle => true
  | _ => false

def Action.isCheck : Action → Bool
  | .check => true
  | _ => false

variable (xxhash : Bytes → UInt64)

def Peer.step (sh : Shared) : PeerAction → Peer → Option (Shared × Peer)
  | .own a, ⟨begun, p, none⟩ =>
    -- only `Update` and `EXEC` commit by the check
    if a.isCheck && !begun then none
    else (p.step xxhash sh a).map fun r => (r.1, ⟨begun || p.isIdle, r.2, none⟩)
  | .newTransactionAt readTs readOnly, ⟨_, .idle, none⟩ =>
    some (sh, ⟨false, .running ⟨readOnly, readTs, [], [], []⟩, none⟩)
  | .bump commitTs, ⟨begun, .running t, none⟩ =>
    if t.readOnly || t.writes.isEmpty then none
    else some (sh.mapOracle (Oracle.bump · commitTs), ⟨begun, .running t, some commitTs⟩)
  | .record, ⟨begun, .running t, some commitTs⟩ =>
    some ({ sh with oracle := sh.oracle.recordCommitted xxhash commitTs t.keys },
      ⟨begun, .checked t commitTs, none⟩)
  | _, _ => none

abbrev Peers := Pool Shared Peer

def Peers.init (n : Nat) (base : List Entry) (count : Nat) : Peers :=
  ⟨(Txn.init n base 0).shared, List.replicate count ⟨true, .idle, none⟩⟩

inductive Peer.Moves (sh : Shared) : PeerAction → Peer → Shared → Peer → Prop where
  | own (a : Action) (begun : Bool) (p : Proc) (sh' : Shared) (q : Proc) (h : p.Moves xxhash sh a sh' q) :
      Moves sh (.own a) ⟨begun, p, none⟩ sh' ⟨begun || p.isIdle, q, none⟩
  | newTransactionAt (readTs : Nat) (readOnly begun : Bool) :
      Moves sh (.newTransactionAt readTs readOnly) ⟨begun, .idle, none⟩ sh
        ⟨false, .running ⟨readOnly, readTs, [], [], []⟩, none⟩
  | bump (commitTs : Nat) (begun : Bool) (t : Tx) :
      Moves sh (.bump commitTs) ⟨begun, .running t, none⟩ (sh.mapOracle (Oracle.bump · commitTs))
        ⟨begun, .running t, some commitTs⟩
  | record (commitTs : Nat) (begun : Bool) (t : Tx) :
      Moves sh .record ⟨begun, .running t, some commitTs⟩
        { sh with oracle := sh.oracle.recordCommitted xxhash commitTs t.keys }
        ⟨begun, .checked t commitTs, none⟩

variable {xxhash}

theorem Peer.moves_of_step {sh sh' : Shared} {a : PeerAction} {p q : Peer}
    (h : p.step xxhash sh a = some (sh', q)) : p.Moves xxhash sh a sh' q := by
  revert h
  fun_cases Peer.step xxhash sh a p
  all_goals intro h
  · cases h
  · obtain ⟨⟨sh'', q'⟩, hq, heq⟩ := Option.map_eq_some_iff.mp h
    cases heq
    exact .own _ _ _ _ _ (Proc.moves_of_step hq)
  · cases h
    constructor
  · cases h
  · cases h
    constructor
  · cases h
    constructor
  · cases h

/-! ## What one move does -/

variable {n : Nat} {sh sh' : Shared} {a : Action} {p q : Proc}

namespace Proc

theorem Moves.oracle_ok (h : p.Moves xxhash sh a sh' q) (hok : sh.oracle.Ok) :
    sh'.oracle.Ok ∧ sh.oracle.appliedTs ≤ sh'.oracle.appliedTs := by
  have same : sh.oracle.Ok ∧ sh.oracle.appliedTs ≤ sh.oracle.appliedTs := ⟨hok, Nat.le_refl _⟩
  have settle : ∀ b ok, (sh.settle b ok).1.oracle.Ok ∧
      sh.oracle.appliedTs ≤ (sh.settle b ok).1.oracle.appliedTs := fun b ok =>
    ⟨(Oracle.markApplied_ok hok b.version).1, Oracle.le_markApplied b.version⟩
  have done : ∀ ts, (sh.oracle.toOracle.done ts).Ok ∧
      sh.oracle.appliedTs ≤ (sh.oracle.toOracle.done ts).appliedTs := fun ts =>
    ⟨(Oracle.done_ok hok ts).1, Nat.le_refl _⟩
  cases h with
  | start readOnly => exact ⟨(Oracle.newReadTs_ok hok).1, Nat.le_refl _⟩
  | get key now t => exact same
  | write key entry t => exact same
  | finish t => exact done t.readTs
  | conflict t => exact same
  | grant t commitTs o hcheck =>
    obtain ⟨_, ho⟩ := TxnOracle.checkAndCommit_base hcheck
    simp only [ho]
    exact ⟨(Oracle.newCommitTs_ok hok).1, Nat.le_refl _⟩
  | reserve t commitTs =>
    have hle : sh.oracle.appliedTs ≤ max sh.oracle.nextTs commitTs :=
      Nat.le_trans hok.le (Nat.le_max_left _ _)
    exact ⟨⟨hok.pos, hle, hok.mark⟩, Nat.le_refl _⟩
  | submit t commitTs entries _ => exact same
  | refuse t commitTs => exact settle _ _
  | request req => exact same
  | refusePlain req => exact same
  | assign req => exact ⟨(Oracle.newCommitTs_ok hok).1, Nat.le_refl _⟩
  | appendPlain now ok version req writes => exact same
  | failPlain now ok version req => exact settle _ _
  | append now ok t commitTs entries => exact same
  | fail now ok t commitTs entries => exact settle _ _
  | insert b x todo => exact same
  | mark b => exact settle _ _
  | replyPlain synced version entries ok => exact same
  | reply synced version t entries => exact done t.readTs
  | abort synced version t entries =>
    have hbase : Oracle.Ok { sh.oracle.toOracle with awaiting := sh.oracle.awaiting.filter (· ≠ version) } :=
      ⟨hok.pos, hok.le, hok.mark⟩
    simp only [TxnOracle.abortCommit_base]
    exact ⟨Oracle.advanceApplied_ok hbase, Oracle.le_advanceApplied
      { sh.oracle.toOracle with awaiting := sh.oracle.awaiting.filter (· ≠ version) }⟩
  | done t => exact done t.readTs
  | doneRead => exact ⟨Oracle.advanceApplied_ok hok, Oracle.le_advanceApplied _⟩

theorem Moves.log (h : p.Moves xxhash sh a sh' q) : sh'.log = sh.log ∨
    ∃ b x todo, p = .inserting b (x :: todo) ∧ q = .inserting b todo ∧ sh'.log = sh.log ++ [x] := by
  cases h with
  | insert b x todo => exact Or.inr ⟨b, x, todo, rfl, rfl, rfl⟩
  | _ => exact Or.inl rfl

theorem Moves.version (h : p.Moves xxhash sh a sh' q) : q.version = p.version ∨ q.version = none ∨
    q.version = some (sh.oracle.nextTs + 1) := by
  cases h with
  | grant t commitTs o hcheck =>
    obtain ⟨rfl, _⟩ := TxnOracle.checkAndCommit_base hcheck
    exact Or.inr (Or.inr rfl)
  | assign req => exact Or.inr (Or.inr rfl)
  | refuse t commitTs => exact Or.inr (Or.inl rfl)
  | failPlain now ok version req => exact Or.inr (Or.inl rfl)
  | fail now ok t commitTs entries => exact Or.inr (Or.inl rfl)
  | mark b => exact Or.inr (Or.inl rfl)
  | _ => exact Or.inl rfl

/-- What a goroutine has of its batch, and what the log has of it. -/
def Filled (sh : Shared) : Proc → Prop
  | .submitted _ commitTs entries => ∀ x ∈ entries, x.version = commitTs
  | .inserting b todo => (∀ x ∈ b.entries, x.version = b.version ∧ (x ∈ sh.log ∨ x ∈ todo)) ∧
      ∀ x ∈ todo, x.version = b.version
  | .settled b ok => (b, ok) ∈ sh.batches
  | _ => True

theorem Filled.mono (h : p.Filled sh) (hlog : ∀ x ∈ sh.log, x ∈ sh'.log)
    (hb : ∀ e ∈ sh.batches, e ∈ sh'.batches) : p.Filled sh' := by
  cases p with
  | inserting b todo => exact ⟨fun x hx => (h.1 x hx).imp_right (Or.imp_left (hlog x)), h.2⟩
  | settled b ok => exact hb _ h
  | submitted t commitTs entries => exact h
  | _ => trivial

theorem stamp_version {version : Nat} {writes : List (Bytes × TxEntry)} :
    ∀ x ∈ stamp version writes, x.version = version := by
  intro x hx
  obtain ⟨w, _, rfl⟩ := List.mem_map.mp hx
  rfl

theorem Moves.filled (h : p.Moves xxhash sh a sh' q) (hp : p.Filled sh) : q.Filled sh' := by
  have settled : ∀ b ok, (Proc.settled b ok).Filled (sh.settle b ok).1 := fun b ok =>
    List.mem_append_right _ (List.mem_singleton.mpr rfl)
  cases h with
  | submit t commitTs entries hperm => exact fun x hx => stamp_version x (hperm.mem_iff.mp hx)
  | refuse t commitTs => exact settled _ _
  | failPlain now ok version req => exact settled _ _
  | fail now ok t commitTs entries => exact settled _ _
  | mark b => exact settled _ _
  | appendPlain now ok version req writes =>
    exact ⟨fun x hx => ⟨stamp_version x hx, Or.inr hx⟩, fun x hx => stamp_version x hx⟩
  | append now ok t commitTs entries => exact ⟨fun x hx => ⟨hp x hx, Or.inr hx⟩, hp⟩
  | insert b x todo =>
    refine ⟨fun y hy => (hp.1 y hy).imp_right ?_, fun y hy => hp.2 y (List.mem_cons_of_mem _ hy)⟩
    rintro (hl | hy)
    · exact Or.inl (List.mem_append_left _ hl)
    · cases List.mem_cons.mp hy with
      | inl heq => exact Or.inl (List.mem_append_right _ (List.mem_singleton.mpr heq))
      | inr hy => exact Or.inr hy
  | doneRead => exact hp.mono (fun _ hx => hx) (fun _ he => he)
  | _ => trivial

theorem Moves.batches (h : p.Moves xxhash sh a sh' q) (hp : p.Filled sh) : ∀ e ∈ sh'.batches,
    e ∈ sh.batches ∨ ∀ x ∈ e.1.entries, x.version = e.1.version ∧ x ∈ sh'.log := by
  have given : ∀ v o, ∀ e ∈ (sh.settle ⟨v, o, []⟩ false).1.batches, e ∈ sh.batches ∨
      ∀ x ∈ e.1.entries, x.version = e.1.version ∧ x ∈ sh.log := by
    intro v o e he
    refine (List.mem_append.mp he).imp_right fun he x hx => ?_
    rw [List.mem_singleton.mp he] at hx
    cases hx
  cases h with
  | refuse t commitTs => exact given _ _
  | failPlain now ok version req => exact given _ _
  | fail now ok t commitTs entries => exact given _ _
  | mark b =>
    intro e he
    refine (List.mem_append.mp he).imp_right fun he x hx => ?_
    rw [List.mem_singleton.mp he] at hx ⊢
    exact (hp.1 x hx).imp_right fun h => h.resolve_right List.not_mem_nil
  | _ => exact fun e he => Or.inl he

theorem Moves.batches_subset (h : p.Moves xxhash sh a sh' q) : ∀ e ∈ sh.batches, e ∈ sh'.batches := by
  have settle : ∀ b ok, ∀ e ∈ sh.batches, e ∈ (sh.settle b ok).1.batches := fun b ok e he =>
    List.mem_append_left _ he
  cases h with
  | refuse t commitTs => exact settle _ _
  | failPlain now ok version req => exact settle _ _
  | fail now ok t commitTs entries => exact settle _ _
  | mark b => exact settle _ _
  | _ => exact fun e he => he

end Proc

/-! ## Readers keep their snapshots -/

theorem Peer.Moves.oracle_ok {a : PeerAction} {p q : Peer} (h : p.Moves xxhash sh a sh' q)
    (hok : sh.oracle.Ok) : sh'.oracle.Ok ∧ sh.oracle.appliedTs ≤ sh'.oracle.appliedTs := by
  cases h with
  | own a begun p sh' q h => exact h.oracle_ok hok
  | newTransactionAt readTs readOnly begun => exact ⟨hok, Nat.le_refl _⟩
  | bump commitTs begun t =>
    exact ⟨(@Oracle.raise_ok sh.oracle.toOracle (sh.oracle.toOracle.bump commitTs) hok rfl
      (Nat.le_max_left _ _) (max_le_max_right _ hok.le)).1, Nat.le_max_left _ _⟩
  | record commitTs begun t =>
    simp only [TxnOracle.recordCommitted_toOracle]
    exact ⟨hok, Nat.le_refl _⟩

/-- The version a goroutine has taken and not yet settled; `CommitAt` takes it with `Bump`. -/
def Peer.version (p : Peer) : Option Nat := p.bumped.or p.proc.version

def Peer.reader : Peer → Option Tx
  | ⟨_, .running t, none⟩ => some t
  | _ => none

def Settled (procs : List Peer) (ts : Nat) : Prop := ∀ p ∈ procs, ∀ v ∈ p.version, ts < v

instance (procs : List Peer) (ts : Nat) : Decidable (Settled procs ts) :=
  inferInstanceAs (Decidable (∀ p ∈ procs, ∀ v ∈ p.version, ts < v))

def PeerAction.snapshot (appliedTs : Nat) : PeerAction → Option Nat
  | .own (.start _) => some appliedTs
  | .newTransactionAt readTs _ => some readTs
  | _ => none

def PeerAction.bumps : PeerAction → Option Nat
  | .bump commitTs => some commitTs
  | _ => none

/-- A snapshot is taken above no pending version, and `Bump` goes above the snapshots in use. -/
def Respects (s : Peers) (a : Nat × PeerAction) : Prop :=
  (∀ ts ∈ a.2.snapshot s.shared.oracle.appliedTs,
    ts ≤ s.shared.oracle.appliedTs ∧ Settled s.procs ts) ∧
  ∀ commitTs ∈ a.2.bumps, ∀ p ∈ s.procs, ∀ t ∈ p.reader, t.readTs < commitTs

instance (s : Peers) (a : Nat × PeerAction) : Decidable (Respects s a) :=
  inferInstanceAs (Decidable (_ ∧ _))

structure Steady (sh : Shared) (procs : List Peer) : Prop where
  ok : sh.oracle.Ok
  plain : ∀ p ∈ procs, p.bumped.isSome = true → ∃ t, p.proc = .running t
  good : ∀ p ∈ procs, ∀ t ∈ p.reader, t.Good 0 sh
  above : ∀ p ∈ procs, ∀ t ∈ p.reader, Settled procs t.readTs
  filled : ∀ p ∈ procs, p.proc.Filled sh
  batches : ∀ e ∈ sh.batches, ∀ x ∈ e.1.entries, x.version = e.1.version ∧ x ∈ sh.log

theorem seen_append {log : List Entry} {x : Entry} {ts : Nat} (h : ts < x.version) :
    seen (log ++ [x]) ts = seen log ts := by
  simp [seen, Nat.not_le.mpr h]

variable {l r : List Peer} {p q : Peer}

theorem Steady.move (h : Steady sh (l ++ p :: r)) (hok : sh'.oracle.Ok)
    (happ : sh.oracle.appliedTs ≤ sh'.oracle.appliedTs)
    (hlog : sh'.log = sh.log ∨ ∃ x, p.version = some x.version ∧ sh'.log = sh.log ++ [x])
    (hb : ∀ e ∈ sh'.batches, e ∈ sh.batches ∨
      ∀ x ∈ e.1.entries, x.version = e.1.version ∧ x ∈ sh'.log)
    (hsub : ∀ e ∈ sh.batches, e ∈ sh'.batches)
    (hplain : q.bumped.isSome = true → ∃ t, q.proc = .running t)
    (hver : ∀ v ∈ q.version, ∀ x ∈ l ++ r, ∀ t ∈ x.reader, t.readTs < v)
    (hread : ∀ t ∈ q.reader, t.Good 0 sh' ∧ Settled (l ++ r) t.readTs ∧ q.version = none)
    (hfill : q.proc.Filled sh') : Steady sh' (l ++ q :: r) := by
  have hmem : ∀ x ∈ l ++ r, x ∈ l ++ p :: r := fun x hx => mem_middle.mpr (Or.inr hx)
  have hlogsub : ∀ x ∈ sh.log, x ∈ sh'.log := by
    rcases hlog with hlog | ⟨x, _, hlog⟩
    · exact fun x hx => hlog ▸ hx
    · exact fun y hy => hlog ▸ List.mem_append_left _ hy
  have hseen : ∀ x ∈ l ++ r, ∀ t ∈ x.reader, seen sh'.log t.readTs = seen sh.log t.readTs := by
    intro x hx t ht
    rcases hlog with hlog | ⟨y, hy, hlog⟩
    · rw [hlog]
    · rw [hlog]
      exact seen_append (h.above x (hmem x hx) t ht p (mem_middle.mpr (Or.inl rfl)) _ hy)
  refine ⟨hok, ?_, ?_, ?_, ?_, ?_⟩
  · exact Pool.forall_middle hplain fun x hx => h.plain x (hmem x hx)
  · refine Pool.forall_middle (fun t ht => (hread t ht).1) fun x hx t ht => ?_
    exact (h.good x (hmem x hx) t ht).mono happ (hseen x hx t ht)
  · refine Pool.forall_middle (fun t ht => ?_) fun x hx t ht => ?_
    · obtain ⟨_, hset, hnone⟩ := hread t ht
      refine Pool.forall_middle ?_ hset
      rw [hnone]
      exact fun v hv => absurd hv (by simp)
    · refine Pool.forall_middle (fun v hv => hver v hv x hx t ht) fun y hy => ?_
      exact h.above x (hmem x hx) t ht y (hmem y hy)
  · exact Pool.forall_middle hfill fun x hx => (h.filled x (hmem x hx)).mono hlogsub hsub
  · intro e he
    cases hb e he with
    | inl he => exact fun x hx => (h.batches e he x hx).imp_right (hlogsub x)
    | inr hall => exact hall

theorem Proc.Moves.reader {p q : Proc} {a : Action} {t : Tx} (h : p.Moves xxhash sh a sh' q)
    (hq : q = .running t) (hp : ∀ t, p = .running t → t.Good 0 sh) (hok : sh.oracle.Ok) :
    t.Good 0 sh' ∧ ((∃ readOnly, a = .start readOnly ∧ t.readTs = sh.oracle.appliedTs) ∨
      ∃ t', p = .running t' ∧ t'.readTs = t.readTs) := by
  cases h with
  | start readOnly =>
    cases hq
    have hts := Oracle.newReadTs_fst hok
    exact ⟨⟨Nat.zero_le _, Nat.le_of_eq hts, rfl, by simp [footprint]⟩, Or.inl ⟨_, rfl, hts⟩⟩
  | get key now t' =>
    cases hq
    refine ⟨(hp t' rfl).get now key, Or.inr ⟨t', rfl, ?_⟩⟩
    unfold Tx.get
    split <;> rfl
  | write key entry t' =>
    cases hq
    exact ⟨(hp t' rfl).write key entry, Or.inr ⟨t', rfl, rfl⟩⟩
  | doneRead =>
    exact ⟨(hp t hq).mono (Oracle.le_advanceApplied _) rfl, Or.inr ⟨t, hq, rfl⟩⟩
  | _ => cases hq

theorem steady_step {a : PeerAction} {i : Nat} (h : Steady sh (l ++ p :: r))
    (hok : Respects ⟨sh, l ++ p :: r⟩ (i, a)) (hm : p.Moves xxhash sh a sh' q) :
    Steady sh' (l ++ q :: r) := by
  have hmem : ∀ x ∈ l ++ r, x ∈ l ++ p :: r := fun x hx => mem_middle.mpr (Or.inr hx)
  have hhere : p ∈ l ++ p :: r := mem_middle.mpr (Or.inl rfl)
  have hle : ∀ x ∈ l ++ r, ∀ t ∈ x.reader, t.readTs ≤ sh.oracle.appliedTs := fun x hx t ht =>
    (h.good x (hmem x hx) t ht).le
  obtain ⟨hok', happ⟩ := hm.oracle_ok h.ok
  cases hm with
  | own a begun p sh' q hm =>
    have hfill := h.filled _ hhere
    refine h.move hok' happ ?_ (hm.batches hfill) hm.batches_subset (by simp) ?_ ?_ (hm.filled hfill)
    · refine hm.log.imp_right ?_
      rintro ⟨b, x, todo, rfl, rfl, hlog⟩
      refine ⟨x, ?_, hlog⟩
      rw [hfill.2 x List.mem_cons_self]
      rfl
    · intro v hv x hx t ht
      rcases hm.version with heq | hnone | hnew
      · exact h.above x (hmem x hx) t ht _ hhere v (by simpa [Peer.version, heq] using hv)
      · simp [Peer.version, hnone] at hv
      · have hv' : sh.oracle.nextTs + 1 = v := by simpa [Peer.version, hnew] using hv
        have := hle x hx t ht
        have := h.ok.le
        omega
    · intro t ht
      obtain ⟨rfl⟩ : q = .running t := by
        cases q with
        | running t' => exact congrArg Proc.running (Option.some.inj ht)
        | _ => cases ht
      have hgood : ∀ t, p = .running t → t.Good 0 sh := by
        rintro t rfl
        exact h.good _ hhere t rfl
      obtain ⟨hgood', hts⟩ := hm.reader rfl hgood h.ok
      refine ⟨hgood', ?_, rfl⟩
      rcases hts with ⟨readOnly, rfl, hts⟩ | ⟨t', rfl, hts⟩
      · rw [hts]
        exact fun x hx => (hok.1 _ rfl).2 x (hmem x hx)
      · rw [← hts]
        exact fun x hx => h.above _ hhere t' rfl x (hmem x hx)
  | newTransactionAt readTs readOnly begun =>
    obtain ⟨hts, hset⟩ := hok.1 _ rfl
    refine h.move hok' happ (Or.inl rfl) (fun e he => Or.inl he) (fun e he => he) (by simp)
      (by simp [Peer.version, Proc.version]) ?_ trivial
    intro t ht
    cases ht
    exact ⟨⟨Nat.zero_le _, hts, rfl, by simp [footprint]⟩, fun x hx => hset x (hmem x hx), rfl⟩
  | bump commitTs begun t =>
    refine h.move hok' happ (Or.inl rfl) (fun e he => Or.inl he) (fun e he => he)
      (fun _ => ⟨t, rfl⟩) ?_ (by simp [Peer.reader]) trivial
    intro v hv x hx t' ht'
    cases hv
    exact hok.2 _ rfl x (hmem x hx) t' ht'
  | record commitTs begun t =>
    have hver : (⟨begun, .running t, some commitTs⟩ : Peer).version = some commitTs := rfl
    refine h.move hok' happ (Or.inl rfl) (fun e he => Or.inl he) (fun e he => he) (by simp) ?_
      (by simp [Peer.reader]) trivial
    intro v hv x hx t' ht'
    cases hv
    exact h.above x (hmem x hx) t' ht' _ hhere commitTs hver

theorem init_steady (hn : 0 < n) (base : List Entry) (count : Nat) :
    Steady (Peers.init n base count).shared (Peers.init n base count).procs := by
  have hidle : ∀ p ∈ (Peers.init n base count).procs, p = ⟨true, .idle, none⟩ := fun p hp =>
    List.eq_of_mem_replicate hp
  refine ⟨⟨hn, Nat.le_refl _, by simp [Peers.init, init], by simp [Peers.init, init],
    by simp [Peers.init, init]⟩, ?_, ?_, ?_, ?_, by simp [Peers.init, init]⟩
  all_goals
    intro p hp
    rw [hidle p hp]
  · simp
  · simp [Peer.reader]
  · simp [Peer.reader]
  · trivial

def IssuedBy (s : Peers) (b : Batch) : Prop :=
  (∃ ok, (b, ok) ∈ s.shared.batches) ∨ ∃ p ∈ s.procs, p.proc.batch = some b

/-- Every reader keeps its snapshot, and the log has what was committed up to it. -/
theorem readers_keep_snapshots (xxhash : Bytes → UInt64) {base : List Entry} {count : Nat} (hn : 0 < n)
    {as : List (Nat × PeerAction)} {s : Peers}
    (hg : Guarded (Pool.step (Peer.step xxhash)) Respects (Peers.init n base count) as)
    (hr : run (Pool.step (Peer.step xxhash)) (Peers.init n base count) as = some s) :
    ∀ p ∈ s.procs, ∀ t ∈ p.reader,
      follows (fun key => entryAt s.shared.log key t.readTs) [] t.trace = some t.writes ∧
      Settled s.procs t.readTs ∧
      ∀ b, IssuedBy s b → b.version ≤ t.readTs → ∀ x ∈ b.entries, x ∈ seen s.shared.log t.readTs := by
  have h : Steady s.shared s.procs := by
    refine @run_invariant _ _ _ (fun s => Steady s.shared s.procs) _ ?_ _ _ _ (init_steady hn base count)
      hg hr
    intro s a s' h hok hs
    obtain ⟨l, p, r, q, _, hl, hq, hl'⟩ := Pool.step_split hs
    rw [hl']
    rw [hl] at h
    refine steady_step h (i := a.1) ?_ (Peer.moves_of_step hq)
    rw [← hl]
    exact hok
  intro p hp t ht
  refine ⟨(h.good p hp t ht).trace, h.above p hp t ht, ?_⟩
  intro b hb hle x hx
  have hlog : ∀ ok, (b, ok) ∈ s.shared.batches → x ∈ seen s.shared.log t.readTs := by
    intro ok hmem
    obtain ⟨hv, hin⟩ := h.batches _ hmem x hx
    simpa [seen, hv] using ⟨hin, hle⟩
  have hpending : ∀ q ∈ s.procs, q.version ≠ some b.version := fun q hq hv =>
    absurd (h.above p hp t ht q hq _ hv) (Nat.not_lt.mpr hle)
  rcases hb with ⟨ok, hmem⟩ | ⟨q, hq, hqb⟩
  · exact hlog ok hmem
  · have hfill := h.filled q hq
    have hplain := h.plain q hq
    have hnot := hpending q hq
    obtain ⟨begun, proc, bumped⟩ := q
    cases bumped with
    | some c =>
      obtain ⟨t', ht'⟩ := hplain rfl
      rw [ht'] at hqb
      cases hqb
    | none =>
      cases proc with
      | submitted t' c es =>
        cases hqb
        exact absurd rfl hnot
      | inserting b' todo =>
        cases hqb
        exact absurd rfl hnot
      | settled b' ok =>
        cases hqb
        exact hlog ok hfill
      | _ => cases hqb

end Txn
end AkwaDB
