import AkwaDB.Txn.Snapshot

/-!
# AkwaDB.Txn.History

What the oracle remembers of the transactions that were granted a commit.

A transaction is granted its commit by `CheckAndCommit`; the grant is taken back by `AbortCommit` if
the batch could not be applied. `Hist` relates the grants to the history: every commit of the history
is a grant, and every grant that a running or future transaction could conflict with is still in the
history, since trimming respects the watermark.

- `Hist.apart`: nothing that was granted between the snapshot and the commit of a transaction wrote a
  key that it read or wrote.
- `plain_write_conflict_iff`: the check fails exactly on grants. Plain writes take versions of the
  same oracle, but they are no grants.
-/

namespace AkwaDB
namespace Txn

variable {xxhash : Bytes → UInt64}

/-! ## Grants and open snapshots -/

def Proc.tx : Proc → Option Tx
  | .running t => some t
  | .checked t _ => some t
  | .submitted t _ _ => some t
  | .inserting b _ => b.owner
  | .settled b _ => b.owner
  | .ending t => some t
  | _ => none

/-- A transaction that has passed the check, with its commit timestamp. -/
def Proc.commit : Proc → Option (Tx × Nat)
  | .checked t commitTs => some (t, commitTs)
  | .submitted t commitTs _ => some (t, commitTs)
  | .inserting b _ => b.owner.map fun t => (t, b.version)
  | .settled b _ => b.owner.map fun t => (t, b.version)
  | _ => none

/-- The version a goroutine has or had for the request it has not answered yet. -/
def Proc.ticket : Proc → Option Nat
  | .settled b _ => some b.version
  | p => p.version

def Tx.keys (t : Tx) : List Bytes := t.writes.map Prod.fst

def snapshots (procs : List Proc) : List Nat := procs.filterMap fun p => p.tx.map Tx.readTs

def Applied (sh : Shared) (t : Tx) (c : Nat) : Prop :=
  ∃ entries, (⟨c, some t, entries⟩, true) ∈ sh.batches

def Granted (sh : Shared) (procs : List Proc) (t : Tx) (c : Nat) : Prop :=
  Applied sh t c ∨ ∃ p ∈ procs, p.commit = some (t, c)

def record (xxhash : Bytes → UInt64) (t : Tx) (c : Nat) : CommittedTxn :=
  ⟨c, TxnOracle.fingerprints xxhash t.keys⟩

structure Hist (xxhash : Bytes → UInt64) (sh : Shared) (procs : List Proc) : Prop where
  active : sh.oracle.watermark.active.Perm (snapshots procs)
  tickets : (procs.filterMap Proc.ticket).Nodup
  sound : ∀ h ∈ sh.oracle.history, ∃ t, Granted sh procs t h.commitTs ∧
    h = record xxhash t h.commitTs
  complete : ∀ t c, Granted sh procs t c → record xxhash t c ∈ sh.oracle.history ∨
    (c ≤ sh.oracle.appliedTs ∧ ∀ ts ∈ sh.oracle.watermark.active, c ≤ ts)
  apart : ∀ t c, Granted sh procs t c → t.readTs < c ∧
    ∀ t' c', Granted sh procs t' c' → t.readTs < c' → c' < c →
      ∀ key ∈ t'.keys, key ∉ t.readSet ∧ key ∉ t.keys

variable {n : Nat} {sh sh' : Shared} {l r : List Proc} {p q : Proc} {c : Nat} {t : Tx} {s : System}

theorem granted_middle : Granted sh (l ++ p :: r) t c ↔
    (Applied sh t c ∨ p.commit = some (t, c)) ∨ ∃ x ∈ l ++ r, x.commit = some (t, c) := by
  simp only [Granted, mem_middle, or_and_right, exists_or, exists_eq_left, or_assoc]

theorem granted_congr (hg : ∀ t c, Applied sh' t c ∨ q.commit = some (t, c) ↔
    Applied sh t c ∨ p.commit = some (t, c)) (t : Tx) (c : Nat) :
    Granted sh' (l ++ q :: r) t c ↔ Granted sh (l ++ p :: r) t c := by
  rw [granted_middle, granted_middle, hg]

theorem granted_new {o : TxnOracle} (hp : p.commit = none) (hq : q.commit = some (t, c)) (t' : Tx)
    (c' : Nat) :
    Granted { sh with oracle := o } (l ++ q :: r) t' c' ↔
      (t' = t ∧ c' = c) ∨ Granted sh (l ++ p :: r) t' c' := by
  rw [granted_middle, granted_middle, hp, hq]
  simp only [Option.some.injEq, Prod.mk.injEq, reduceCtorEq, or_false]
  constructor
  · rintro ((happ | ⟨rfl, rfl⟩) | hx)
    · exact Or.inr (Or.inl happ)
    · exact Or.inl ⟨rfl, rfl⟩
    · exact Or.inr (Or.inr hx)
  · rintro (⟨rfl, rfl⟩ | happ | hx)
    · exact Or.inl (Or.inr ⟨rfl, rfl⟩)
    · exact Or.inl (Or.inl happ)
    · exact Or.inr hx

theorem commit_ticket (h : p.commit = some (t, c)) : p.ticket = some c := by
  cases p with
  | checked t' c' => cases h; rfl
  | submitted t' c' es => cases h; rfl
  | inserting b todo =>
    obtain ⟨t', _, he⟩ := Option.map_eq_some_iff.mp h
    cases he
    rfl
  | settled b ok =>
    obtain ⟨t', _, he⟩ := Option.map_eq_some_iff.mp h
    cases he
    rfl
  | _ => cases h

theorem ticket_le (hi : Inv n sh (l ++ p :: r)) {x : Proc} (hx : x ∈ l ++ p :: r)
    (hc : x.ticket = some c) : c ≤ sh.oracle.nextTs := by
  have hfly : x.version = some c → c ≤ sh.oracle.nextTs := fun hv =>
    hi.le c (List.mem_filterMap.mpr ⟨x, hx, hv⟩)
  cases x with
  | settled b ok =>
    cases hc
    exact (hi.settled _ (hi.progress _ hx)).2.1
  | _ => exact hfly hc

theorem granted_le (hi : Inv n sh (l ++ p :: r)) (h : Granted sh (l ++ p :: r) t c) :
    c ≤ sh.oracle.nextTs := by
  rcases h with ⟨es, hmem⟩ | ⟨x, hx, hc⟩
  · exact (hi.settled _ hmem).2.1
  · exact ticket_le hi hx (commit_ticket hc)

/-! ## What one step does to them -/

theorem snapshots_congr (h : q.tx.map Tx.readTs = p.tx.map Tx.readTs) :
    snapshots (l ++ q :: r) = snapshots (l ++ p :: r) := filterMap_middle_congr h

theorem snapshots_middle (h : p.tx = some t) :
    (snapshots (l ++ p :: r)).Perm (t.readTs :: snapshots (l ++ r)) :=
  filterMap_middle_some (by rw [h]; rfl)

theorem snapshots_none (h : p.tx = none) : snapshots (l ++ p :: r) = snapshots (l ++ r) :=
  filterMap_middle_none (by rw [h]; rfl)

theorem tickets_keep (h : q.ticket = p.ticket ∨ q.ticket = none)
    (hnd : ((l ++ p :: r).filterMap Proc.ticket).Nodup) :
    ((l ++ q :: r).filterMap Proc.ticket).Nodup := by
  cases h with
  | inl h => rwa [filterMap_middle_congr h]
  | inr h =>
    simp only [List.filterMap_append, List.filterMap_cons, h] at hnd ⊢
    refine hnd.sublist (List.Sublist.append_left ?_ _)
    split
    · exact List.Sublist.refl _
    · exact List.sublist_cons_self _ _

theorem tickets_new (hi : Inv n sh (l ++ p :: r)) (hp : p.ticket = none)
    (hq : q.ticket = some (sh.oracle.nextTs + 1))
    (hnd : ((l ++ p :: r).filterMap Proc.ticket).Nodup) :
    ((l ++ q :: r).filterMap Proc.ticket).Nodup := by
  have hnew : sh.oracle.nextTs + 1 ∉ (l ++ r).filterMap Proc.ticket := by
    intro hm
    obtain ⟨x, hx, hc⟩ := List.mem_filterMap.mp hm
    have := ticket_le hi (mem_middle.mpr (Or.inr hx)) hc
    omega
  simp only [List.filterMap_append, List.filterMap_cons, hp, hq] at hnd hnew ⊢
  exact List.nodup_middle.mpr (List.nodup_cons.mpr ⟨hnew, hnd⟩)

theorem ticket_ne (hnd : ((l ++ p :: r).filterMap Proc.ticket).Nodup) (hp : p.ticket = some c)
    {x : Proc} (hx : x ∈ l ++ r) : x.ticket ≠ some c := by
  intro hxc
  simp only [List.filterMap_append, List.filterMap_cons, hp] at hnd
  have hnot := (List.nodup_cons.mp (List.nodup_middle.mp hnd)).1
  rw [← List.filterMap_append] at hnot
  exact hnot (List.mem_filterMap.mpr ⟨x, hx, hxc⟩)

theorem minReadTs_le_active {o : Oracle} (h : o.Ok) {ts : Nat} (hts : ts ∈ o.watermark.active) :
    o.minReadTs ≤ ts := by
  have hne : o.watermark.active ≠ [] := List.ne_nil_of_mem hts
  rw [Oracle.minReadTs, WaterMark.minReadTs, if_neg hne]
  exact h.mark.least ts hts

theorem mem_fingerprints {key : Bytes} {keys : List Bytes} (h : key ∈ keys) :
    xxhash key ∈ TxnOracle.fingerprints xxhash keys :=
  List.mem_dedup.mpr (List.mem_map_of_mem h)

theorem done_active (w : WaterMark) (readTs m : Nat) :
    (w.done readTs m).active = w.active.erase readTs := by
  unfold WaterMark.done
  split <;> simp [*]

theorem markApplied_watermark (o : Oracle) (ts : Nat) :
    (o.markApplied ts).watermark = o.watermark := by
  unfold Oracle.markApplied
  split <;> rfl

namespace Hist

theorem keep (h : Hist xxhash sh (l ++ p :: r)) (hhist : sh'.oracle.history = sh.oracle.history)
    (hact : sh'.oracle.watermark.active.Perm (snapshots (l ++ q :: r)))
    (hsub : ∀ ts ∈ sh'.oracle.watermark.active,
      ts ∈ sh.oracle.watermark.active ∨ ts = sh.oracle.appliedTs)
    (happ : sh.oracle.appliedTs ≤ sh'.oracle.appliedTs)
    (htick : ((l ++ q :: r).filterMap Proc.ticket).Nodup)
    (hg : ∀ t c, Applied sh' t c ∨ q.commit = some (t, c) ↔ Applied sh t c ∨ p.commit = some (t, c)) :
    Hist xxhash sh' (l ++ q :: r) := by
  have hgr := granted_congr (l := l) (r := r) hg
  refine ⟨hact, htick, ?_, ?_, ?_⟩
  · intro x hx
    obtain ⟨t, ht, hrec⟩ := h.sound x (hhist ▸ hx)
    exact ⟨t, (hgr t _).mpr ht, hrec⟩
  · intro t c hc
    rw [hhist]
    refine (h.complete t c ((hgr t c).mp hc)).imp_right fun hold => ?_
    refine ⟨Nat.le_trans hold.1 happ, fun ts hts => ?_⟩
    cases hsub ts hts with
    | inl hts => exact hold.2 ts hts
    | inr heq => exact heq ▸ hold.1
  · intro t c hc
    obtain ⟨hlt, hap⟩ := h.apart t c ((hgr t c).mp hc)
    exact ⟨hlt, fun t' c' hc' => hap t' c' ((hgr t' c').mp hc')⟩

variable {t : Tx}

theorem grant {o : TxnOracle} {c : Nat} (h : Hist xxhash sh (l ++ .running t :: r))
    (hi : Inv n sh (l ++ .running t :: r))
    (hc : sh.oracle.checkAndCommit xxhash t.readTs t.readSet t.keys = some (c, o)) :
    Hist xxhash { sh with oracle := o } (l ++ .checked t c :: r) := by
  obtain ⟨rfl, ho, _, hno, hkeep, hnew⟩ := TxnOracle.checkAndCommitInternal_some hi.indexed hc
  have happ : o.appliedTs = sh.oracle.appliedTs := by rw [ho]; rfl
  have hmark : o.watermark = sh.oracle.watermark := by rw [ho]; rfl
  have hmin := WaterMark.minReadTs_le hi.ok.mark
  have hopen : t.readTs ∈ sh.oracle.watermark.active :=
    (h.active.trans (snapshots_middle rfl)).mem_iff.mpr List.mem_cons_self
  have hlt : t.readTs < sh.oracle.nextTs + 1 :=
    Nat.lt_succ_of_le (Nat.le_trans (hi.ok.mark.le _ hopen) hi.ok.le)
  have hgr : ∀ t' c', Granted { sh with oracle := o } (l ++ .checked t (sh.oracle.nextTs + 1) :: r) t' c' ↔
      (t' = t ∧ c' = sh.oracle.nextTs + 1) ∨ Granted sh (l ++ .running t :: r) t' c' :=
    granted_new rfl rfl
  refine ⟨?_, tickets_new hi rfl rfl h.tickets, ?_, ?_, ?_⟩
  · rw [hmark]
    exact h.active.trans (List.Perm.of_eq (snapshots_congr rfl))
  · intro x hx
    cases hnew x hx with
    | inl hx =>
      obtain ⟨t', ht', hrec⟩ := h.sound x hx
      exact ⟨t', (hgr t' _).mpr (Or.inr ht'), hrec⟩
    | inr heq => exact ⟨t, (hgr t _).mpr (Or.inl ⟨rfl, by rw [heq]⟩), by rw [heq]; rfl⟩
  · intro t' c' hc'
    simp only [happ, hmark]
    cases (hgr t' c').mp hc' with
    | inl heq =>
      obtain ⟨rfl, rfl⟩ := heq
      refine Or.inl (hkeep _ (Or.inr rfl) ?_)
      exact Nat.le_trans hmin (Nat.le_succ_of_le hi.ok.le)
    | inr hold =>
      cases h.complete t' c' hold with
      | inr hout => exact Or.inr hout
      | inl hin =>
        by_cases hle : sh.oracle.minReadTs ≤ c'
        · exact Or.inl (hkeep _ (Or.inl hin) hle)
        · -- trimmed: older than every open snapshot
          have hlt' : c' ≤ sh.oracle.minReadTs := Nat.le_of_not_le hle
          exact Or.inr ⟨Nat.le_trans hlt' hmin,
            fun ts hts => Nat.le_trans hlt' (minReadTs_le_active hi.ok hts)⟩
  · intro t₁ c₁ h₁
    cases (hgr t₁ c₁).mp h₁ with
    | inl heq =>
      obtain ⟨rfl, rfl⟩ := heq
      refine ⟨hlt, fun t' c' h' hrc hcc key hkey => ?_⟩
      cases (hgr t' c').mp h' with
      | inl heq => exact absurd heq.2 (Nat.ne_of_lt hcc)
      | inr hold =>
        cases h.complete t' c' hold with
        | inr hout => exact absurd (hout.2 _ hopen) (Nat.not_le.mpr hrc)
        | inl hin =>
          obtain ⟨hr, hw⟩ := hno _ hin hrc _ (mem_fingerprints hkey)
          exact ⟨fun hm => hr (mem_fingerprints hm), fun hm => hw (mem_fingerprints hm)⟩
    | inr hold =>
      obtain ⟨hlt₁, hap⟩ := h.apart t₁ c₁ hold
      refine ⟨hlt₁, fun t' c' h' hrc hcc => ?_⟩
      cases (hgr t' c').mp h' with
      | inl heq =>
        have := granted_le hi hold
        omega
      | inr hold' => exact hap t' c' hold' hrc hcc

theorem abort {c : Nat} {es : List Entry}
    (h : Hist xxhash sh (l ++ .settled ⟨c, some t, es⟩ false :: r))
    (hi : Inv n sh (l ++ .settled ⟨c, some t, es⟩ false :: r)) :
    Hist xxhash { sh with oracle := sh.oracle.abortCommit c } (l ++ .ending t :: r) := by
  obtain ⟨ho, _, hmem⟩ := TxnOracle.abortCommit_spec hi.indexed c
  have happ : sh.oracle.appliedTs ≤ (sh.oracle.abortCommit c).appliedTs := by
    rw [ho]
    exact Oracle.le_advanceApplied
      { sh.oracle.toOracle with awaiting := sh.oracle.awaiting.filter (· ≠ c) }
  have hmark : (sh.oracle.abortCommit c).watermark = sh.oracle.watermark := by rw [ho]; rfl
  have hfail : ((⟨c, some t, es⟩, false) : Batch × Bool) ∈ sh.batches :=
    hi.progress (.settled ⟨c, some t, es⟩ false) (mem_middle.mpr (Or.inl rfl))
  have hgr : ∀ t' c', Granted { sh with oracle := sh.oracle.abortCommit c } (l ++ .ending t :: r) t' c' ↔
      c' ≠ c ∧ Granted sh (l ++ .settled ⟨c, some t, es⟩ false :: r) t' c' := by
    intro t' c'
    rw [granted_middle, granted_middle]
    simp only [Proc.commit, reduceCtorEq, or_false, Option.map_some, Option.some.injEq, Prod.mk.injEq]
    constructor
    · rintro (⟨es', hb⟩ | ⟨x, hx, hxc⟩)
      · refine ⟨?_, Or.inl (Or.inl ⟨es', hb⟩)⟩
        rintro rfl
        have := List.inj_on_of_nodup_map hi.once hb hfail rfl
        cases this
      · refine ⟨?_, Or.inr ⟨x, hx, hxc⟩⟩
        rintro rfl
        exact ticket_ne h.tickets rfl hx (commit_ticket hxc)
    · rintro ⟨hne, (happ | ⟨_, rfl⟩) | hx⟩
      · exact Or.inl happ
      · exact absurd rfl hne
      · exact Or.inr hx
  refine ⟨?_, tickets_keep (Or.inr rfl) h.tickets, ?_, ?_, ?_⟩
  · rw [hmark]
    exact h.active.trans (List.Perm.of_eq (snapshots_congr rfl))
  · intro x hx
    obtain ⟨hx, hne⟩ := (hmem x).mp hx
    obtain ⟨t', ht', hrec⟩ := h.sound x hx
    exact ⟨t', (hgr t' _).mpr ⟨hne, ht'⟩, hrec⟩
  · intro t' c' hc'
    obtain ⟨hne, hc'⟩ := (hgr t' c').mp hc'
    simp only [hmark]
    cases h.complete t' c' hc' with
    | inl hin => exact Or.inl ((hmem _).mpr ⟨hin, hne⟩)
    | inr hout => exact Or.inr ⟨Nat.le_trans hout.1 happ, hout.2⟩
  · intro t₁ c₁ h₁
    obtain ⟨hlt, hap⟩ := h.apart t₁ c₁ ((hgr t₁ c₁).mp h₁).2
    exact ⟨hlt, fun t' c' h' => hap t' c' ((hgr t' c').mp h').2⟩

section
variable (h : Hist xxhash sh (l ++ p :: r))
include h

theorem same (hhist : sh'.oracle.history = sh.oracle.history)
    (hmark : sh'.oracle.watermark = sh.oracle.watermark)
    (happ : sh.oracle.appliedTs ≤ sh'.oracle.appliedTs)
    (htx : q.tx.map Tx.readTs = p.tx.map Tx.readTs) (htick : q.ticket = p.ticket ∨ q.ticket = none)
    (hg : ∀ t c, Applied sh' t c ∨ q.commit = some (t, c) ↔ Applied sh t c ∨ p.commit = some (t, c)) :
    Hist xxhash sh' (l ++ q :: r) := by
  refine h.keep hhist ?_ (fun ts hts => Or.inl (hmark ▸ hts)) happ (tickets_keep htick h.tickets) hg
  rw [hmark]
  exact h.active.trans (List.Perm.of_eq (snapshots_congr htx.symm))

theorem stay (htx : q.tx.map Tx.readTs = p.tx.map Tx.readTs) (htick : q.ticket = p.ticket)
    (hc : q.commit = p.commit) : Hist xxhash sh (l ++ q :: r) :=
  h.same rfl rfl (Nat.le_refl _) htx (Or.inl htick) (fun t c => by rw [hc])

theorem close (hp : p.tx = some t) (hq : q.tx = none)
    (hhist : sh'.oracle.history = sh.oracle.history)
    (ho : sh'.oracle.toOracle = sh.oracle.toOracle.done t.readTs) (htick : q.ticket = none)
    (hg : ∀ t c, Applied sh' t c ∨ q.commit = some (t, c) ↔ Applied sh t c ∨ p.commit = some (t, c)) :
    Hist xxhash sh' (l ++ q :: r) := by
  have hact : sh'.oracle.watermark.active = sh.oracle.watermark.active.erase t.readTs := by
    rw [ho]
    exact done_active _ _ _
  have happ : sh'.oracle.appliedTs = sh.oracle.appliedTs := by rw [ho]; rfl
  refine h.keep hhist ?_ ?_ (Nat.le_of_eq happ.symm) (tickets_keep (Or.inr htick) h.tickets) hg
  · have hperm := (h.active.trans (snapshots_middle hp)).erase t.readTs
    rwa [List.erase_cons_head, ← hact, ← snapshots_none hq] at hperm
  · intro ts hts
    rw [hact] at hts
    exact Or.inl (List.mem_of_mem_erase hts)

theorem settle {b : Batch} {ok : Bool} (hp : p.ticket = some b.version) (htx : p.tx = b.owner)
    (hcommit : p.commit = b.owner.map fun t => (t, b.version)) :
    Hist xxhash (sh.settle b ok).1 (l ++ .settled b ok :: r) := by
  refine h.same rfl (markApplied_watermark _ _) (Oracle.le_markApplied _) ?_
    (Or.inl hp.symm) ?_
  · rw [htx]
    rfl
  · intro t c
    rw [hcommit]
    simp only [Applied, Shared.settle, List.mem_append, List.mem_singleton, exists_or, Proc.commit,
      or_assoc]
    refine or_congr_right ⟨?_, Or.inr⟩
    rintro (⟨es, he⟩ | hc)
    · cases he
      rfl
    · exact hc

end

end Hist

theorem step_hist {a : Action} (h : Hist xxhash sh (l ++ p :: r)) (hi : Inv n sh (l ++ p :: r))
    (hs : p.step xxhash sh a = some (sh', q)) : Hist xxhash sh' (l ++ q :: r) := by
  have happ := (step_advance hi hs).applied
  cases Proc.moves_of_step hs with
  | start readOnly =>
    have hts := Oracle.newReadTs_fst hi.ok
    refine h.keep rfl ?_ ?_ (Nat.le_refl _)
      (tickets_keep (p := .idle) (Or.inl rfl) h.tickets) (fun _ _ => Iff.rfl)
    · have hmid := snapshots_middle (l := l) (r := r) (p := .running
        ⟨readOnly, sh.oracle.toOracle.newReadTs.1, [], [], []⟩) rfl
      refine List.Perm.trans (List.Perm.cons _ ?_) hmid.symm
      exact h.active.trans (List.Perm.of_eq (snapshots_none rfl))
    · intro ts hmem
      cases List.mem_cons.mp hmem with
      | inl heq => exact Or.inr (heq.trans hts)
      | inr hmem => exact Or.inl hmem
  | get key now t =>
    refine h.stay ?_ rfl rfl
    simp only [Proc.tx, Option.map_some, Tx.get]
    split <;> rfl
  | write key entry t => exact h.stay rfl rfl rfl
  | finish t => exact h.close rfl rfl rfl rfl rfl (fun _ _ => Iff.rfl)
  | conflict t => exact h.stay rfl rfl rfl
  | grant t commitTs o hcheck => exact h.grant hi hcheck
  | reserve t commitTs => exact h.same rfl rfl happ rfl (Or.inl rfl) (fun _ _ => Iff.rfl)
  | submit t commitTs entries _ => exact h.stay rfl rfl rfl
  | refuse t commitTs => exact h.settle rfl rfl rfl
  | request req => exact h.stay rfl rfl rfl
  | refusePlain req => exact h.stay rfl rfl rfl
  | assign req =>
    refine h.keep rfl ?_ (fun ts hts => Or.inl hts) happ (tickets_new hi rfl rfl h.tickets)
      (fun _ _ => Iff.rfl)
    exact h.active.trans (List.Perm.of_eq (snapshots_congr rfl))
  | appendPlain now ok version req writes => exact h.stay rfl rfl rfl
  | failPlain now ok version req => exact h.settle rfl rfl rfl
  | append now ok t commitTs entries => exact h.stay rfl rfl rfl
  | fail now ok t commitTs entries => exact h.settle rfl rfl rfl
  | insert b x todo => exact h.same rfl rfl happ rfl (Or.inl rfl) (fun _ _ => Iff.rfl)
  | mark b => exact h.settle rfl rfl rfl
  | replyPlain synced version entries ok =>
    exact h.same rfl rfl happ rfl (Or.inr rfl) (fun _ _ => Iff.rfl)
  | reply synced version t entries =>
    -- the grant lives on as an applied batch
    have happlied : Applied sh t version :=
      ⟨entries, hi.progress (.settled ⟨version, some t, entries⟩ true) (mem_middle.mpr (Or.inl rfl))⟩
    refine h.close rfl rfl rfl rfl rfl fun t' c' => ?_
    simp only [Proc.commit, reduceCtorEq, or_false, Option.map_some, Option.some.injEq,
      Prod.mk.injEq]
    refine ⟨Or.inl, ?_⟩
    rintro (hg | ⟨rfl, rfl⟩)
    · exact hg
    · exact happlied
  | abort synced version t entries => exact h.abort hi
  | done t => exact h.close rfl rfl rfl rfl rfl (fun _ _ => Iff.rfl)
  | doneRead => exact h.same rfl rfl happ rfl (Or.inl rfl) (fun _ _ => Iff.rfl)

theorem init_hist (n : Nat) (base : List Entry) (count : Nat) :
    Hist xxhash (init n base count).shared (init n base count).procs := by
  have hidle : ∀ p ∈ (init n base count).procs, p = .idle := fun p hp => List.eq_of_mem_replicate hp
  have hnone : ∀ t c, ¬ Granted (init n base count).shared (init n base count).procs t c := by
    rintro t c (⟨es, hmem⟩ | ⟨p, hp, hc⟩)
    · cases hmem
    · rw [hidle p hp] at hc
      cases hc
  refine ⟨?_, ?_, fun h hh => absurd hh List.not_mem_nil, fun t c hc => absurd hc (hnone t c),
    fun t c hc => absurd hc (hnone t c)⟩
  · have hsnap : snapshots (init n base count).procs = [] := by
      rw [snapshots, List.filterMap_eq_nil_iff]
      intro p hp
      rw [hidle p hp]
      rfl
    rw [hsnap]
    exact List.Perm.refl _
  · have htick : (init n base count).procs.filterMap Proc.ticket = [] := by
      rw [List.filterMap_eq_nil_iff]
      intro p hp
      rw [hidle p hp]
      rfl
    rw [htick]
    exact List.nodup_nil

theorem reachable_hist {base : List Entry} {count : Nat} {as : List (Nat × Action)} (hn : 0 < n)
    (hb : ∀ x ∈ base, x.version ≤ n) (hr : run (step xxhash) (init n base count) as = some s) :
    Inv n s.shared s.procs ∧ Hist xxhash s.shared s.procs := by
  refine @run_invariant _ _ _ (fun s => Inv n s.shared s.procs ∧ Hist xxhash s.shared s.procs)
    (fun _ _ => True) ?_ _ _ _ ⟨init_inv hn hb count, init_hist n base count⟩
    (guarded_of_forall (fun _ _ _ => trivial) _) hr
  intro s a s' hi _ hstep
  obtain ⟨l, p, r, q, hprocs, hq, hprocs'⟩ := step_split hstep
  rw [hprocs] at hi
  rw [hprocs']
  exact ⟨(step_advance hi.1 hq).inv, step_hist hi.2 hi.1 hq⟩

/-! ## What the check catches -/

/-- A transaction granted after the snapshot of `t` wrote a fingerprint that `t` read or writes. -/
def Rival (xxhash : Bytes → UInt64) (s : System) (t : Tx) : Prop :=
  ∃ t' c, Granted s.shared s.procs t' c ∧ t.readTs < c ∧
    ∃ key ∈ t'.keys, ∃ own ∈ t.readSet ++ t.keys, xxhash key = xxhash own

theorem mem_fingerprints_iff {fp : UInt64} {keys : List Bytes} :
    fp ∈ TxnOracle.fingerprints xxhash keys ↔ ∃ key ∈ keys, xxhash key = fp := by
  simp [TxnOracle.fingerprints]

theorem checkAndCommit_eq_none (hi : Inv n s.shared s.procs) (h : Hist xxhash s.shared s.procs)
    (ht : .running t ∈ s.procs) :
    s.shared.oracle.checkAndCommit xxhash t.readTs t.readSet t.keys = none ↔ Rival xxhash s t := by
  have hopen : t.readTs ∈ s.shared.oracle.watermark.active :=
    h.active.mem_iff.mpr (List.mem_filterMap.mpr ⟨_, ht, rfl⟩)
  have hnone : s.shared.oracle.checkAndCommit xxhash t.readTs t.readSet t.keys = none ↔
      ∃ c ∈ s.shared.oracle.history, t.readTs < c.commitTs ∧
        ∃ own ∈ t.readSet ++ t.keys, xxhash own ∈ c.writes := by
    rw [TxnOracle.checkAndCommit, TxnOracle.checkAndCommitInternal]
    simp only [ite_eq_left_iff, reduceCtorEq, imp_false, not_not, Bool.or_eq_true,
      TxnOracle.conflicts_iff hi.indexed, mem_fingerprints_iff, List.mem_append]
    constructor
    · rintro (⟨c, hc, hlt, fp, ⟨own, hown, rfl⟩, hw⟩ | ⟨c, hc, hlt, fp, ⟨own, hown, rfl⟩, hw⟩)
      · exact ⟨c, hc, hlt, own, Or.inl hown, hw⟩
      · exact ⟨c, hc, hlt, own, Or.inr hown, hw⟩
    · rintro ⟨c, hc, hlt, own, hown | hown, hw⟩
      · exact Or.inl ⟨c, hc, hlt, _, ⟨own, hown, rfl⟩, hw⟩
      · exact Or.inr ⟨c, hc, hlt, _, ⟨own, hown, rfl⟩, hw⟩
  rw [hnone]
  constructor
  · rintro ⟨c, hc, hlt, own, hown, hw⟩
    obtain ⟨t', ht', hrec⟩ := h.sound c hc
    rw [hrec] at hw
    obtain ⟨key, hkey, heq⟩ := mem_fingerprints_iff.mp hw
    exact ⟨t', c.commitTs, ht', hlt, key, hkey, own, hown, heq⟩
  · rintro ⟨t', c, hgr, hlt, key, hkey, own, hown, heq⟩
    cases h.complete t' c hgr with
    | inl hin => exact ⟨_, hin, hlt, own, hown, heq ▸ mem_fingerprints hkey⟩
    | inr hout => exact absurd (hout.2 _ hopen) (Nat.not_le.mpr hlt)

def PlainWrite (s : System) (key : Bytes) (v : Nat) : Prop :=
  ∃ b, (b, true) ∈ s.shared.batches ∧ b.owner = none ∧ b.version = v ∧ ∃ x ∈ b.entries, x.key = key

/-- Goroutine `i` calls `CheckAndCommit` and gets a conflict. -/
def Conflicts (xxhash : Bytes → UInt64) (s : System) (i : Nat) (t : Tx) : Prop :=
  ∃ s', step xxhash s (i, .check) = some s' ∧ s'.procs[i]? = some (.ending t)

theorem conflicts_iff_rival (hi : Inv n s.shared s.procs) (h : Hist xxhash s.shared s.procs)
    {i : Nat} (ht : s.procs[i]? = some (.running t)) (hw : t.readOnly = false)
    (hne : t.writes ≠ []) : Conflicts xxhash s i t ↔ Rival xxhash s t := by
  have hlt : i < s.procs.length := (List.getElem?_eq_some_iff.mp ht).1
  rw [← checkAndCommit_eq_none hi h (List.mem_of_getElem? ht)]
  cases hc : s.shared.oracle.checkAndCommit xxhash t.readTs t.readSet t.keys with
  | none =>
    refine ⟨fun _ => rfl, fun _ => ⟨⟨s.shared, s.procs.set i (.ending t)⟩, ?_, ?_⟩⟩
    · have hc' : s.shared.oracle.checkAndCommit xxhash t.readTs t.readSet (t.writes.map Prod.fst) =
        none := hc
      simp [step, ht, Proc.step, hw, hne, hc']
    · simp [hlt]
  | some r =>
    obtain ⟨c, o⟩ := r
    refine ⟨?_, fun hx => absurd hx (Option.some_ne_none _)⟩
    rintro ⟨s', hs', hp⟩
    have hc' : s.shared.oracle.checkAndCommit xxhash t.readTs t.readSet (t.writes.map Prod.fst) =
      some (c, o) := hc
    simp [step, ht, Proc.step, hw, hne, hc'] at hs'
    subst hs'
    simp [hlt] at hp

/-- **Plain writes are not what the check catches.** -/
theorem plain_write_conflict_iff {s : System} {base : List Entry} {count i : Nat} {t : Tx}
    {as : List (Nat × Action)} (hn : 0 < n) (hb : ∀ x ∈ base, x.version ≤ n)
    (hr : run (step xxhash) (init n base count) as = some s)
    (ht : s.procs[i]? = some (.running t)) (hw : t.readOnly = false) (hne : t.writes ≠ []) :
    (∀ key ∈ t.readSet, ∀ v, t.readTs < v → PlainWrite s key v → Conflicts xxhash s i t) ↔
      ∀ key ∈ t.readSet, ∀ v, t.readTs < v → PlainWrite s key v → Rival xxhash s t := by
  obtain ⟨hi, h⟩ := reachable_hist hn hb hr
  rw [conflicts_iff_rival hi h ht hw hne]

def readThenSet (i : Nat) (key : Bytes) : List (Nat × Action) :=
  [(i, .start false), (i, .get key 0), (i, .write key ⟨[9], 0, false⟩)]

def twoUpdates : List (Nat × Action) :=
  readThenSet 0 [97] ++ readThenSet 1 [97] ++ [(1, .check)]

theorem plain_write_conflict_rival :
    ∃ s t, run (step fun _ => 0) (init 1 [] 2) twoUpdates = some s ∧
      s.procs[0]? = some (.running t) ∧
      ∀ key ∈ t.readSet, ∀ v, t.readTs < v → PlainWrite s key v → Conflicts (fun _ => 0) s 0 t := by
  obtain ⟨s, t, hr, ht, hw, hne, hrival⟩ : ∃ s t,
      run (step fun _ => 0) (init 1 [] 2) twoUpdates = some s ∧ s.procs[0]? = some (.running t) ∧
      t.readOnly = false ∧ t.writes ≠ [] ∧ Rival (fun _ => 0) s t := by
    refine ⟨_, _, rfl, rfl, rfl, by decide, ?_⟩
    exact ⟨_, 2, Or.inr ⟨_, List.mem_cons_of_mem _ List.mem_cons_self, rfl⟩, by decide, [97], by decide,
      [97], by decide, rfl⟩
  refine ⟨s, t, hr, ht, (plain_write_conflict_iff (by decide) (by simp) hr ht hw hne).mpr ?_⟩
  exact fun _ _ _ _ _ => hrival

/-- An `Update` reads a key, a plain write sets it, and the `Update` sets it too. -/
def overwritten : List (Nat × Action) :=
  readThenSet 0 [97] ++ writes 1 (.put [97] [1] 0) 1 ++ [(1, .reply true), (0, .check)]

theorem plain_write_no_conflict :
    ∃ s s' t, run (step fun _ => 0) (init 1 [] 2) overwritten = some s ∧
      s.procs[0]? = some (.checked t 3) ∧ t.readTs = 1 ∧ [97] ∈ t.readSet ∧ 2 ∈ s.shared.acked ∧
      run (step fun _ => 0) s [(0, .reserve), (0, .submit (stamp 3 t.writes)), (0, .append 0 true),
        (0, .insert), (0, .mark), (0, .reply true)] = some s' ∧ 3 ∈ s'.shared.acked ∧
      getByVersion s'.shared.log 0 [97] s'.shared.oracle.toOracle.newReadTs.1 = some [9] :=
  ⟨_, _, _, rfl, rfl, rfl, by decide, by decide, rfl, by decide, by decide⟩

end Txn
end AkwaDB
