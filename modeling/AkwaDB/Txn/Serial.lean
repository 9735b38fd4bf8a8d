import AkwaDB.Txn.History

/-!
# AkwaDB.Txn.Serial

Update transactions are serializable in the order of their commit timestamps.

A transaction is replayed on a state by running its events again: every read must return what it
returned, and its writes must come out the same (`follows`). Its results depend on the state only
through the keys it read from it (`follows_congr`), and these are in its read set. Since nothing was
granted in between that writes one of them, the state at its snapshot may be replaced by the state
its predecessors left.

- `serializable`: replaying the committed transactions one after another, in commit order, repeats
  every read; a transaction that is still running reads the state left by the commits up to its
  snapshot.
-/

namespace AkwaDB
namespace Txn

variable {xxhash : Bytes → UInt64}

/-! ## Running the events of a transaction on a state -/

/-- What a read returns in a transaction with the given writes. -/
def readBack (st : Bytes → Option Entry) (writes : List (Bytes × TxEntry)) (now : Int) (key : Bytes) :
    Option Bytes :=
  match writes.lookup key with
  | some e => if e.deleted then none else some e.value
  | none => (st key).bind (Entry.answer now)

/-- The writes after the events, if every read returns what it is said to. -/
def follows (st : Bytes → Option Entry) :
    List (Bytes × TxEntry) → List Event → Option (List (Bytes × TxEntry))
  | writes, [] => some writes
  | writes, .write key entry :: es => follows st (assign writes key entry) es
  | writes, .get key now result :: es =>
    if result = readBack st writes now key then follows st writes es else none

def footprint : List (Bytes × TxEntry) → List Event → List Bytes
  | _, [] => []
  | writes, .write key entry :: es => footprint (assign writes key entry) es
  | writes, .get key _ _ :: es =>
    if (writes.lookup key).isSome then footprint writes es else key :: footprint writes es

variable {st st' : Bytes → Option Entry} {ws ws' : List (Bytes × TxEntry)} {es fs : List Event}

theorem follows_congr (h : ∀ key ∈ footprint ws es, st key = st' key) :
    follows st ws es = follows st' ws es := by
  induction es generalizing ws with
  | nil => rfl
  | cons e es ih =>
    cases e with
    | write key entry => exact ih h
    | get key now result =>
      simp only [footprint] at h
      have hrest : ∀ k ∈ footprint ws es, st k = st' k := by
        intro k hk
        refine h k ?_
        split
        · exact hk
        · exact List.mem_cons_of_mem _ hk
      have hread : readBack st ws now key = readBack st' ws now key := by
        unfold readBack
        cases hl : ws.lookup key with
        | some e => rfl
        | none => rw [h key (by simp [hl])]
      rw [follows, follows, hread, ih hrest]

theorem follows_append : follows st ws (es ++ fs) = (follows st ws es).bind fun ws' =>
    follows st ws' fs := by
  induction es generalizing ws with
  | nil => rfl
  | cons e es ih =>
    cases e with
    | write key entry => exact ih
    | get key now result =>
      simp only [List.cons_append, follows]
      split
      · exact ih
      · rfl

theorem footprint_append (h : follows st ws es = some ws') :
    footprint ws (es ++ fs) = footprint ws es ++ footprint ws' fs := by
  induction es generalizing ws with
  | nil =>
    cases h
    rfl
  | cons e es ih =>
    cases e with
    | write key entry => exact ih h
    | get key now result =>
      simp only [follows] at h
      split at h
      · simp only [List.cons_append, footprint]
        split
        · exact ih h
        · rw [ih h, List.cons_append]
      · cases h

theorem assign_nodup (key : Bytes) (entry : TxEntry) (h : (ws.map Prod.fst).Nodup) :
    ((assign ws key entry).map Prod.fst).Nodup := by
  simp only [assign, List.map_cons, List.nodup_cons]
  refine ⟨?_, h.sublist (List.filter_sublist.map _)⟩
  intro hm
  obtain ⟨w, hw, rfl⟩ := List.mem_map.mp hm
  have := (List.mem_filter.mp hw).2
  simp at this

theorem follows_nodup (h : follows st ws es = some ws') (hn : (ws.map Prod.fst).Nodup) :
    (ws'.map Prod.fst).Nodup := by
  induction es generalizing ws with
  | nil =>
    cases h
    exact hn
  | cons e es ih =>
    cases e with
    | write key entry => exact ih h (assign_nodup key entry hn)
    | get key now result =>
      simp only [follows] at h
      split at h
      · exact ih h hn
      · cases h

def latest (log : List Entry) : Bytes → Option Entry := fun key =>
  newest Entry.version (Entry.hits key fun _ => true) log

def after (st : Bytes → Option Entry) (t : Tx) (c : Nat) : Bytes → Option Entry := fun key =>
  ((stamp c t.writes).find? fun x => decide (x.key = key)).or (st key)

/-- One at a time, each on the state the one before left, they repeat what they read and wrote. -/
def Serial (st : Bytes → Option Entry) : List (Tx × Nat) → Prop
  | [] => True
  | (t, c) :: rest => follows st [] t.trace = some t.writes ∧ Serial (after st t c) rest

def committed (s : System) : List (Tx × Nat) :=
  s.shared.batches.filterMap fun e => if e.2 then e.1.owner.map fun t => (t, e.1.version) else none

def inCommitOrder (s : System) : List (Tx × Nat) :=
  (committed s).insertionSort fun a b => a.2 ≤ b.2

def written (ts : List (Tx × Nat)) : List Entry := ts.flatMap fun t => stamp t.2 t.1.writes

theorem after_latest {log : List Entry} {t : Tx} {c : Nat} (h : ∀ x ∈ log, x.version < c) :
    after (latest log) t c = latest (log ++ stamp c t.writes) := by
  funext key
  have hstamp : ∀ x ∈ stamp c t.writes, x.version = c := by
    intro x hx
    obtain ⟨w, _, rfl⟩ := List.mem_map.mp hx
    rfl
  have hfind : (stamp c t.writes).find? (fun x => decide (x.key = key)) =
      newest Entry.version (Entry.hits key fun _ => true) (stamp c t.writes) := by
    rw [newest_eq_find]
    · congr 1
      funext x
      simp [Entry.hits]
    · refine List.pairwise_of_forall_mem_list fun x hx y hy _ _ => ?_
      rw [hstamp x hx, hstamp y hy]
  rw [after, hfind, latest, latest, newest_append_of_lt]
  intro x hx y hy _ _
  rw [hstamp y hy]
  exact h x hx

/-! ## What the running and the committed transactions have read -/

/-- The transaction has read its snapshot, and its read set says where. -/
structure Tx.Good (n : Nat) (sh : Shared) (t : Tx) : Prop where
  start : n ≤ t.readTs
  le : t.readTs ≤ sh.oracle.appliedTs
  trace : follows (fun key => entryAt sh.log key t.readTs) [] t.trace = some t.writes
  covered : ∀ key ∈ footprint [] t.trace, key ∈ t.readSet

/-- Goroutines of transactions, with the entries their writes call for. -/
def Proc.Sound : Proc → Prop
  | .queued _ => False
  | .assigned _ _ => False
  | .submitted t commitTs entries => entries.Perm (stamp commitTs t.writes)
  | .inserting b _ => ∃ t, b.owner = some t ∧ b.entries.Perm (stamp b.version t.writes)
  | .settled b _ => b.owner.isSome = true
  | _ => True

structure Data (n : Nat) (base : List Entry) (sh : Shared) (procs : List Proc) : Prop where
  log : ∃ rest, sh.log = base ++ rest ∧ ∀ x ∈ rest, n < x.version
  txs : ∀ p ∈ procs, ∀ t, p.tx = some t → t.Good n sh
  sound : ∀ p ∈ procs, p.Sound
  batches : ∀ e ∈ sh.batches, ∃ t, e.1.owner = some t ∧
    (e.2 = true → t.Good n sh ∧ e.1.entries.Perm (stamp e.1.version t.writes))

variable {n : Nat} {base : List Entry} {sh sh' : Shared} {l r : List Proc} {p q : Proc}

theorem Tx.Good.mono {t : Tx} (h : t.Good n sh) (happ : sh.oracle.appliedTs ≤ sh'.oracle.appliedTs)
    (hseen : seen sh'.log t.readTs = seen sh.log t.readTs) : t.Good n sh' := by
  refine ⟨h.start, Nat.le_trans h.le happ, ?_, h.covered⟩
  have hview : (fun key => entryAt sh'.log key t.readTs) = fun key => entryAt sh.log key t.readTs := by
    funext key
    rw [← entryAt_seen, hseen, entryAt_seen]
  rw [hview]
  exact h.trace

theorem Tx.Good.get {t : Tx} (h : t.Good n sh) (now : Int) (key : Bytes) :
    (t.get sh.log now key).Good n sh := by
  unfold Tx.get
  split
  · rename_i e hl
    refine ⟨h.start, h.le, ?_, ?_⟩
    · rw [follows_append, h.trace]
      simp [follows, readBack, hl]
    · rw [footprint_append h.trace]
      simpa [footprint, hl] using h.covered
  · rename_i hl
    refine ⟨h.start, h.le, ?_, ?_⟩
    · simp only [Tx.snapshotGet]
      rw [follows_append, h.trace]
      simp [follows, readBack, hl, getByVersion]
    · simp only [Tx.snapshotGet]
      rw [footprint_append h.trace]
      intro k hk
      simp only [footprint, hl, Option.isSome_none, Bool.false_eq_true, if_false, List.mem_append,
        List.mem_singleton] at hk
      cases hk with
      | inl hk => exact List.mem_cons_of_mem _ (h.covered k hk)
      | inr heq => exact heq ▸ List.mem_cons_self

theorem Tx.Good.write {t : Tx} (h : t.Good n sh) (key : Bytes) (entry : TxEntry) :
    (t.write key entry).Good n sh := by
  refine ⟨h.start, h.le, ?_, ?_⟩
  · simp only [Tx.write]
    rw [follows_append, h.trace]
    rfl
  · simp only [Tx.write]
    rw [footprint_append h.trace]
    simpa [footprint] using h.covered

namespace Data

theorem keep (h : Data n base sh (l ++ p :: r)) (hadv : Advance n sh sh' (l ++ q :: r))
    (hlog : sh'.log = sh.log ∨ ∃ x, sh'.log = sh.log ++ [x] ∧ n < x.version)
    (hb : ∀ e ∈ sh'.batches, e ∈ sh.batches ∨ ∃ t, e.1.owner = some t ∧
      (e.2 = true → t.Good n sh ∧ e.1.entries.Perm (stamp e.1.version t.writes)))
    (htx : ∀ t, q.tx = some t → t.Good n sh) (hq : q.Sound) : Data n base sh' (l ++ q :: r) := by
  have hmono : ∀ t : Tx, t.Good n sh → t.Good n sh' := fun t ht =>
    ht.mono hadv.applied (hadv.stable _ ht.le)
  refine ⟨?_, ?_, ?_, ?_⟩
  · obtain ⟨rest, hrest, hlt⟩ := h.log
    rcases hlog with hlog | ⟨x, hlog, hx⟩
    · exact ⟨rest, hlog.trans hrest, hlt⟩
    · refine ⟨rest ++ [x], by rw [hlog, hrest, List.append_assoc], fun y hy => ?_⟩
      cases List.mem_append.mp hy with
      | inl hy => exact hlt y hy
      | inr hy => exact List.mem_singleton.mp hy ▸ hx
  · intro x hx t ht
    cases mem_middle.mp hx with
    | inl heq => exact hmono t (htx t (heq ▸ ht))
    | inr hx => exact hmono t (h.txs x (mem_middle.mpr (Or.inr hx)) t ht)
  · intro x hx
    cases mem_middle.mp hx with
    | inl heq => exact heq ▸ hq
    | inr hx => exact h.sound x (mem_middle.mpr (Or.inr hx))
  · intro e he
    obtain ⟨t, ht, hok⟩ := (hb e he).elim (h.batches e) id
    exact ⟨t, ht, fun hx => ⟨hmono t (hok hx).1, (hok hx).2⟩⟩

theorem same (h : Data n base sh (l ++ p :: r)) (hadv : Advance n sh sh' (l ++ q :: r))
    (hlog : sh'.log = sh.log) (hb : sh'.batches = sh.batches)
    (htx : ∀ t, q.tx = some t → t.Good n sh) (hq : q.Sound) : Data n base sh' (l ++ q :: r) :=
  h.keep hadv (Or.inl hlog) (fun _ he => Or.inl (hb ▸ he)) htx hq

theorem settle {b : Batch} {ok : Bool} {t : Tx} (h : Data n base sh (l ++ p :: r))
    (hadv : Advance n sh (sh.settle b ok).1 (l ++ .settled b ok :: r)) (hb : b.owner = some t)
    (ht : t.Good n sh) (hok : ok = true → b.entries.Perm (stamp b.version t.writes)) :
    Data n base (sh.settle b ok).1 (l ++ .settled b ok :: r) := by
  refine h.keep hadv (Or.inl rfl) (fun e he => ?_) (fun t' ht' => ?_) (by simp [Proc.Sound, hb])
  · refine (List.mem_append.mp he).imp_right fun he => ?_
    rw [List.mem_singleton.mp he]
    exact ⟨t, hb, fun hx => ⟨ht, hok hx⟩⟩
  · rw [show t' = t from Option.some.inj (ht'.symm.trans hb)]
    exact ht

end Data

theorem step_data {a : Action} (h : Data n base sh (l ++ p :: r)) (hi : Inv n sh (l ++ p :: r))
    (ha : ∀ req, a ≠ .request req) (hs : p.step xxhash sh a = some (sh', q)) :
    Data n base sh' (l ++ q :: r) := by
  have hadv := step_advance hi hs
  have hp := h.sound p (mem_middle.mpr (Or.inl rfl))
  have htx := h.txs p (mem_middle.mpr (Or.inl rfl))
  cases Proc.moves_of_step hs with
  | start readOnly =>
    refine h.same hadv rfl rfl ?_ trivial
    intro t ht
    cases ht
    have hts := Oracle.newReadTs_fst hi.ok
    exact ⟨hts ▸ hi.start, Nat.le_of_eq hts, rfl, by simp [footprint]⟩
  | get key now t =>
    refine h.same hadv rfl rfl ?_ trivial
    intro t' ht
    cases ht
    exact (htx t rfl).get now key
  | write key entry t =>
    refine h.same hadv rfl rfl ?_ trivial
    intro t' ht
    cases ht
    exact (htx t rfl).write key entry
  | finish t => exact h.same hadv rfl rfl (by simp [Proc.tx]) trivial
  | conflict t => exact h.same hadv rfl rfl htx trivial
  | grant t commitTs o hcheck => exact h.same hadv rfl rfl htx trivial
  | reserve t commitTs => exact h.same hadv rfl rfl htx trivial
  | submit t commitTs entries hperm => exact h.same hadv rfl rfl htx hperm
  | refuse t commitTs => exact h.settle hadv rfl (htx t rfl) (by simp)
  | request req => exact absurd rfl (ha req)
  | refusePlain req => exact hp.elim
  | assign req => exact hp.elim
  | appendPlain now ok version req writes => exact hp.elim
  | failPlain now ok version req => exact hp.elim
  | append now ok t commitTs entries => exact h.same hadv rfl rfl htx ⟨t, rfl, hp⟩
  | fail now ok t commitTs entries => exact h.settle hadv rfl (htx t rfl) (by simp)
  | insert b x todo =>
    obtain ⟨hheld, hver⟩ := hi.progress (.inserting b (x :: todo)) (mem_middle.mpr (Or.inl rfl))
    have hx : x.version = b.version := hver x (by rw [← hheld]; simp)
    have hfly := (hi.awaiting b.version).mpr (mem_inFlight_cons.mpr (Or.inl rfl))
    have hlt : n < x.version := hx ▸ Nat.lt_of_le_of_lt hi.start (hi.tight.below _ hfly)
    exact h.keep hadv (Or.inr ⟨x, rfl, hlt⟩) (fun e he => Or.inl he) htx hp
  | mark b =>
    obtain ⟨t, ht, hperm⟩ := hp
    exact h.settle hadv ht (htx t ht) fun _ => hperm
  | replyPlain synced version entries ok => exact absurd hp (by simp [Proc.Sound])
  | reply synced version t entries => exact h.same hadv rfl rfl (by simp [Proc.tx]) trivial
  | abort synced version t entries => exact h.same hadv rfl rfl htx trivial
  | done t => exact h.same hadv rfl rfl (by simp [Proc.tx]) trivial
  | doneRead => exact h.same hadv rfl rfl htx hp

structure TxnInv (xxhash : Bytes → UInt64) (n : Nat) (base : List Entry) (s : System) : Prop where
  inv : Inv n s.shared s.procs
  hist : Hist xxhash s.shared s.procs
  data : Data n base s.shared s.procs

theorem reachable_txnInv {s : System} {count : Nat} {as : List (Nat × Action)} (hn : 0 < n)
    (hb : ∀ x ∈ base, x.version ≤ n) (hr : run (step xxhash) (init n base count) as = some s)
    (htx : ∀ a ∈ as, ∀ req, a.2 ≠ .request req) : TxnInv xxhash n base s := by
  refine @run_invariant _ _ _ (TxnInv xxhash n base)
    (fun _ (a : Nat × Action) => ∀ req, a.2 ≠ .request req) ?_ _ _ _ ?_
    (guarded_of_forall (fun _ a ha => htx a ha) _) hr
  · intro s a s' hi ha hstep
    obtain ⟨l, p, r, q, hprocs, hq, hprocs'⟩ := step_split hstep
    obtain ⟨h1, h2, h3⟩ := hi
    rw [hprocs] at h1 h2 h3
    refine ⟨?_, ?_, ?_⟩ <;> rw [hprocs']
    · exact (step_advance h1 hq).inv
    · exact step_hist h2 h1 hq
    · exact step_data h3 h1 ha hq
  · have hidle : ∀ p ∈ (init n base count).procs, p = .idle := fun p hp => List.eq_of_mem_replicate hp
    refine ⟨init_inv hn hb count, init_hist n base count, ⟨[], by simp [init], by simp⟩, ?_, ?_, ?_⟩
    · intro p hp t ht
      rw [hidle p hp] at ht
      cases ht
    · intro p hp
      rw [hidle p hp]
      trivial
    · exact fun e he => absurd he List.not_mem_nil

namespace TxnInv

variable {s : System} {t t' : Tx} {c : Nat}

theorem applied_spec (h : TxnInv xxhash n base s) (ha : Applied s.shared t c) :
    n < c ∧ t.Good n s.shared ∧ (t.writes.map Prod.fst).Nodup ∧
      ∀ x, x ∈ stamp c t.writes ↔ x ∈ s.shared.log ∧ x.version = c := by
  obtain ⟨es, hmem⟩ := ha
  obtain ⟨hlt, _, _, hheld⟩ := h.inv.settled _ hmem
  obtain ⟨t', ht', hok⟩ := h.data.batches _ hmem
  cases ht'
  obtain ⟨hgood, hperm⟩ := hok rfl
  refine ⟨hlt, hgood, follows_nodup hgood.trace List.nodup_nil, fun x => ?_⟩
  have hheld : held s.shared.log c = es := hheld
  rw [← hperm.mem_iff, ← hheld]
  simp [held]

theorem stamp_inj {x y : Entry} {ws : List (Bytes × TxEntry)} (hnd : (ws.map Prod.fst).Nodup)
    (hx : x ∈ stamp c ws) (hy : y ∈ stamp c ws) (hk : x.key = y.key) : x = y := by
  obtain ⟨w, hw, rfl⟩ := List.mem_map.mp hx
  obtain ⟨w', hw', rfl⟩ := List.mem_map.mp hy
  rw [List.inj_on_of_nodup_map hnd hw hw' hk]

theorem applied_of_mem (h : TxnInv xxhash n base s) {x : Entry} (hx : x ∈ s.shared.log)
    (hlt : n < x.version) (hle : x.version ≤ s.shared.oracle.appliedTs) :
    ∃ t, Applied s.shared t x.version := by
  have hnot : x.version ∉ inFlight s.procs := fun hm => by
    have := h.inv.tight.below _ ((h.inv.awaiting _).mpr hm)
    omega
  obtain ⟨⟨b, ok⟩, he, hv⟩ :=
    (h.inv.all _ hlt (Nat.le_trans hle h.inv.ok.le)).resolve_left hnot
  obtain ⟨_, _, _, hheld⟩ := h.inv.settled _ he
  obtain ⟨t, ht, _⟩ := h.data.batches _ he
  have hmem : x ∈ held s.shared.log b.version := by
    simp only [held, List.mem_filter, decide_eq_true_eq]
    exact ⟨hx, hv.symm⟩
  rw [hheld] at hmem
  cases ok with
  | false => exact absurd hmem List.not_mem_nil
  | true =>
    obtain ⟨version, owner, es⟩ := b
    cases ht
    cases hv
    exact ⟨t, es, he⟩

theorem entryAt_eq_latest (h : TxnInv xxhash n base s) (hb : ∀ x ∈ base, x.version ≤ n) {ts : Nat}
    (hn : n ≤ ts) (hts : ts ≤ s.shared.oracle.appliedTs) {key : Bytes} {pre : List (Tx × Nat)}
    (happ : ∀ e ∈ pre, Applied s.shared e.1 e.2)
    (hpre : ∀ t c, Applied s.shared t c → key ∈ t.keys → (c ≤ ts ↔ (t, c) ∈ pre)) :
    entryAt s.shared.log key ts = latest (base ++ written pre) key := by
  obtain ⟨rest, hlog, hrest⟩ := h.data.log
  have hmem : ∀ x ∈ rest, x ∈ s.shared.log := fun x hx => by rw [hlog]; simp [hx]
  have hkeys : ∀ {t : Tx} {c : Nat} {x : Entry}, x ∈ stamp c t.writes → x.key ∈ t.keys := by
    intro t c x hx
    obtain ⟨w, hw, rfl⟩ := List.mem_map.mp hx
    exact List.mem_map_of_mem hw
  have hnew : ∀ x ∈ written pre, n < x.version := by
    intro x hx
    obtain ⟨e, he, hx⟩ := List.mem_flatMap.mp hx
    obtain ⟨hlt, _, _, hstamp⟩ := h.applied_spec (happ e he)
    rw [((hstamp x).mp hx).2]
    exact hlt
  -- the entries of the key that are newer than the base are the same on both sides
  have hsame : newest Entry.version (Entry.hits key fun v => decide (v ≤ ts)) rest =
      newest Entry.version (Entry.hits key fun _ => true) (written pre) := by
    refine newest_congr ?_ fun x => ?_
    · intro x hx y hy hpx hpy hv
      obtain ⟨hxk, hxt⟩ := Entry.hits_iff.mp hpx
      obtain ⟨hyk, _⟩ := Entry.hits_iff.mp hpy
      simp only [decide_eq_true_eq] at hxt
      obtain ⟨t, ht⟩ := h.applied_of_mem (hmem x hx) (hrest x hx) (Nat.le_trans hxt hts)
      obtain ⟨_, _, hnd, hstamp⟩ := h.applied_spec ht
      exact stamp_inj hnd ((hstamp x).mpr ⟨hmem x hx, rfl⟩) ((hstamp y).mpr ⟨hmem y hy, hv.symm⟩)
        (hxk.trans hyk.symm)
    · simp only [Entry.hits_iff, decide_eq_true_eq, and_true]
      constructor
      · rintro ⟨hx, hxk, hxt⟩
        obtain ⟨t, ht⟩ := h.applied_of_mem (hmem x hx) (hrest x hx) (Nat.le_trans hxt hts)
        obtain ⟨_, _, _, hstamp⟩ := h.applied_spec ht
        have hst := (hstamp x).mpr ⟨hmem x hx, rfl⟩
        exact ⟨List.mem_flatMap.mpr ⟨_, (hpre t _ ht (hxk ▸ hkeys hst)).mp hxt, hst⟩, hxk⟩
      · rintro ⟨hx, hxk⟩
        obtain ⟨e, he, hst⟩ := List.mem_flatMap.mp hx
        obtain ⟨hlt, _, _, hstamp⟩ := h.applied_spec (happ e he)
        obtain ⟨hxl, hxv⟩ := (hstamp x).mp hst
        refine ⟨?_, hxk, hxv ▸ (hpre e.1 e.2 (happ e he) (hxk ▸ hkeys hst)).mpr he⟩
        rw [hlog] at hxl
        refine (List.mem_append.mp hxl).resolve_left fun hxb => ?_
        have := hb x hxb
        omega
  have hbase : newest Entry.version (Entry.hits key fun v => decide (v ≤ ts)) base =
      newest Entry.version (Entry.hits key fun _ => true) base := by
    refine newest_ext fun x hx => ?_
    have := hb x hx
    simp only [Entry.hits]
    rw [decide_eq_true (p := x.version ≤ ts) (by omega)]
  rw [entryAt, latest, hlog, newest_append_of_lt, newest_append_of_lt, hsame, hbase]
  · exact fun x hx y hy _ _ => Nat.lt_of_le_of_lt (hb x hx) (hnew y hy)
  · exact fun x hx y hy _ _ => Nat.lt_of_le_of_lt (hb x hx) (hrest y hy)

theorem mem_inCommitOrder : (t, c) ∈ inCommitOrder s ↔ Applied s.shared t c := by
  rw [inCommitOrder, List.mem_insertionSort, committed, List.mem_filterMap]
  constructor
  · rintro ⟨⟨⟨version, owner, es⟩, ok⟩, he, hm⟩
    cases ok with
    | false => cases hm
    | true =>
      obtain ⟨t', ht', heq⟩ := Option.map_eq_some_iff.mp hm
      cases ht'
      cases heq
      exact ⟨es, he⟩
  · rintro ⟨es, he⟩
    exact ⟨_, he, rfl⟩

theorem inCommitOrder_sorted (h : TxnInv xxhash n base s) :
    (inCommitOrder s).Pairwise fun a b => a.2 < b.2 := by
  have hver : ∀ {e : Batch × Bool} {a : Tx × Nat},
      a ∈ (if e.2 then e.1.owner.map fun t => (t, e.1.version) else none) → a.2 = e.1.version := by
    intro e a ha
    split at ha
    · obtain ⟨t, _, rfl⟩ := Option.map_eq_some_iff.mp ha
      rfl
    · cases ha
  have hne : (committed s).Pairwise fun a b => a.2 ≠ b.2 := by
    refine (List.pairwise_map.mp h.inv.once).filterMap _ ?_
    intro e e' hee a ha b hb
    rw [hver ha, hver hb]
    exact hee
  have hne' := ((List.perm_insertionSort (fun a b : Tx × Nat => a.2 ≤ b.2) (committed s)).symm.pairwise_iff
    fun {a b} => Ne.symm).mp hne
  have hle := List.pairwise_insertionSort (fun a b : Tx × Nat => a.2 ≤ b.2) (committed s)
  exact (hle.and hne').imp fun hab => Nat.lt_of_le_of_ne hab.1 hab.2

theorem mem_before (h : TxnInv xxhash n base s) {pre post : List (Tx × Nat)} {c' : Nat}
    (hsplit : inCommitOrder s = pre ++ (t, c) :: post) (ha : Applied s.shared t' c') :
    (t', c') ∈ pre ↔ c' < c := by
  have hsorted := h.inCommitOrder_sorted
  have hmem := mem_inCommitOrder.mpr ha
  rw [hsplit] at hsorted hmem
  obtain ⟨_, hpost, hcross⟩ := List.pairwise_append.mp hsorted
  refine ⟨fun hm => hcross _ hm _ List.mem_cons_self, fun hlt => ?_⟩
  refine (List.mem_append.mp hmem).resolve_right fun hm => ?_
  cases List.mem_cons.mp hm with
  | inl heq =>
    cases heq
    omega
  | inr hm =>
    have := (List.pairwise_cons.mp hpost).1 _ hm
    simp only at this
    omega

theorem serial_from (h : TxnInv xxhash n base s) (hb : ∀ x ∈ base, x.version ≤ n)
    {post : List (Tx × Nat)} : ∀ {pre : List (Tx × Nat)}, inCommitOrder s = pre ++ post →
      Serial (latest (base ++ written pre)) post := by
  induction post with
  | nil => exact fun _ => trivial
  | cons e post ih =>
    obtain ⟨t, c⟩ := e
    intro pre hsplit
    have ha : Applied s.shared t c := mem_inCommitOrder.mp (by rw [hsplit]; simp)
    have hpre : ∀ e ∈ pre, Applied s.shared e.1 e.2 := fun e he =>
      mem_inCommitOrder.mp (by rw [hsplit]; simp [he])
    obtain ⟨_, hgood, _, _⟩ := h.applied_spec ha
    obtain ⟨hlt, hapart⟩ := h.hist.apart t c (Or.inl ha)
    refine ⟨?_, ?_⟩
    · -- nothing between the snapshot and the commit touched what the transaction read
      rw [← hgood.trace]
      refine follows_congr fun key hkey => (h.entryAt_eq_latest hb hgood.start hgood.le hpre ?_).symm
      intro t' c' ha' hk
      rw [h.mem_before hsplit ha']
      refine ⟨fun hle => Nat.lt_of_le_of_lt hle hlt, fun hcc => ?_⟩
      by_contra hgt
      exact (hapart t' c' (Or.inl ha') (Nat.lt_of_not_le hgt) hcc key hk).1 (hgood.covered key hkey)
    · have hold : ∀ x ∈ base ++ written pre, x.version < c := by
        intro x hx
        cases List.mem_append.mp hx with
        | inl hx => exact Nat.lt_of_le_of_lt (hb x hx) (h.applied_spec ha).1
        | inr hx =>
          obtain ⟨e, he, hx⟩ := List.mem_flatMap.mp hx
          rw [(((h.applied_spec (hpre e he)).2.2.2 x).mp hx).2]
          exact (h.mem_before hsplit (hpre e he)).mp he
      rw [after_latest hold]
      have hw : written (pre ++ [(t, c)]) = written pre ++ stamp c t.writes := by simp [written]
      rw [List.append_assoc, ← hw]
      exact ih (by rw [hsplit, List.append_assoc]; rfl)

end TxnInv

/-- **Update transactions are serializable** in the order of their commit timestamps. -/
theorem serializable {s : System} {count : Nat} {as : List (Nat × Action)} (hn : 0 < n)
    (hb : ∀ x ∈ base, x.version ≤ n) (hr : run (step xxhash) (init n base count) as = some s)
    (htx : ∀ a ∈ as, ∀ req, a.2 ≠ .request req) :
    (∀ t c, (t, c) ∈ inCommitOrder s ↔ Applied s.shared t c) ∧
    (inCommitOrder s).Pairwise (fun a b => a.2 < b.2) ∧
    Serial (latest base) (inCommitOrder s) ∧
    (∀ t, .running t ∈ s.procs → follows
      (latest (base ++ written ((inCommitOrder s).filter fun e => decide (e.2 ≤ t.readTs)))) []
      t.trace = some t.writes) ∧
    (inFlight s.procs = [] → latest s.shared.log = latest (base ++ written (inCommitOrder s))) := by
  have h := reachable_txnInv hn hb hr htx
  refine ⟨fun t c => TxnInv.mem_inCommitOrder, h.inCommitOrder_sorted, ?_, ?_, ?_⟩
  · have hfrom := h.serial_from hb (List.nil_append (inCommitOrder s)).symm
    simpa [written] using hfrom
  · intro t ht
    have hgood := h.data.txs _ ht t rfl
    rw [← hgood.trace]
    refine follows_congr fun key _ => (h.entryAt_eq_latest hb hgood.start hgood.le ?_ ?_).symm
    · exact fun e he => TxnInv.mem_inCommitOrder.mp (List.mem_filter.mp he).1
    · intro t' c' ha _
      simp [TxnInv.mem_inCommitOrder, ha]
  · intro hidle
    have happ : s.shared.oracle.appliedTs = s.shared.oracle.nextTs := by
      refine h.inv.tight.reach.resolve_right fun hm => ?_
      have := (h.inv.awaiting _).mp hm
      rw [hidle] at this
      cases this
    funext key
    rw [← h.entryAt_eq_latest hb h.inv.start (Nat.le_refl _)]
    · refine newest_ext fun x hx => ?_
      have := h.inv.known x hx
      simp only [Entry.hits]
      rw [decide_eq_true (p := x.version ≤ _) (by omega)]
    · exact fun e he => TxnInv.mem_inCommitOrder.mp he
    · intro t c ha _
      obtain ⟨es, hmem⟩ := ha
      have hle : c ≤ s.shared.oracle.nextTs := (h.inv.settled _ hmem).2.1
      rw [happ]
      exact ⟨fun _ => TxnInv.mem_inCommitOrder.mpr ⟨es, hmem⟩, fun _ => hle⟩

def commits (i : Nat) (x : Entry) : List (Nat × Action) :=
  [(i, .check), (i, .reserve), (i, .submit [x]), (i, .append 0 true), (i, .insert), (i, .mark),
    (i, .reply true)]

def twoCommits : List (Nat × Action) :=
  readThenSet 0 [97] ++ commits 0 ⟨[97], [9], false, 0, 2⟩ ++
    [(1, .start false), (1, .get [97] 0), (1, .write [98] ⟨[7], 0, false⟩)] ++
    commits 1 ⟨[98], [7], false, 0, 3⟩

theorem serializable_twoCommits :
    ∃ s, run (step fun _ => 0) (init 1 [] 2) twoCommits = some s ∧
      (inCommitOrder s).map Prod.snd = [2, 3] ∧ Serial (latest []) (inCommitOrder s) := by
  obtain ⟨s, hr, hlen⟩ : ∃ s, run (step fun _ => 0) (init 1 [] 2) twoCommits = some s ∧
      (inCommitOrder s).map Prod.snd = [2, 3] := ⟨_, rfl, by decide⟩
  refine ⟨s, hr, hlen, (serializable (by decide) (by simp) hr ?_).2.2.1⟩
  simp [twoCommits, readThenSet, commits]

/-- **The first to commit wins**, plain writes or not: who read or wrote what an earlier commit wrote began after it. -/
theorem first_committer_wins {s : System} {count : Nat} {as : List (Nat × Action)} (hn : 0 < n)
    (hb : ∀ x ∈ base, x.version ≤ n) (hr : run (step xxhash) (init n base count) as = some s) {t t' : Tx} {c c' : Nat}
    (ht : Applied s.shared t c) (ht' : Applied s.shared t' c') (hlt : c' < c) {key : Bytes} (hkey : key ∈ t'.keys)
    (hown : key ∈ t.readSet ++ t.keys) : c' ≤ t.readTs := by
  by_contra hnot
  obtain ⟨hread, hwrite⟩ := ((reachable_hist hn hb hr).2.apart t c (Or.inl ht)).2 t' c' (Or.inl ht') (by omega) hlt
    key hkey
  exact (List.mem_append.mp hown).elim hread hwrite

theorem first_committer_wins_twoCommits : ∃ s t t', run (step fun _ => 0) (init 1 [] 2) twoCommits = some s ∧
    Applied s.shared t 3 ∧ Applied s.shared t' 2 ∧ 2 ≤ t.readTs := by
  obtain ⟨s, t, t', hr, ht, ht', hkey, hown⟩ : ∃ s t t', run (step fun _ => 0) (init 1 [] 2) twoCommits = some s ∧
      Applied s.shared t 3 ∧ Applied s.shared t' 2 ∧ [97] ∈ t'.keys ∧ [97] ∈ t.readSet ++ t.keys :=
    ⟨_, _, _, rfl, ⟨_, List.mem_cons_of_mem _ List.mem_cons_self⟩, ⟨_, List.mem_cons_self⟩, by decide, by decide⟩
  exact ⟨s, t, t', hr, ht, ht', first_committer_wins (by decide) (by simp) hr ht ht' (by decide) hkey hown⟩

end Txn
end AkwaDB
