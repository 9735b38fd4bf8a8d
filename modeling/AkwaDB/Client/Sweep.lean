import AkwaDB.Client.Writers

/-!
# AkwaDB.Client.Sweep

The sweep of expired keys among the writes of clients.

`expireDueKeys` takes the keys that are due from the heap, asks for the `TTL` of each, and submits one
batch that deletes those that are gone. The batch gets its version when a writer takes it from the queue,
above every write that was acknowledged since the question.

- `sweep_unnoticed`: while every batch of a sweep gets its version when its keys are dead, with no write
  under way that would make them live, every key reads as the newest write of a client.
-/

namespace AkwaDB
namespace Client

open Txn (TxEntry stamp)

/-! ## Keys that are due -/

/-- `expiryAt` and the heap behind it, as the items pushed. -/
structure ExpiryIndex where
  expiryAt : Bytes → Option Int
  expiryHeap : List (Bytes × Int)

def ExpiryIndex.trackExpiry (ix : ExpiryIndex) (key : Bytes) (expiresAt : Int) : ExpiryIndex :=
  if key = [] then ix
  else if expiresAt ≤ 0 then { ix with expiryAt := Function.update ix.expiryAt key none }
  else if ix.expiryAt key = some expiresAt then ix
  else ⟨Function.update ix.expiryAt key (some expiresAt), (key, expiresAt) :: ix.expiryHeap⟩

/-- The loop of `expireDueKeys`: the keys that are due, and what is left of the heap and of `expiryAt`. -/
def dueKeys (now : Int) : Nat → List (Bytes × Int) → (Bytes → Option Int) → List Bytes × ExpiryIndex
  | 0, heap, expiryAt => ([], ⟨expiryAt, heap⟩)
  | _ + 1, [], expiryAt => ([], ⟨expiryAt, []⟩)
  | limit + 1, it :: heap, expiryAt =>
    if now < it.2 then ([], ⟨expiryAt, it :: heap⟩)
    else if expiryAt it.1 ≠ some it.2 then dueKeys now (limit + 1) heap expiryAt
    else
      let (due, ix) := dueKeys now limit heap (Function.update expiryAt it.1 none)
      (it.1 :: due, ix)

def sweepLimit : Nat := 32

def track (ix : ExpiryIndex) (writes : List (Bytes × TxEntry)) : ExpiryIndex :=
  writes.foldl (fun ix w => ix.trackExpiry w.1 (if w.2.deleted then 0 else w.2.expiresAt)) ix

/-! ## Clients and the sweep -/

structure Swept where
  engine : Shared
  expiry : ExpiryIndex
  sweeps : List Nat

def Swept.advance (sh : Swept) (e : Shared) : Swept :=
  { sh with
    engine := e
    expiry := track sh.expiry ((e.done.drop sh.engine.done.length).flatMap Done.writes) }

def Swept.submit (sh : Swept) : Swept :=
  { sh with engine := sh.engine.assign none, sweeps := (sh.engine.nextTs + 1) :: sh.sweeps }

/-- A writer with the request of a client, or where `expireDueKeys` stands. -/
inductive Task where
  | client (w : Writer)
  | resting
  /-- The keys to ask about, and those of which the answer was `-2`. -/
  | checking (todo dead : List Bytes)
  | sweeping (version : Nat) (dead : List Bytes)

inductive TaskAct where
  | client (a : Act)
  /-- The items of the heap, in an order in which they may be popped. -/
  | pop (heap : List (Bytes × Int))
  | check
  | submit
  | sweep
  | fail

def sweepReq (dead : List Bytes) : Req := .batch (dead.map fun key => (key, ⟨[], 0, true⟩))

section
variable (xxhash : Bytes → UInt64)

def Task.step (sh : Swept) : TaskAct → Task → Option (Swept × Task)
  | .client a, .client w => (w.step xxhash sh.engine a).map fun r => (sh.advance r.1, .client r.2)
  | .pop heap, .resting =>
    if heap.isPerm sh.expiry.expiryHeap ∧ heap.Pairwise (fun a b => a.2 ≤ b.2) then
      let (due, ix) := dueKeys sh.engine.now sweepLimit heap sh.expiry.expiryAt
      some ({ sh with expiry := ix }, if due = [] then .resting else .checking due [])
    else none
  | .check, .checking (key :: todo) dead =>
    let remaining := Engine.remaining sh.engine.now (find sh.engine.layers key fun _ => true)
    some (sh, .checking todo (if remaining = -2 then dead ++ [key] else dead))
  | .submit, .checking [] dead =>
    if dead = [] then some (sh, .resting)
    else some (sh.submit, .sweeping (sh.engine.nextTs + 1) dead)
  | .sweep, .sweeping version dead =>
    let (res, writes) := (sweepReq dead).process version sh.engine.now sh.engine.layers
    some (sh.advance (sh.engine.finish none version (sweepReq dead) res writes), .resting)
  | .fail, .sweeping version dead =>
    some (sh.advance (sh.engine.finish none version (sweepReq dead) .failed []), .resting)
  | _, _ => none

abbrev Tasks := Pool Swept Task

def Tasks.init (n : Nat) (now : Int) (layers : List (List Entry)) (expiry : ExpiryIndex) (count : Nat) :
    Tasks :=
  ⟨⟨.start n now layers, expiry, []⟩, .resting :: List.replicate count (.client .idle)⟩

def Task.pendingReq : Task → Option (Nat × Req)
  | .client w => w.pendingReq
  | .sweeping version dead => some (version, sweepReq dead)
  | _ => none

def pendingTasks (ts : List Task) : List (Nat × Req) := ts.filterMap Task.pendingReq

/-- The moves of a task. A sweep that only looks is quiet. -/
inductive Task.Moves (sh : Swept) : TaskAct → Task → Swept → Task → Prop where
  | client {a : Act} {w w' : Writer} {e : Shared} (hm : w.Moves xxhash sh.engine a e w') :
      Moves sh (.client a) (.client w) (sh.advance e) (.client w')
  | quiet {a : TaskAct} {t t' : Task} (ix : ExpiryIndex) (ht : t.pendingReq = none)
      (ht' : t'.pendingReq = none) : Moves sh a t { sh with expiry := ix } t'
  | submit (dead : List Bytes) : Moves sh .submit (.checking [] dead) sh.submit
      (.sweeping (sh.engine.nextTs + 1) dead)
  | finish {a : TaskAct} (version : Nat) (dead : List Bytes) (res : Res) {writes : List (Bytes × TxEntry)}
      (hone : (writes.map Prod.fst).Nodup) (hw : ∀ w ∈ writes, w.1 ∈ dead ∧ w.2.deleted = true) :
      Moves sh a (.sweeping version dead)
      (sh.advance (sh.engine.finish none version (sweepReq dead) res writes)) .resting

variable {xxhash}

theorem mem_sweep_writes {dead : List Bytes} {version : Nat} {now : Int} {layers : List (List Entry)} :
    ∀ w ∈ ((sweepReq dead).process version now layers).2, w.1 ∈ dead ∧ w.2.deleted = true := by
  intro w hw
  obtain ⟨key, hkey, rfl⟩ := List.mem_map.mp (effective_subset hw)
  exact ⟨hkey, rfl⟩

theorem Task.moves_of_step {sh sh' : Swept} {a : TaskAct} {t t' : Task}
    (h : t.step xxhash sh a = some (sh', t')) : t.Moves xxhash sh a sh' t' := by
  revert h
  fun_cases Task.step xxhash sh a t
  all_goals intro h
  · obtain ⟨⟨e, w'⟩, hw, heq⟩ := Option.map_eq_some_iff.mp h
    cases heq
    exact .client (Writer.moves_of_step hw)
  · cases h
    refine .quiet _ rfl ?_
    split <;> rfl
  · cases h
  · cases h
    exact .quiet sh.expiry rfl rfl
  · cases h
    exact .quiet sh.expiry rfl rfl
  · cases h
    exact .submit _
  · rename_i version dead res writes hproc
    cases h
    refine .finish version dead res ?_ fun w hw => ?_
    · have hone := ((sweepReq dead).process_spec version sh.engine.now sh.engine.layers).1
      rwa [hproc] at hone
    · exact mem_sweep_writes w (by rw [hproc]; exact hw)
  · cases h
    exact .finish _ _ _ List.nodup_nil (by simp)
  · cases h

end

def gone (now : Int) (x : TxEntry) : Bool := (⟨[], x.value, x.deleted, x.expiresAt, 0⟩ : Entry).dead now

def Req.dies (now : Int) (key : Bytes) : Req → Bool
  | .put k value expiresAt => k != key || gone now ⟨value, expiresAt, false⟩
  | .delete _ => true
  | .batch writes => writes.all fun w => w.1 != key || gone now w.2
  | .incr k _ => k != key
  | .gcRewrite r => r.key != key || gone now ⟨r.val, r.expiresAt, false⟩

theorem Req.dies_mono {now now' : Int} {key : Bytes} {req : Req} (hle : now ≤ now')
    (h : req.dies now key = true) : req.dies now' key = true := by
  have hor : ∀ {b : Bool} {x : TxEntry}, (b || gone now x) = true → (b || gone now' x) = true := by
    intro b x hx
    rw [Bool.or_eq_true] at hx ⊢
    exact hx.imp_right (Entry.dead_mono hle)
  cases req with
  | put k value expiresAt => exact hor h
  | delete k => rfl
  | batch writes => exact List.all_eq_true.mpr fun w hw => hor (List.all_eq_true.mp h w hw)
  | incr k delta => exact h
  | gcRewrite r => exact hor h

theorem Req.dead_of_dies {now : Int} {key : Bytes} {version : Nat} {layers : List (List Entry)} {req : Req}
    (h : req.dies now key = true) :
    ∀ x ∈ stamp version (req.process version now layers).2, x.key = key → x.dead now = true := by
  intro x hx hk
  obtain ⟨w, hw, rfl⟩ := List.mem_map.mp hx
  obtain rfl : w.1 = key := hk
  suffices hgone : gone now w.2 = true from hgone
  revert hw
  fun_cases Req.process version now layers req
  case case4 writes =>
    intro hw
    simpa using List.all_eq_true.mp h w (effective_subset hw)
  all_goals
    intro hw
    simp_all [Req.dies, gone, Entry.dead]

def unswept (sweeps : List Nat) (log : List Entry) : List Entry :=
  log.filter fun x => decide (x.version ∉ sweeps)

theorem mem_unswept {sweeps : List Nat} {log : List Entry} {x : Entry} :
    x ∈ unswept sweeps log ↔ x ∈ log ∧ x.version ∉ sweeps := by
  simp [unswept]

/-- The key is dead, and what clients are to write of it is dead or already overwritten. -/
def DeadKey (sh : Swept) (ps : List (Nat × Req)) (key : Bytes) : Prop :=
  (∀ x ∈ find sh.engine.layers key fun _ => true, x.dead sh.engine.now = true) ∧
    ∀ q ∈ ps, q.1 ∉ sh.sweeps → key ∈ q.2.keys → q.2.dies sh.engine.now key = true ∨
      ∃ x ∈ find sh.engine.layers key fun _ => true, q.1 < x.version

instance (sh : Swept) (ps : List (Nat × Req)) (key : Bytes) : Decidable (DeadKey sh ps key) :=
  inferInstanceAs (Decidable ((∀ x ∈ find sh.engine.layers key fun _ => true, _) ∧
    ∀ q ∈ ps, q.1 ∉ sh.sweeps → key ∈ q.2.keys → _))

def Task.submits : Task → TaskAct → List Bytes
  | .checking [] dead, .submit => dead
  | _, _ => []

def TaskAct.isRotate : TaskAct → Bool
  | .client a => a.isRotate
  | _ => false

/-- Rotations leave the layers in order, and the keys of a batch are dead when it gets its version. -/
def SweepsDead (s : Tasks) (a : Nat × TaskAct) : Prop :=
  (a.2.isRotate = true → ∀ x ∈ s.shared.engine.mem, RotatesApart x.key s.shared.engine (pendingTasks s.procs)) ∧
    ∀ t ∈ s.procs[a.1]?, ∀ key ∈ t.submits a.2, DeadKey s.shared (pendingTasks s.procs) key

instance (s : Tasks) (a : Nat × TaskAct) : Decidable (SweepsDead s a) :=
  inferInstanceAs (Decidable ((a.2.isRotate = true → ∀ x ∈ s.shared.engine.mem, _) ∧
    ∀ t ∈ s.procs[a.1]?, ∀ key ∈ t.submits a.2, _))

def Between (client : List Entry) (key : Bytes) (u w : Nat) : Prop :=
  ∃ c ∈ client, c.key = key ∧ u < c.version ∧ c.version < w

def SweptAt (sh : Swept) (ps : List (Nat × Req)) (key : Bytes) (w : Nat) : Prop :=
  w ∈ sh.sweeps ∧ ((∃ x ∈ sh.engine.log, x.key = key ∧ x.version = w) ∨
    ∃ q ∈ ps, q.1 = w ∧ key ∈ q.2.keys)

/-- Of what clients wrote or are to write below a sweep's delete of the key, the newest is dead. -/
structure Spared (key : Bytes) (sh : Swept) (ps : List (Nat × Req)) : Prop where
  written : ∀ w, SweptAt sh ps key w →
    ∀ c ∈ newestOf (unswept sh.sweeps sh.engine.log) key fun v => decide (v < w), c.dead sh.engine.now = true
  pending : ∀ w, SweptAt sh ps key w → ∀ q ∈ ps, q.1 ∉ sh.sweeps → key ∈ q.2.keys → q.1 < w →
    q.2.dies sh.engine.now key = true ∨ Between (unswept sh.sweeps sh.engine.log) key q.1 w

def Task.Owns (sweeps : List Nat) : Task → Prop
  | .client w => ∀ q ∈ w.pendingReq, q.1 ∉ sweeps
  | .sweeping version _ => version ∈ sweeps
  | _ => True

structure Marked (n : Nat) (sh : Swept) (ts : List Task) : Prop where
  range : ∀ v ∈ sh.sweeps, n < v ∧ v ≤ sh.engine.nextTs
  deletes : ∀ x ∈ sh.engine.log, x.version ∈ sh.sweeps → x.deleted = true
  owns : ∀ t ∈ ts, t.Owns sh.sweeps

section
variable {n : Nat} {base : List Entry} {key : Bytes} {sh sh' : Swept} {ps ps' : List (Nat × Req)}
  {version : Nat} {req : Req} {client client' : List Entry} {u w : Nat}

theorem Between.mono (h : Between client key u w) (hsub : ∀ c ∈ client, c ∈ client') :
    Between client' key u w := by
  obtain ⟨c, hc, hrest⟩ := h
  exact ⟨c, hsub c hc, hrest⟩

theorem Spared.later (h : Spared key sh ps) (hlog : sh'.engine.log = sh.engine.log)
    (hsweeps : sh'.sweeps = sh.sweeps) (hnow : sh.engine.now ≤ sh'.engine.now) : Spared key sh' ps := by
  have hat : ∀ {w}, SweptAt sh' ps key w → SweptAt sh ps key w := by
    intro w hw
    rwa [SweptAt, hlog, hsweeps] at hw
  refine ⟨fun w hw c => ?_, fun w hw q hq => ?_⟩
  · rw [hlog, hsweeps]
    exact fun hc => Entry.dead_mono hnow (h.written w (hat hw) c hc)
  · rw [hlog, hsweeps]
    exact fun hs hk hlt => (h.pending w (hat hw) q hq hs hk hlt).imp_left (Req.dies_mono hnow)

theorem Spared.perm (h : Spared key sh ps) (hps : ps.Perm ps') : Spared key sh ps' := by
  have hat : ∀ {w}, SweptAt sh ps' key w → SweptAt sh ps key w := by
    rintro w ⟨hw, hx | ⟨q, hq, hrest⟩⟩
    · exact ⟨hw, Or.inl hx⟩
    · exact ⟨hw, Or.inr ⟨q, hps.mem_iff.mpr hq, hrest⟩⟩
  exact ⟨fun w hw => h.written w (hat hw), fun w hw q hq => h.pending w (hat hw) q (hps.mem_iff.mpr hq)⟩

theorem Spared.assign (h : Spared key sh ps) (hrange : ∀ v ∈ sh.sweeps, v ≤ sh.engine.nextTs)
    (lock : Option Nat) :
    Spared key ⟨sh.engine.assign lock, sh.expiry, sh.sweeps⟩ ((sh.engine.nextTs + 1, req) :: ps) := by
  have hat : ∀ {w}, SweptAt ⟨sh.engine.assign lock, sh.expiry, sh.sweeps⟩
      ((sh.engine.nextTs + 1, req) :: ps) key w → SweptAt sh ps key w := by
    rintro w ⟨hw, hx | ⟨q, hq, hqw, hk⟩⟩
    · exact ⟨hw, Or.inl hx⟩
    · rcases List.mem_cons.mp hq with rfl | hq
      · have := hrange w hw
        omega
      · exact ⟨hw, Or.inr ⟨q, hq, hqw, hk⟩⟩
  refine ⟨fun w hw => h.written w (hat hw), fun w hw q hq hs hk hlt => ?_⟩
  rcases List.mem_cons.mp hq with rfl | hq
  · have := hrange w hw.1
    omega
  · exact h.pending w (hat hw) q hq hs hk hlt

theorem Spared.finish {writes : List (Bytes × TxEntry)} (h : Spared key sh ((version, req) :: ps))
    (hclient : version ∉ sh.sweeps) (hkeys : ∀ w ∈ writes, w.1 ∈ req.keys)
    (hdead : req.dies sh.engine.now key = true →
      ∀ x ∈ stamp version writes, x.key = key → x.dead sh.engine.now = true) (lock : Option Nat) (res : Res)
    (ix : ExpiryIndex) :
    Spared key ⟨sh.engine.finish lock version req res writes, ix, sh.sweeps⟩ ps := by
  have hlog : (sh.engine.finish lock version req res writes).log = sh.engine.log ++ stamp version writes :=
    Shared.log_finish _ _ _ _ _ _
  have hver : ∀ x ∈ stamp version writes, x.version = version := by
    intro x hx
    obtain ⟨w, _, rfl⟩ := List.mem_map.mp hx
    rfl
  have hsub : ∀ c ∈ unswept sh.sweeps sh.engine.log,
      c ∈ unswept sh.sweeps (sh.engine.finish lock version req res writes).log := by
    intro c hc
    obtain ⟨hc, hs⟩ := mem_unswept.mp hc
    exact mem_unswept.mpr ⟨hlog ▸ List.mem_append_left _ hc, hs⟩
  have hat : ∀ {w}, SweptAt ⟨sh.engine.finish lock version req res writes, ix, sh.sweeps⟩ ps key w →
      SweptAt sh ((version, req) :: ps) key w := by
    rintro w ⟨hw, ⟨x, hx, hk, hv⟩ | ⟨q, hq, hrest⟩⟩
    · refine ⟨hw, Or.inl ⟨x, ?_, hk, hv⟩⟩
      rw [hlog] at hx
      refine (List.mem_append.mp hx).resolve_right fun hx => hclient ?_
      rwa [← hver x hx, hv]
    · exact ⟨hw, Or.inr ⟨q, List.mem_cons_of_mem _ hq, hrest⟩⟩
  refine ⟨fun w hw c hc => ?_, fun w hw q hq hs hk hlt => ?_⟩
  · have hunswept : unswept sh.sweeps (sh.engine.finish lock version req res writes).log =
        unswept sh.sweeps sh.engine.log ++ stamp version writes := by
      rw [hlog, unswept, List.filter_append, ← unswept]
      congr 1
      exact List.filter_eq_self.mpr fun x hx => decide_eq_true (hver x hx ▸ hclient)
    rw [hunswept, newestOf_append] at hc
    have hold := h.written w (hat hw)
    cases hes : newestOf (stamp version writes) key fun v => decide (v < w) with
    | none =>
      rw [hes, newerOf_none] at hc
      exact hold c hc
    | some y =>
      -- the request was under way below the sweep: it leaves something dead, or is overwritten
      obtain ⟨hy, hk, hlt⟩ := mem_newestOf hes
      have hreq : key ∈ req.keys := by
        obtain ⟨v, hv, rfl⟩ := List.mem_map.mp hy
        exact hk ▸ hkeys v hv
      rw [hver y hy, decide_eq_true_eq] at hlt
      have hpend := h.pending w (hat hw) _ List.mem_cons_self hclient hreq hlt
      cases hcl : newestOf (unswept sh.sweeps sh.engine.log) key fun v => decide (v < w) with
      | none =>
        rw [hcl, hes] at hc
        obtain rfl : y = c := Option.some.inj hc
        rcases hpend with hd | ⟨b, hb, hbk, _, hbw⟩
        · exact hdead hd y hy hk
        · have := newestOf_eq_none hcl hb hbk
          simp only [decide_eq_false_iff_not] at this
          omega
      | some z =>
        rw [hcl, hes] at hc
        rcases hpend with hd | ⟨b, hb, hbk, hub, hbw⟩
        · by_cases hzy : z.version < y.version
          · obtain rfl : y = c := Option.some.inj ((if_pos hzy).symm.trans hc)
            exact hdead hd y hy hk
          · obtain rfl : z = c := Option.some.inj ((if_neg hzy).symm.trans hc)
            exact hold z hcl
        · have := le_newestOf hcl hb hbk (decide_eq_true hbw)
          have hv : y.version = version := hver y hy
          obtain rfl : z = c := Option.some.inj ((if_neg (show ¬ z.version < y.version by omega)).symm.trans hc)
          exact hold z hcl
  · exact (h.pending w (hat hw) q (List.mem_cons_of_mem _ hq) hs hk hlt).imp_right fun hb => hb.mono hsub

theorem Spared.newest_dead (h : Spared key sh ps) (hal : Aligned key sh.engine ps) {c : Entry}
    (hc : newestOf (unswept sh.sweeps sh.engine.log) key (fun _ => true) = some c)
    (hdead : ∀ x ∈ find sh.engine.layers key fun _ => true, x.version ∉ sh.sweeps → x.dead sh.engine.now = true) :
    c.dead sh.engine.now = true := by
  obtain ⟨hcm, hck, _⟩ := mem_newestOf hc
  obtain ⟨hcl, hcs⟩ := mem_unswept.mp hcm
  rw [hal.find_eq] at hdead
  obtain ⟨x, hx⟩ : ∃ x, newestOf sh.engine.log key (fun _ => true) = some x := newestOf_of_mem hcl hck rfl
  obtain ⟨hxm, hxk, _⟩ := mem_newestOf hx
  by_cases hxs : x.version ∈ sh.sweeps
  · -- a sweep deleted the key: the newest of the clients is below it
    have hcx : c.version < x.version := by
      have := le_newestOf hx hcl hck rfl
      exact Nat.lt_of_le_of_ne this fun heq => hcs (heq ▸ hxs)
    refine h.written x.version ⟨hxs, Or.inl ⟨x, hxm, hxk, rfl⟩⟩ c ?_
    refine (newestOf_congr fun y hy hyk => ?_).trans hc
    have := le_newestOf hc hy hyk rfl
    exact decide_eq_true (by omega)
  · have hxc : newestOf (unswept sh.sweeps sh.engine.log) key (fun _ => true) = some x :=
      newest_filter_of_pass hx (decide_eq_true hxs)
    obtain rfl : x = c := Option.some.inj (hxc.symm.trans hc)
    exact hdead x hx hxs

theorem Spared.submit {dead : List Bytes} (h : Spared key sh ps) (hn : Numbered n base sh.engine ps)
    (hal : Aligned key sh.engine ps) (hrange : ∀ v ∈ sh.sweeps, v ≤ sh.engine.nextTs)
    (hok : key ∈ dead → DeadKey sh ps key) :
    Spared key sh.submit ((sh.engine.nextTs + 1, sweepReq dead) :: ps) := by
  have hpsle : ∀ q ∈ ps, q.1 ≤ sh.engine.nextTs := fun q hq =>
    (hn.range q.1 (List.mem_append_left _ (List.mem_map_of_mem hq))).2
  have hset : unswept sh.submit.sweeps sh.submit.engine.log = unswept sh.sweeps sh.engine.log := by
    refine List.filter_congr fun x hx => ?_
    have := hn.log_le x hx
    have hne : x.version ≠ sh.engine.nextTs + 1 := by omega
    simp [Swept.submit, hne]
  have hat : ∀ {w}, SweptAt sh.submit ((sh.engine.nextTs + 1, sweepReq dead) :: ps) key w →
      (w = sh.engine.nextTs + 1 ∧ DeadKey sh ps key) ∨ SweptAt sh ps key w := by
    rintro w ⟨hw, hat⟩
    rcases hat with ⟨x, hx, hk, hv⟩ | ⟨q, hq, hqw, hk⟩
    · have := hn.log_le x hx
      refine Or.inr ⟨(List.mem_cons.mp hw).resolve_left (by omega), Or.inl ⟨x, hx, hk, hv⟩⟩
    · rcases List.mem_cons.mp hq with rfl | hq
      · refine Or.inl ⟨hqw.symm, hok ?_⟩
        simpa [sweepReq, Req.keys] using hk
      · have := hpsle q hq
        exact Or.inr ⟨(List.mem_cons.mp hw).resolve_left (by omega), Or.inr ⟨q, hq, hqw, hk⟩⟩
  refine ⟨fun w hw c hc => ?_, fun w hw q hq hs hk hlt => ?_⟩
  · rw [hset] at hc
    rcases hat hw with ⟨rfl, hdead, _⟩ | hw
    · refine h.newest_dead hal (c := c) ?_ fun x hx _ => hdead x hx
      refine (newestOf_congr fun x hx _ => ?_).trans hc
      have := hn.log_le x (mem_unswept.mp hx).1
      exact (decide_eq_true (by omega)).symm
    · exact h.written w hw c hc
  · rw [hset]
    have hq : q ∈ ps := (List.mem_cons.mp hq).resolve_left fun heq => hs (heq ▸ List.mem_cons_self)
    have hs : q.1 ∉ sh.sweeps := fun hmem => hs (List.mem_cons_of_mem _ hmem)
    rcases hat hw with ⟨rfl, hdead⟩ | hw
    · rcases hdead.2 q hq hs hk with hd | ⟨x, hx, hqx⟩
      · exact Or.inl hd
      · rw [hal.find_eq] at hx
        obtain ⟨hxm, hxk, _⟩ := mem_newestOf hx
        by_cases hxs : x.version ∈ sh.sweeps
        · refine (h.pending x.version ⟨hxs, Or.inl ⟨x, hxm, hxk, rfl⟩⟩ q hq hs hk hqx).imp_right ?_
          rintro ⟨b, hb, hbk, hqb, hbx⟩
          have := hrange _ hxs
          exact ⟨b, hb, hbk, hqb, by omega⟩
        · have := hn.log_le x hxm
          exact Or.inr ⟨x, mem_unswept.mpr ⟨hxm, hxs⟩, hxk, hqx, by omega⟩
    · exact h.pending w hw q hq hs hk hlt

theorem Spared.delete {dead : List Bytes} {writes : List (Bytes × TxEntry)}
    (h : Spared key sh ((version, sweepReq dead) :: ps)) (hsweep : version ∈ sh.sweeps)
    (hw : ∀ w ∈ writes, w.1 ∈ dead) (res : Res) (ix : ExpiryIndex) :
    Spared key ⟨sh.engine.finish none version (sweepReq dead) res writes, ix, sh.sweeps⟩ ps := by
  have hlog : (sh.engine.finish none version (sweepReq dead) res writes).log =
      sh.engine.log ++ stamp version writes := Shared.log_finish _ _ _ _ _ _
  have hset : unswept sh.sweeps (sh.engine.finish none version (sweepReq dead) res writes).log =
      unswept sh.sweeps sh.engine.log := by
    rw [hlog, unswept, List.filter_append, ← unswept]
    refine List.append_right_eq_self.mpr (List.filter_eq_nil_iff.mpr fun x hx => ?_)
    obtain ⟨w, _, rfl⟩ := List.mem_map.mp hx
    simp [hsweep]
  have hat : ∀ {w}, SweptAt ⟨sh.engine.finish none version (sweepReq dead) res writes, ix, sh.sweeps⟩
      ps key w → SweptAt sh ((version, sweepReq dead) :: ps) key w := by
    rintro w ⟨hmem, ⟨x, hx, hk, hv⟩ | ⟨q, hq, hrest⟩⟩
    · rw [hlog] at hx
      rcases List.mem_append.mp hx with hx | hx
      · exact ⟨hmem, Or.inl ⟨x, hx, hk, hv⟩⟩
      · obtain ⟨u, hu, rfl⟩ := List.mem_map.mp hx
        refine ⟨hmem, Or.inr ⟨_, List.mem_cons_self, hv, ?_⟩⟩
        simpa [sweepReq, Req.keys, ← hk] using hw u hu
    · exact ⟨hmem, Or.inr ⟨q, List.mem_cons_of_mem _ hq, hrest⟩⟩
  refine ⟨fun w hw => ?_, fun w hw q hq => ?_⟩
  · rw [hset]
    exact h.written w (hat hw)
  · rw [hset]
    exact h.pending w (hat hw) q (List.mem_cons_of_mem _ hq)

end

section
variable {xxhash : Bytes → UInt64} {n : Nat} {base : List Entry} {key : Bytes} {sh sh' : Swept}
  {ps : List (Nat × Req)} {l r : List Task} {t t' : Task} {a : TaskAct}

theorem numbered_task (h : Numbered n base sh.engine (t.pendingReq.toList ++ ps))
    (hm : t.Moves xxhash sh a sh' t') : Numbered n base sh'.engine (t'.pendingReq.toList ++ ps) := by
  cases hm with
  | client hm => exact numbered_moves h hm
  | quiet ix ht ht' =>
    rw [ht] at h
    rw [ht']
    exact h
  | submit dead => exact h.assign (List.Perm.refl _) none
  | finish version dead res hone hw => exact h.finish (List.Perm.refl _) none _ hone

theorem aligned_task (h : Aligned key sh.engine (t.pendingReq.toList ++ ps))
    (hn : Numbered n base sh.engine (t.pendingReq.toList ++ ps)) (hm : t.Moves xxhash sh a sh' t')
    (hok : a.isRotate = true → RotatesApart key sh.engine (t.pendingReq.toList ++ ps)) :
    Aligned key sh'.engine (t'.pendingReq.toList ++ ps) := by
  cases hm with
  | client hm => exact aligned_moves h hn hm hok
  | quiet ix ht ht' =>
    rw [ht] at h
    rw [ht']
    exact h
  | submit dead => exact h.assign hn (List.Perm.refl _) none
  | finish version dead res hone hw =>
    refine h.finish (List.Perm.refl _) none _ fun w hmem => ?_
    simpa [sweepReq, Req.keys] using (hw w hmem).1

theorem spared_task (h : Spared key sh (t.pendingReq.toList ++ ps))
    (hn : Numbered n base sh.engine (t.pendingReq.toList ++ ps))
    (hal : Aligned key sh.engine (t.pendingReq.toList ++ ps)) (hrange : ∀ v ∈ sh.sweeps, v ≤ sh.engine.nextTs)
    (howns : t.Owns sh.sweeps) (hok : key ∈ t.submits a → DeadKey sh (t.pendingReq.toList ++ ps) key)
    (hm : t.Moves xxhash sh a sh' t') : Spared key sh' (t'.pendingReq.toList ++ ps) := by
  cases hm with
  | client hm =>
    cases hm with
    | assign req hfree => exact (h.assign hrange _).later rfl rfl (Int.le_refl _)
    | process version req =>
      exact h.finish (howns _ rfl) (req.process_spec version _ _).2 (fun hd => Req.dead_of_dies hd) _ _ _
    | fail version req => exact h.finish (howns _ rfl) (by simp) (by simp [stamp]) _ _ _
    | rotate w => exact h.later sh.engine.log_rotate rfl (Int.le_refl _)
    | tick seconds w => exact h.later rfl rfl (Int.le_add_of_nonneg_right (Int.natCast_nonneg seconds))
  | quiet ix ht ht' =>
    rw [ht] at h
    rw [ht']
    exact h.later rfl rfl (Int.le_refl _)
  | submit dead => exact h.submit hn hal hrange hok
  | finish version dead res hone hw => exact h.delete howns (fun w hmem => (hw w hmem).1) res _

theorem Writer.Moves.versions {e e' : Shared} {b : Act} {w w' : Writer} (hm : w.Moves xxhash e b e' w') :
    e.nextTs ≤ e'.nextTs ∧ (∀ x ∈ e'.log, x ∈ e.log ∨ ∃ q ∈ w.pendingReq, x.version = q.1) ∧
      ∀ q ∈ w'.pendingReq, q ∈ w.pendingReq ∨ q.1 = e.nextTs + 1 := by
  cases hm with
  | assign req hfree => exact ⟨Nat.le_succ _, fun x hx => Or.inl hx, fun q hq => Or.inr (by cases hq; rfl)⟩
  | rotate w => exact ⟨Nat.le_refl _, fun x hx => Or.inl (e.log_rotate ▸ hx), fun q hq => Or.inl hq⟩
  | tick seconds w => exact ⟨Nat.le_refl _, fun x hx => Or.inl hx, fun q hq => Or.inl hq⟩
  | process version req | fail version req =>
    refine ⟨Nat.le_refl _, fun x hx => ?_, fun q hq => by cases hq⟩
    rw [Shared.log_finish] at hx
    refine (List.mem_append.mp hx).imp_right fun hx => ⟨_, rfl, ?_⟩
    obtain ⟨u, _, rfl⟩ := List.mem_map.mp hx
    rfl

theorem marked_task (h : Marked n sh (l ++ t :: r)) (hn : Numbered n base sh.engine (pendingTasks (l ++ t :: r)))
    (hm : t.Moves xxhash sh a sh' t') : Marked n sh' (l ++ t' :: r) := by
  have howns : t.Owns sh.sweeps := h.owns t (List.mem_append_right _ List.mem_cons_self)
  have hothers : ∀ u ∈ l ++ r, u.Owns sh.sweeps := fun u hu => h.owns u (mem_middle.mpr (Or.inr hu))
  have hle := hn.le
  cases hm with
  | @client b w w' e hm =>
    obtain ⟨hts, hlog, hpend⟩ := hm.versions
    refine ⟨fun v hv => ⟨(h.range v hv).1, Nat.le_trans (h.range v hv).2 hts⟩, fun x hx hs => ?_,
      Pool.forall_middle (fun q hq hs => ?_) hothers⟩
    · rcases hlog x hx with hx | ⟨q, hq, hv⟩
      · exact h.deletes x hx hs
      · exact absurd (hv ▸ hs) (howns q hq)
    · rcases hpend q hq with hq | hq
      · exact howns q hq hs
      · have := (h.range q.1 hs).2
        omega
  | quiet ix ht ht' =>
    refine ⟨h.range, h.deletes, Pool.forall_middle ?_ hothers⟩
    cases t' with
    | client w => exact fun q hq => by rw [Task.pendingReq] at ht'; rw [ht'] at hq; cases hq
    | sweeping version dead => cases ht'
    | resting => trivial
    | checking todo dead => trivial
  | submit dead =>
    have hpsle : ∀ u ∈ l ++ r, ∀ q ∈ u.pendingReq, q.1 ≤ sh.engine.nextTs := by
      intro u hu q hq
      refine (hn.range q.1 (List.mem_append_left _ (List.mem_map_of_mem ?_))).2
      exact List.mem_filterMap.mpr ⟨u, mem_middle.mpr (Or.inr hu), hq⟩
    refine ⟨fun v hv => ?_, fun x hx hs => ?_, Pool.forall_middle List.mem_cons_self fun u hu => ?_⟩
    · rcases List.mem_cons.mp hv with rfl | hv
      · exact ⟨by omega, Nat.le_refl _⟩
      · exact ⟨(h.range v hv).1, Nat.le_succ_of_le (h.range v hv).2⟩
    · have := hn.log_le x hx
      exact h.deletes x hx ((List.mem_cons.mp hs).resolve_left (by omega))
    · have hu' := hothers u hu
      cases u with
      | client w =>
        intro q hq hs
        have := hpsle _ hu q hq
        exact hu' q hq ((List.mem_cons.mp hs).resolve_left (by omega))
      | sweeping version dead => exact List.mem_cons_of_mem _ hu'
      | resting => trivial
      | checking todo dead => trivial
  | finish version dead res hone hw =>
    refine ⟨h.range, fun x hx hs => ?_, Pool.forall_middle trivial hothers⟩
    have hx := (Shared.log_finish _ _ _ _ _ _) ▸ hx
    rcases List.mem_append.mp hx with hx | hx
    · exact h.deletes x hx hs
    · obtain ⟨u, hu, rfl⟩ := List.mem_map.mp hx
      exact (hw u hu).2

structure SweepInv (n : Nat) (base : List Entry) (s : Tasks) : Prop where
  numbered : Numbered n base s.shared.engine (pendingTasks s.procs)
  aligned : ∀ key, Aligned key s.shared.engine (pendingTasks s.procs)
  marked : Marked n s.shared s.procs
  spared : ∀ key, Spared key s.shared (pendingTasks s.procs)

theorem pendingTasks_middle (t : Task) :
    (pendingTasks (l ++ t :: r)).Perm (t.pendingReq.toList ++ pendingTasks (l ++ r)) := filterMap_middle _ _ _ _

theorem DeadKey.perm {ps' : List (Nat × Req)} (h : DeadKey sh ps key) (hps : ps.Perm ps') : DeadKey sh ps' key :=
  ⟨h.1, fun q hq => h.2 q (hps.mem_iff.mpr hq)⟩

theorem sweepInv_step {s s' : Tasks} {a : Nat × TaskAct} (h : SweepInv n base s) (hok : SweepsDead s a)
    (hs : Pool.step (Task.step xxhash) s a = some s') : SweepInv n base s' := by
  obtain ⟨l, t, r, t', ht, hl, hstep, hl'⟩ := Pool.step_split hs
  obtain ⟨hrot, hdead⟩ := hok
  have hdead := hdead t ht
  obtain ⟨hn, hal, hmark, hsp⟩ := h
  rw [hl] at hn hal hmark hsp hdead hrot
  have hm := Task.moves_of_step hstep
  have hmid := pendingTasks_middle (l := l) (r := r) t
  have hmid' := (pendingTasks_middle (l := l) (r := r) t').symm
  have howns : t.Owns s.shared.sweeps := hmark.owns t (List.mem_append_right _ List.mem_cons_self)
  refine ⟨?_, fun key => ?_, ?_, fun key => ?_⟩ <;> rw [hl']
  · exact (numbered_task (hn.perm hmid) hm).perm hmid'
  · refine (aligned_task ((hal key).perm hmid) (hn.perm hmid) hm fun ha q hq => ?_).perm hmid'
    exact rotatesApart_of_mem (hrot ha) key q (hmid.mem_iff.mpr hq)
  · exact marked_task hmark hn hm
  · exact (spared_task ((hsp key).perm hmid) (hn.perm hmid) ((hal key).perm hmid)
      (fun v hv => (hmark.range v hv).2) howns (fun hk => (hdead key hk).perm hmid) hm).perm hmid'

/-- **A sweep deletes no live value.** -/
theorem sweep_unnoticed {layers : List (List Entry)} (hbase : Stored n layers) (now : Int)
    (expiry : ExpiryIndex) (count : Nat) {as : List (Nat × TaskAct)} {s : Tasks}
    (hg : Guarded (Pool.step (Task.step xxhash)) SweepsDead (Tasks.init n now layers expiry count) as)
    (hr : run (Pool.step (Task.step xxhash)) (Tasks.init n now layers expiry count) as = some s)
    (key : Bytes) :
    get s.shared.engine.layers s.shared.engine.now key =
      (newestOf (unswept s.shared.sweeps s.shared.engine.log) key fun _ => true).bind
        (Entry.answer s.shared.engine.now) := by
  have hnone : pendingTasks (.resting :: List.replicate count (.client .idle)) = [] := by
    refine List.filterMap_eq_nil_iff.mpr fun t ht => ?_
    rcases List.mem_cons.mp ht with rfl | ht
    · rfl
    · rw [List.eq_of_mem_replicate ht]
      rfl
  have hinv : SweepInv n layers.reverse.flatten s := by
    refine run_invariant sweepInv_step ⟨?_, fun key => ?_, ⟨by simp [Tasks.init], by simp [Tasks.init], ?_⟩,
      fun key => ?_⟩ hg hr
    · rw [Tasks.init, hnone]
      exact numbered_start hbase now
    · rw [Tasks.init, hnone]
      exact aligned_start hbase now key
    · intro t ht
      rcases List.mem_cons.mp ht with rfl | ht
      · trivial
      · rw [List.eq_of_mem_replicate ht]
        exact fun q hq => by cases hq
    · exact ⟨fun w hw => absurd hw.1 List.not_mem_nil, fun w hw => absurd hw.1 List.not_mem_nil⟩
  have hal := hinv.aligned key
  have hsp := hinv.spared key
  rw [hal.get_eq]
  cases hx : newestOf s.shared.engine.log key fun _ => true with
  | none =>
    have hclient : newestOf (unswept s.shared.sweeps s.shared.engine.log) key (fun _ => true) = none :=
      newest_eq_none.mpr fun y hy => newest_eq_none.mp hx y (mem_unswept.mp hy).1
    rw [hclient]
  | some x =>
    by_cases hxs : x.version ∈ s.shared.sweeps
    · -- the key was swept, and what clients wrote of it is dead
      have hfind := (hal.find_eq fun _ => true).trans hx
      have hdel := hinv.marked.deletes x (mem_newestOf hx).1 hxs
      have hans : x.answer s.shared.engine.now = none := by simp [Entry.answer, Entry.dead, hdel]
      rw [Option.bind_some, hans]
      cases hc : newestOf (unswept s.shared.sweeps s.shared.engine.log) key fun _ => true with
      | none => rfl
      | some c =>
        have hdead : c.dead s.shared.engine.now = true := by
          refine hsp.newest_dead hal hc fun y hy hys => absurd hxs ?_
          rw [hfind] at hy
          cases hy
          exact hys
        simp [Entry.answer, hdead]
    · have hclient : newestOf (unswept s.shared.sweeps s.shared.engine.log) key (fun _ => true) = some x :=
        newest_filter_of_pass hx (decide_eq_true hxs)
      rw [hclient]

end

/-! ## A put during a sweep -/

def noExpiry : ExpiryIndex := ⟨fun _ => none, []⟩

def expires : List (Nat × TaskAct) :=
  [(1, .client (.assign (.put [107] [1] 5))), (1, .client .process), (1, .client (.tick 10)),
   (0, .pop [([107], 5)]), (0, .check)]

def putAgain : List (Nat × TaskAct) := [(1, .client (.assign (.put [107] [2] 0))), (1, .client .process)]

/-- A client puts the key when the batch has its version. -/
def putAbove : List (Nat × TaskAct) := expires ++ [(0, .submit)] ++ putAgain ++ [(0, .sweep), (1, .client .rotate)]

theorem sweep_unnoticed_above : ∃ s,
    run (Pool.step (Task.step fun _ => 0)) (Tasks.init 1 0 [] noExpiry 1) putAbove = some s ∧
      s.shared.engine.log.length = 3 ∧
      get s.shared.engine.layers s.shared.engine.now [107] =
        (newestOf (unswept s.shared.sweeps s.shared.engine.log) [107] fun _ => true).bind
          (Entry.answer s.shared.engine.now) := by
  obtain ⟨s, hs⟩ : ∃ s,
      run (Pool.step (Task.step fun _ => 0)) (Tasks.init 1 0 [] noExpiry 1) putAbove = some s := ⟨_, rfl⟩
  refine ⟨s, hs, by cases hs; rfl, ?_⟩
  exact sweep_unnoticed ⟨by simp, List.Pairwise.nil⟩ 0 noExpiry 1 (by decide +kernel) hs [107]

/-- A client puts the key between the question and the version of the batch. -/
def putBelow : List (Nat × TaskAct) := expires ++ putAgain ++ [(0, .submit), (0, .sweep)]

/-- The sweep deletes what was put. -/
theorem sweep_deletes_live : ∃ s,
    run (Pool.step (Task.step fun _ => 0)) (Tasks.init 1 0 [] noExpiry 1) putBelow = some s ∧
      (newestOf (unswept s.shared.sweeps s.shared.engine.log) [107] fun _ => true).bind
        (Entry.answer s.shared.engine.now) = some [2] ∧
      get s.shared.engine.layers s.shared.engine.now [107] = none :=
  ⟨_, rfl, rfl, rfl⟩

end Client
end AkwaDB
