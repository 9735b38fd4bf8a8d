import AkwaDB.Client.Writers
import AkwaDB.Lib.Timeline
import Mathlib.Data.List.Permutation

/-!
# AkwaDB.Client.Incr

Increments of a key among other writes of it, by any number of writers.

`dispatchIncr` holds a stripe lock from the version to the write, so increments of one key take turns.
Puts, deletes and batches take their versions without it. One that has its version already may be
processed after an increment with a later version, which then counts from a value that is overwritten
before it in the order of versions.

- `incr_linearizable`: while no increment is processed before a write of its key with an earlier version,
  the requests on the key have an order, which respects the real time, in which every increment returns
  the value before it plus its delta and the last write is what the key holds.
-/

namespace AkwaDB
namespace Client

open Txn (TxEntry stamp)

/-! ## Requests on a key, one after the other -/

namespace Done

variable (key : Bytes)

def touches (d : Done) : Bool := decide (key ∈ d.req.keys) && decide (d.res ≠ .failed)

def entry (d : Done) : Option Entry := newestOf d.entries key fun _ => true

/-- The request does what it does alone on a key whose newest entry is `st`; a delete found nothing. -/
def Fits (d : Done) (st : Option Entry) : Prop :=
  match d.req with
  | .put k value expiresAt => d.res = .ok ∧ d.writes = [(k, ⟨value, expiresAt, false⟩)]
  | .delete k =>
    d.res = .existed true ∧ d.writes = [(k, ⟨[], 0, true⟩)] ∨
      d.res = .existed false ∧ d.writes = [] ∧ st.bind (Entry.answer d.now) = none
  | .batch writes => d.res = .ok ∧ d.writes = effective writes
  | .incr k delta =>
    match counter (st.bind (Entry.answer d.now)) with
    | none => d.res = .notAnInteger ∧ d.writes = []
    | some cur =>
      d.res = .val (cur + delta) ∧ ∃ expiresAt, d.writes = [(k, ⟨formatInt (cur + delta), expiresAt, false⟩)]
  | .gcRewrite _ => False

/-- A write stands at its version, and one that writes nothing right after the entry it saw. -/
def time (d : Done) : Nat :=
  if key ∈ d.writes.map Prod.fst then 2 * d.version else 2 * d.seen.elim 0 Entry.version + 1

theorem touches_key {key : Bytes} {d : Done} (h : d.touches key = true) : key ∈ d.req.keys :=
  of_decide_eq_true ((Bool.and_eq_true _ _).mp h).1

def isIncr (d : Done) : Bool :=
  match d.req with
  | .incr _ _ => true
  | _ => false

end Done

/-! ## Increments in turn -/

def Act.request : Act → Option Req
  | .assign req => some req
  | _ => none

def Writer.increment : Writer → Act → Option (Nat × Bytes)
  | .pending version (.incr key _), .process => some (version, key)
  | _, _ => none

/-- No rewrites of the key, rotations in order, and increments only when no earlier write is to come. -/
def InTurn (key : Bytes) (s : Writers) (a : Nat × Act) : Prop :=
  (∀ req ∈ a.2.request, key ∈ req.keys → req.isRewrite = false) ∧
    (a.2.isRotate = true → RotatesApart key s.shared (underway s.procs)) ∧
    ∀ w ∈ s.procs[a.1]?, ∀ i ∈ w.increment a.2, i.2 = key →
      ∀ q ∈ underway s.procs, key ∈ q.2.keys → i.1 ≤ q.1

instance (key : Bytes) (s : Writers) (a : Nat × Act) : Decidable (InTurn key s a) :=
  inferInstanceAs (Decidable ((∀ req ∈ a.2.request, key ∈ req.keys → req.isRewrite = false) ∧
    (a.2.isRotate = true → RotatesApart key s.shared (underway s.procs)) ∧
    ∀ w ∈ s.procs[a.1]?, ∀ i ∈ w.increment a.2, i.2 = key → ∀ q ∈ underway s.procs, _))

/-! ## Places in the order -/

def before (log : List Entry) (key : Bytes) (time : Nat) : Option Entry :=
  newestOf log key fun v => decide (2 * v < time)

/-- A request is at its place: it fits what was before it, and its time is that of an entry. -/
structure Placed (key : Bytes) (log : List Entry) (d : Done) : Prop where
  fits : d.Fits (before log key (d.time key))
  incr : d.isIncr = true → d.time key ≤ 2 * d.version + 1
  anchor : d.time key = 1 ∨ ∃ x ∈ log, x.key = key ∧ x.version ≤ d.ended ∧
    2 * x.version ≤ d.time key ∧ d.time key ≤ 2 * x.version + 1

section
variable {key : Bytes} {log es : List Entry} {d : Done} {version : Nat} {ok : Nat → Bool}

theorem before_seen (hzero : ok 0 = true) (hdown : ∀ v w, v ≤ w → ok w = true → ok v = true) :
    before log key (2 * (newestOf log key ok).elim 0 Entry.version + 1) = newestOf log key ok := by
  refine newestOf_congr fun x hx hk => ?_
  rw [Bool.eq_iff_iff, decide_eq_true_eq]
  cases hfind : newestOf log key ok with
  | none =>
    have hno := newestOf_eq_none hfind hx hk
    have hpos : x.version ≠ 0 := fun h0 => by rw [h0, hzero] at hno; cases hno
    simp only [Option.elim_none, hno, Bool.false_eq_true, iff_false]
    omega
  | some y =>
    constructor
    · intro hlt
      exact hdown _ _ (by simp only [Option.elim_some] at hlt; omega) (mem_newestOf hfind).2.2
    · intro hv
      have := le_newestOf hfind hx hk hv
      simp only [Option.elim_some]
      omega

theorem before_append {time : Nat}
    (h : ∀ x ∈ es, x.key = key → time ≤ 2 * x.version ∨
      ∃ y ∈ log, y.key = key ∧ x.version ≤ y.version ∧ 2 * y.version < time) :
    before (log ++ es) key time = before log key time := by
  rw [before, newestOf, newest_append, ← newestOf, ← newestOf, ← before]
  cases hes : newestOf es key fun v => decide (2 * v < time) with
  | none => exact newerOf_none _ _
  | some x =>
    obtain ⟨hx, hk, hlt⟩ := mem_newestOf hes
    rw [decide_eq_true_eq] at hlt
    rcases h x hx hk with hle | ⟨y, hy, hyk, hle, hyt⟩
    · omega
    · cases hlog : before log key time with
      | none =>
        have := newestOf_eq_none hlog hy hyk
        simp only [decide_eq_false_iff_not] at this
        omega
      | some z =>
        have := le_newestOf hlog hy hyk (by simpa using hyt)
        exact if_neg (by omega)

theorem Done.Fits.congr {st st' : Option Entry} (h : d.Fits st)
    (heq : d.isIncr = true ∨ d.writes = [] → st' = st) : d.Fits st' := by
  unfold Done.Fits at h ⊢
  unfold Done.isIncr at heq
  cases hreq : d.req with
  | put k value expiresAt =>
    rw [hreq] at h
    exact h
  | delete k =>
    rw [hreq] at h
    refine h.imp_right fun ⟨hres, hw, hst⟩ => ⟨hres, hw, ?_⟩
    rw [heq (Or.inr hw)]
    exact hst
  | batch writes =>
    rw [hreq] at h
    exact h
  | incr k delta =>
    rw [hreq] at h
    rw [heq (Or.inl (by rw [hreq]))]
    exact h
  | gcRewrite r =>
    rw [hreq] at h
    exact h

theorem Placed.grow (h : Placed key log d) (hpos : ∀ x ∈ es, 0 < x.version)
    (hlater : d.isIncr = true → ∀ x ∈ es, x.key = key → d.version < x.version) :
    Placed key (log ++ es) d := by
  refine ⟨h.fits.congr fun hd => before_append fun x hx hk => ?_, h.incr, ?_⟩
  · rcases hd with hd | hd
    · have := h.incr hd
      have := hlater hd x hx hk
      exact Or.inl (by omega)
    · have hodd : d.time key = 2 * d.seen.elim 0 Entry.version + 1 := by simp [Done.time, hd]
      have := hpos x hx
      rcases h.anchor with h1 | ⟨y, hy, hyk, _, hle, hle'⟩
      · exact Or.inl (by omega)
      · rcases Nat.lt_or_ge y.version x.version with hxy | hxy
        · exact Or.inl (by omega)
        · exact Or.inr ⟨y, hy, hyk, hxy, by omega⟩
  · refine h.anchor.imp_right ?_
    rintro ⟨x, hx, hrest⟩
    exact ⟨x, List.mem_append_left _ hx, hrest⟩

/-- The time of a request is past what was written of the key before its version. -/
def Reaches (key : Bytes) (log : List Entry) (d : Done) : Prop :=
  ∀ y ∈ log, y.key = key → y.version < d.version → 2 * y.version + 1 ≤ d.time key

theorem placed_write (hw : key ∈ d.writes.map Prod.fst) (hend : d.version ≤ d.ended)
    (hfits : d.Fits (before log key (2 * d.version))) :
    Placed key (log ++ d.entries) d ∧ Reaches key log d := by
  have htime : d.time key = 2 * d.version := if_pos hw
  have hver : ∀ x ∈ d.entries, x.version = d.version := fun x hx => mem_entries hx
  refine ⟨⟨?_, fun _ => by omega, Or.inr ?_⟩, fun y _ _ hlt => by omega⟩
  · rw [htime, before_append fun x hx _ => Or.inl (by rw [hver x hx])]
    exact hfits
  · obtain ⟨w, hmem, rfl⟩ := List.mem_map.mp hw
    refine ⟨⟨w.1, w.2.value, w.2.deleted, w.2.expiresAt, d.version⟩,
      List.mem_append_right _ (List.mem_map.mpr ⟨w, hmem, rfl⟩), rfl, hend, ?_, ?_⟩
    · rw [htime]
    · rw [htime]
      exact Nat.le_succ _

theorem placed_read (hw : d.writes = []) (hseen : d.seen = newestOf log key ok) (hzero : ok 0 = true)
    (hdown : ∀ v w, v ≤ w → ok w = true → ok v = true) (hall : ∀ v, v < d.version → ok v = true)
    (hincr : d.isIncr = true → ∀ v, ok v = true → v ≤ d.version) (hend : ∀ x ∈ log, x.version ≤ d.ended)
    (hfits : d.Fits d.seen) : Placed key log d ∧ Reaches key log d := by
  have htime : d.time key = 2 * (newestOf log key ok).elim 0 Entry.version + 1 := by
    simp [Done.time, hw, hseen]
  refine ⟨⟨?_, fun hd => ?_, ?_⟩, fun y hy hk hlt => ?_⟩
  · rw [htime, before_seen hzero hdown, ← hseen]
    exact hfits
  · rw [htime]
    cases hfind : newestOf log key ok with
    | none => simp
    | some x =>
      have := hincr hd x.version (mem_newestOf hfind).2.2
      simp only [Option.elim_some]
      omega
  · rw [htime]
    cases hfind : newestOf log key ok with
    | none => exact Or.inl rfl
    | some x =>
      obtain ⟨hx, hk, _⟩ := mem_newestOf hfind
      exact Or.inr ⟨x, hx, hk, hend x hx, Nat.le_succ _, Nat.le_refl _⟩
  · rw [htime]
    cases hfind : newestOf log key ok with
    | none =>
      have := newestOf_eq_none hfind hy hk
      rw [hall _ hlt] at this
      cases this
    | some x =>
      have := le_newestOf hfind hy hk (hall _ hlt)
      simp only [Option.elim_some]
      omega

end

section
variable {xxhash : Bytes → UInt64} {n : Nat} {key : Bytes} {base : List Entry} {sh sh' : Shared} {a : Act}
  {ps ps' : List (Nat × Req)} {l r : List Writer} {w w' : Writer} {version : Nat} {req : Req}

theorem placed_processed (hn : Numbered n base sh ps) (hal : Aligned key sh ps) (hp : (version, req) ∈ ps)
    (hkey : key ∈ req.keys) (hreq : req.isRewrite = false) {res : Res} {writes : List (Bytes × TxEntry)}
    (hout : req.process version sh.now sh.layers = (res, writes)) :
    Placed key (sh.log ++ (sh.record version req res writes).entries) (sh.record version req res writes) ∧
      Reaches key sh.log (sh.record version req res writes) := by
  have hend : version ≤ sh.nextTs := (hn.range version (List.mem_append_left _ (List.mem_map_of_mem hp))).2
  have hnil : sh.log ++ (sh.record version req res []).entries = sh.log := List.append_nil _
  cases req with
  | put k value expiresAt =>
    obtain rfl := List.mem_singleton.mp hkey
    cases hout
    exact placed_write List.mem_cons_self hend ⟨rfl, rfl⟩
  | batch writes =>
    cases hout
    exact placed_write (effective_keys hkey) hend ⟨rfl, rfl⟩
  | delete k =>
    obtain rfl := List.mem_singleton.mp hkey
    rw [Req.process] at hout
    cases hget : get sh.layers sh.now key with
    | none =>
      rw [hget] at hout
      cases hout
      rw [hnil]
      exact placed_read rfl (hal.find_eq _) rfl (fun _ _ _ _ => rfl) (fun _ _ => rfl)
        (fun h => absurd h (by simp [Done.isIncr, Shared.record])) hn.log_le (Or.inr ⟨rfl, rfl, hget⟩)
    | some v =>
      rw [hget] at hout
      cases hout
      exact placed_write List.mem_cons_self hend (Or.inl ⟨rfl, rfl⟩)
  | incr k delta =>
    obtain rfl := List.mem_singleton.mp hkey
    have hfind := hal.find_eq fun v => decide (v ≤ version)
    rw [Req.process, getForReadAt, hfind] at hout
    cases hcount : counter ((newestOf sh.log key fun v => decide (v ≤ version)).bind (Entry.answer sh.now)) with
    | none =>
      rw [hcount] at hout
      cases hout
      rw [hnil]
      refine placed_read rfl hfind (by simp) (fun v w hvw hw => ?_) (fun v hv => ?_) (fun _ v hv => ?_)
        hn.log_le ?_
      · simp only [decide_eq_true_eq] at hw ⊢
        omega
      · exact decide_eq_true (Nat.le_of_lt hv)
      · exact of_decide_eq_true hv
      · simp [Done.Fits, Shared.record, Shared.sees, hfind, hcount]
    | some cur =>
      rw [hcount] at hout
      cases hout
      refine placed_write List.mem_cons_self hend ?_
      -- its version is not in the log yet
      have hbefore : before sh.log key (2 * version) = newestOf sh.log key fun v => decide (v ≤ version) := by
        refine newestOf_congr fun x hx _ => ?_
        have := hn.log_ne hp x hx
        rw [decide_eq_decide]
        omega
      simp [Done.Fits, Shared.record, hbefore, hcount]
  | gcRewrite r => cases hreq

/-- Each request that is done is at its place, and the times follow the order of ends and begins. -/
structure InOrder (key : Bytes) (base : List Entry) (sh : Shared) (ps : List (Nat × Req)) : Prop where
  client : ∀ q ∈ ps, key ∈ q.2.keys → q.2.isRewrite = false
  own : ∀ d ∈ sh.done, ∀ w ∈ d.writes, w.1 ∈ d.req.keys ∧ d.res ≠ .failed
  placed : ∀ d ∈ sh.done, d.touches key = true → Placed key sh.log d
  start : ∀ d ∈ sh.done, d.touches key = true → ∀ x ∈ base, x.key = key → 2 * x.version < d.time key
  later : ∀ d ∈ sh.done, d.touches key = true → d.isIncr = true →
    ∀ q ∈ ps, key ∈ q.2.keys → d.version < q.1
  times : sh.done.Pairwise fun a b => a.version ≤ b.ended ∧
    (a.touches key = true → b.touches key = true → a.ended < b.version → a.time key ≤ b.time key)

theorem Req.process_ne_failed (version : Nat) (now : Int) (layers : List (List Entry)) (req : Req) :
    (req.process version now layers).1 ≠ .failed := by
  fun_cases Req.process version now layers req
  all_goals simp

theorem InOrder.finish (h : InOrder key base sh ps) (hn : Numbered n base sh ps)
    (hps : ps.Perm ((version, req) :: ps')) (lock : Option Nat) {res : Res} {writes : List (Bytes × TxEntry)}
    (hown : ∀ w ∈ writes, w.1 ∈ req.keys ∧ res ≠ .failed)
    (hnew : (sh.record version req res writes).touches key = true →
      Placed key (sh.log ++ (sh.record version req res writes).entries) (sh.record version req res writes) ∧
        Reaches key sh.log (sh.record version req res writes))
    (hturn : (sh.record version req res writes).touches key = true →
      (sh.record version req res writes).isIncr = true → ∀ q ∈ ps', key ∈ q.2.keys → version < q.1) :
    InOrder key base (sh.finish lock version req res writes) ps' := by
  have hp : (version, req) ∈ ps := hps.mem_iff.mpr List.mem_cons_self
  have hsub : ∀ q ∈ ps', q ∈ ps := fun q hq => hps.mem_iff.mpr (List.mem_cons_of_mem _ hq)
  have hpos := (hn.range version (List.mem_append_left _ (List.mem_map_of_mem hp))).1
  -- a property of every request that is done, with the new one
  have hall : ∀ {P : Done → Prop}, (∀ d ∈ sh.done, P d) → P (sh.record version req res writes) →
      ∀ d ∈ (sh.finish lock version req res writes).done, P d := by
    intro P hold hrec d hd
    rcases List.mem_append.mp hd with hd | hd
    · exact hold d hd
    · exact List.mem_singleton.mp hd ▸ hrec
  refine ⟨fun q hq => h.client q (hsub q hq), hall h.own hown, hall ?_ ?_, hall h.start ?_, hall ?_ hturn,
    List.pairwise_append.mpr ⟨h.times, List.pairwise_singleton _ _, ?_⟩⟩
  · intro d hd ht
    rw [Shared.log_finish]
    refine (h.placed d hd ht).grow (fun x hx => ?_) fun hi x hx hk => ?_
    · obtain ⟨w, _, rfl⟩ := List.mem_map.mp hx
      exact Nat.zero_lt_of_lt hpos
    · obtain ⟨w, hw, rfl⟩ := List.mem_map.mp hx
      exact h.later d hd ht hi _ hp (hk ▸ (hown w hw).1)
  · intro ht
    rw [Shared.log_finish]
    exact (hnew ht).1
  · intro ht x hx hk
    have hxn := hn.base x hx
    exact (hnew ht).2 x (hn.log ▸ List.mem_append_left _ hx) hk (Nat.lt_of_le_of_lt hxn hpos)
  · intro d hd ht hi q hq
    exact h.later d hd ht hi q (hsub q hq)
  · intro d hd e he
    obtain rfl := List.mem_singleton.mp he
    refine ⟨(hn.range d.version (List.mem_append_right _ (List.mem_map_of_mem hd))).2, fun hdt het hlt => ?_⟩
    rcases (h.placed d hd hdt).anchor with hone | ⟨x, hx, hk, hle, _, htime⟩
    · rw [hone, Done.time]
      split
      · show 1 ≤ 2 * version
        omega
      · exact Nat.le_add_left _ _
    · exact Nat.le_trans htime ((hnew het).2 x hx hk (Nat.lt_of_le_of_lt hle hlt))

theorem inOrder_step (h : InOrder key base sh (underway (l ++ w :: r)))
    (hn : Numbered n base sh (underway (l ++ w :: r))) (hal : Aligned key sh (underway (l ++ w :: r)))
    (hclient : ∀ req ∈ a.request, key ∈ req.keys → req.isRewrite = false)
    (hturn : ∀ i ∈ w.increment a, i.2 = key →
      ∀ q ∈ underway (l ++ w :: r), key ∈ q.2.keys → i.1 ≤ q.1)
    (hm : w.Moves xxhash sh a sh' w') : InOrder key base sh' (underway (l ++ w' :: r)) := by
  cases hm with
  | assign req hfree =>
    have hps := underway_done (l := l) (r := r) (sh.nextTs + 1) req
    refine ⟨fun q hq hk => ?_, h.own, h.placed, h.start, fun d hd ht hi q hq hk => ?_, h.times⟩
    · rcases List.mem_cons.mp (hps.mem_iff.mp hq) with rfl | hq
      · exact hclient req rfl hk
      · exact h.client q hq hk
    · rcases List.mem_cons.mp (hps.mem_iff.mp hq) with rfl | hq
      · exact Nat.lt_succ_of_le (hn.range _ (List.mem_append_right _ (List.mem_map_of_mem hd))).2
      · exact h.later d hd ht hi q hq hk
  | process version req =>
    have hps := underway_done (l := l) (r := r) version req
    have hp : (version, req) ∈ underway (l ++ .pending version req :: r) :=
      hps.mem_iff.mpr List.mem_cons_self
    have hkeys := (req.process_spec version sh.now sh.layers).2
    refine h.finish hn hps _ (fun w hw => ⟨hkeys w hw, req.process_ne_failed _ _ _⟩) ?_ ?_
    · intro ht
      have hkey : key ∈ req.keys := Done.touches_key ht
      exact placed_processed hn hal hp hkey (h.client _ hp hkey) rfl
    · intro ht hi q hq hk
      have hkey : key ∈ req.keys := Done.touches_key ht
      have hle : version ≤ q.1 := by
        cases req with
        | incr k delta =>
          obtain rfl := List.mem_singleton.mp hkey
          exact hturn (version, key) rfl rfl q (hps.mem_iff.mpr (List.mem_cons_of_mem _ hq)) hk
        | _ => simp [Done.isIncr, Shared.record] at hi
      have := hn.pending_ne hps q hq
      omega
  | fail version req =>
    refine h.finish hn (underway_done version req) _ (by simp) ?_ ?_ <;>
      intro ht <;> simp [Done.touches, Shared.record] at ht
  | rotate w =>
    have hlog := sh.log_rotate
    exact ⟨h.client, h.own, by rw [hlog]; exact h.placed, h.start, h.later, h.times⟩
  | tick seconds w => exact ⟨h.client, h.own, h.placed, h.start, h.later, h.times⟩

/-! ## The order of the requests -/

theorem Done.entry_spec {d : Done} {x : Entry} (h : d.entry key = some x) :
    x ∈ d.entries ∧ x.key = key ∧ x.version = d.version ∧ d.time key = 2 * d.version := by
  obtain ⟨hx, hk, _⟩ := mem_newestOf h
  obtain ⟨w, hw, rfl⟩ := List.mem_map.mp hx
  exact ⟨hx, hk, rfl, if_pos (List.mem_map.mpr ⟨w, hw, hk⟩)⟩

theorem leaves_newestOf {pre : List Done} {ok : Nat → Bool} (hn : Numbered n base sh ps)
    (h : InOrder key base sh ps) (hpre : ∀ d ∈ pre, d ∈ sh.done)
    (hsorted : pre.Pairwise fun a b => a.time key ≤ b.time key ∧ a.version ≠ b.version)
    (hbase : ∀ x ∈ base, x.key = key → ok x.version = true)
    (hmem : ∀ d ∈ sh.done, d.touches key = true → d.time key = 2 * d.version →
      (ok d.version = true ↔ d ∈ pre)) :
    leaves (Done.entry key) (newestOf base key fun _ => true) pre = newestOf sh.log key ok := by
  have hin : ∀ d ∈ pre, ∀ x ∈ d.entry key, x ∈ sh.done.flatMap Done.entries := fun d hd x hx =>
    List.mem_flatMap.mpr ⟨d, hpre d hd, (Done.entry_spec hx).1⟩
  have hstart : newestOf base key ok = newestOf base key fun _ => true :=
    newestOf_congr fun x hx hk => hbase x hx hk
  have hdone : ∀ {d x}, d ∈ sh.done → x ∈ d.entries → x.key = key → d.touches key = true ∧
      d.entry key = some x := by
    intro d x hd hx hk
    obtain ⟨w, hw, rfl⟩ := List.mem_map.mp hx
    refine ⟨?_, newestOf_stamp (hn.once d hd) hx hk⟩
    simpa [Done.touches, ← hk] using h.own d hd w hw
  have hsame : newestOf (sh.done.flatMap Done.entries) key ok =
      newestOf (pre.filterMap (Done.entry key)) key fun _ => true := by
    refine newest_congr (hn.separates key ok) fun x => ?_
    rw [Entry.hits_iff, Entry.hits_iff]
    constructor
    · rintro ⟨hx, hk, hv⟩
      obtain ⟨d, hd, hx⟩ := List.mem_flatMap.mp hx
      obtain ⟨ht, hentry⟩ := hdone hd hx hk
      rw [mem_entries hx] at hv
      have hdpre := (hmem d hd ht (Done.entry_spec hentry).2.2.2).mp hv
      exact ⟨List.mem_filterMap.mpr ⟨d, hdpre, hentry⟩, hk, rfl⟩
    · rintro ⟨hx, hk, _⟩
      obtain ⟨d, hd, hentry⟩ := List.mem_filterMap.mp hx
      obtain ⟨hxd, _, hv, htime⟩ := Done.entry_spec hentry
      refine ⟨hin d hd x hentry, hk, ?_⟩
      rw [hv]
      exact (hmem d (hpre d hd) (hdone (hpre d hd) hxd hk).1 htime).mpr hd
  have hlt : ∀ x ∈ base, ∀ y ∈ sh.done.flatMap Done.entries, x.version < y.version := fun x hx y hy =>
    Nat.lt_of_le_of_lt (hn.base x hx) (hn.log_new y hy)
  have hbefore : ∀ x ∈ base, ∀ y ∈ pre.filterMap (Done.entry key), x.version < y.version := by
    intro x hx y hy
    obtain ⟨d, hd, hentry⟩ := List.mem_filterMap.mp hy
    exact hlt x hx y (hin d hd y hentry)
  have hascend : pre.Pairwise fun a b => ∀ x ∈ a.entry key, ∀ y ∈ b.entry key, x.version < y.version := by
    refine hsorted.imp fun ⟨htime, hne⟩ x hx y hy => ?_
    obtain ⟨_, _, hxv, hxt⟩ := Done.entry_spec hx
    obtain ⟨_, _, hyv, hyt⟩ := Done.entry_spec hy
    omega
  calc leaves (Done.entry key) (newestOf base key fun _ => true) pre
      = newestOf (base ++ pre.filterMap (Done.entry key)) key fun _ => true :=
        foldl_entry_newest (fun x hx d hd y hy => hlt x hx y (hin d hd y hy)) hascend
          fun d _ x hx => by simp [Entry.hits, (Done.entry_spec hx).2.1]
    _ = (newestOf (pre.filterMap (Done.entry key)) key fun _ => true).or (newestOf base key fun _ => true) :=
        newest_append_of_lt fun x hx y hy _ _ => hbefore x hx y hy
    _ = (newestOf (sh.done.flatMap Done.entries) key ok).or (newestOf base key ok) := by
        rw [hsame, hstart]
    _ = newestOf sh.log key ok := by
        rw [hn.log]
        exact (newest_append_of_lt fun x hx y hy _ _ => hlt x hx y hy).symm

theorem replays_timeline (hn : Numbered n base sh ps) (h : InOrder key base sh ps) :
    Replays Done.Fits (Done.entry key) (newestOf base key fun _ => true)
      (timeline (Done.time key) (sh.done.filter (Done.touches key))) (newestOf sh.log key fun _ => true) := by
  have hperm := timeline_perm (Done.time key) (sh.done.filter (Done.touches key))
  have hin : ∀ {d}, d ∈ timeline (Done.time key) (sh.done.filter (Done.touches key)) ↔
      d ∈ sh.done ∧ d.touches key = true := fun {d} => hperm.mem_iff.trans List.mem_filter
  have hsorted : (timeline (Done.time key) (sh.done.filter (Done.touches key))).Pairwise
      fun a b => a.time key ≤ b.time key ∧ a.version ≠ b.version := by
    refine (timeline_sorted _ _).and (List.pairwise_map.mp ?_)
    refine (hperm.map Done.version).nodup_iff.mpr ?_
    exact (List.nodup_append.mp hn.nodup).2.1.sublist (List.filter_sublist.map Done.version)
  have hfinal : leaves (Done.entry key) (newestOf base key fun _ => true)
      (timeline (Done.time key) (sh.done.filter (Done.touches key))) = newestOf sh.log key fun _ => true :=
    leaves_newestOf hn h (fun d hd => (hin.mp hd).1) hsorted (fun _ _ _ => rfl)
      fun d hd ht _ => ⟨fun _ => hin.mpr ⟨hd, ht⟩, fun _ => rfl⟩
  rw [← hfinal]
  refine replays_of_prefixes fun pre d post heq => ?_
  have hd : d ∈ sh.done ∧ d.touches key = true := hin.mp (heq ▸ by simp)
  have hpre : ∀ e ∈ pre, e ∈ sh.done := fun e he => (hin.mp (heq ▸ List.mem_append_left _ he)).1
  rw [heq] at hsorted hin
  obtain ⟨hsort, hpost, hcross⟩ := List.pairwise_append.mp hsorted
  have hleaves := @leaves_newestOf _ _ _ _ _ pre (fun v => decide (2 * v < d.time key)) hn h hpre hsort
  rw [hleaves]
  · exact (h.placed d hd.1 hd.2).fits
  · exact fun x hx hk => decide_eq_true (h.start d hd.1 hd.2 x hx hk)
  · intro e he het htime
    rw [decide_eq_true_eq, ← htime]
    constructor
    · intro hlt
      rcases List.mem_append.mp (hin.mpr ⟨he, het⟩) with hmem | hmem
      · exact hmem
      · -- what is not earlier in the order is not earlier in time
        rcases List.mem_cons.mp hmem with rfl | hmem
        · omega
        · have := ((List.pairwise_cons.mp hpost).1 e hmem).1
          omega
    · intro hmem
      obtain ⟨hle, hne⟩ := hcross e hmem d List.mem_cons_self
      refine Nat.lt_of_le_of_ne hle fun heven => hne ?_
      rw [htime, Done.time] at heven
      split at heven
      · omega
      · omega

structure Counted (n : Nat) (key : Bytes) (base : List Entry) (s : Writers) : Prop where
  numbered : Numbered n base s.shared (underway s.procs)
  aligned : Aligned key s.shared (underway s.procs)
  inOrder : InOrder key base s.shared (underway s.procs)

theorem counted_step {s s' : Writers} {a : Nat × Act} (h : Counted n key base s) (hok : InTurn key s a)
    (hs : Pool.step (Writer.step xxhash) s a = some s') : Counted n key base s' := by
  obtain ⟨l, w, r, w', hw, hl, hstep, hl'⟩ := Pool.step_split hs
  obtain ⟨hclient, hrot, hturn⟩ := hok
  have hturn := hturn w hw
  obtain ⟨hn, hal, hord⟩ := h
  rw [hl] at hn hal hord hturn hrot
  have hm := Writer.moves_of_step hstep
  refine ⟨?_, ?_, ?_⟩ <;> rw [hl']
  · exact numbered_step hn hm
  · exact aligned_step hal hn hm hrot
  · exact inOrder_step hord hn hal hclient hturn hm

/-- **Increments are linearizable with the other writes of their key.** -/
theorem incr_linearizable {layers : List (List Entry)} (hbase : Stored n layers) (now : Int) (count : Nat)
    {as : List (Nat × Act)} {s : Writers}
    (hg : Guarded (Pool.step (Writer.step xxhash)) (InTurn key) (Writers.init n now layers count) as)
    (hr : run (Pool.step (Writer.step xxhash)) (Writers.init n now layers count) as = some s) :
    ∃ order : List Done, order.Perm (s.shared.done.filter (Done.touches key)) ∧
      order.Pairwise (fun a b => ¬ b.ended < a.version) ∧
      Replays Done.Fits (Done.entry key) (find layers key fun _ => true) order
        (find s.shared.layers key fun _ => true) := by
  have hinv : Counted n key layers.reverse.flatten s := by
    refine run_invariant counted_step ⟨?_, ?_, ?_⟩ hg hr <;> rw [Writers.init, underway_init]
    · exact numbered_start hbase now
    · exact aligned_start hbase now key
    · constructor <;> simp [Shared.start]
  obtain ⟨hn, hal, hord⟩ := hinv
  have hstart : find layers key (fun _ => true) = newestOf layers.reverse.flatten key fun _ => true := by
    refine layered_eq_newest (hbase.descends.imp fun hab x hx y hy hpx hpy => hab x hx y hy ?_)
    exact Entry.key_eq_of_hits hpx hpy
  refine ⟨timeline (Done.time key) (s.shared.done.filter (Done.touches key)), timeline_perm _ _, ?_, ?_⟩
  · refine pairwise_timeline (List.pairwise_filter.mpr (hord.times.imp fun {a b} hab ha hb => ?_))
    refine ⟨Nat.not_lt.mpr hab.1, fun hlt hend => ?_⟩
    have := hab.2 ha hb hend
    omega
  · rw [hstart, hal.find_eq]
    exact replays_timeline hn hord

end

/-! ## A put and an increment -/

def putFirst : List (Nat × Act) :=
  [(0, .assign (.put [107] (formatInt 10) 0)), (1, .assign (.incr [107] 1)), (0, .process), (1, .process),
   (0, .rotate), (0, .assign (.incr [107] 5)), (0, .process)]

theorem incr_linearizable_putFirst : ∃ s,
    run (Pool.step (Writer.step fun _ => 0)) (Writers.init 1 0 [] 2) putFirst = some s ∧
      s.shared.done.map Done.res = [.ok, .val 11, .val 16] ∧
      ∃ order : List Done, order.Perm (s.shared.done.filter (Done.touches [107])) ∧
        order.Pairwise (fun a b => ¬ b.ended < a.version) ∧
        Replays Done.Fits (Done.entry [107]) (find [] [107] fun _ => true) order
          (find s.shared.layers [107] fun _ => true) := by
  obtain ⟨s, hs⟩ : ∃ s,
      run (Pool.step (Writer.step fun _ => 0)) (Writers.init 1 0 [] 2) putFirst = some s := ⟨_, rfl⟩
  refine ⟨s, hs, by cases hs; decide +kernel, ?_⟩
  exact incr_linearizable ⟨by simp, List.Pairwise.nil⟩ 0 2 (by decide +kernel) hs

def putLast : List (Nat × Act) :=
  [(0, .assign (.put [107] (formatInt 10) 0)), (1, .assign (.incr [107] 1)), (1, .process), (0, .process)]

def incrOfNothing : Done := ⟨3, .incr [107] 1, 3, 0, none, .val 1, [([107], ⟨formatInt 1, 0, false⟩)]⟩

def putUnder : Done :=
  ⟨2, .put [107] (formatInt 10) 0, 3, 0, none, .ok, [([107], ⟨formatInt 10, 0, false⟩)]⟩

/-- The increment neither follows the put nor precedes it. -/
theorem incr_out_of_turn : ∃ s,
    run (Pool.step (Writer.step fun _ => 0)) (Writers.init 1 0 [] 2) putLast = some s ∧
      s.shared.done = [incrOfNothing, putUnder] ∧ get s.shared.layers 0 [107] = some (formatInt 1) ∧
      ∀ order : List Done, order.Perm (s.shared.done.filter (Done.touches [107])) →
        ¬ Replays Done.Fits (Done.entry [107]) none order (find s.shared.layers [107] fun _ => true) := by
  obtain ⟨s, hs, hdone, hget, hfind⟩ : ∃ s,
      run (Pool.step (Writer.step fun _ => 0)) (Writers.init 1 0 [] 2) putLast = some s ∧
        s.shared.done = [incrOfNothing, putUnder] ∧ get s.shared.layers 0 [107] = some (formatInt 1) ∧
        (find s.shared.layers [107] fun _ => true) = some ⟨[107], formatInt 1, false, 0, 3⟩ :=
    ⟨_, rfl, rfl, rfl, rfl⟩
  refine ⟨s, hs, hdone, hget, fun order hperm hrep => ?_⟩
  have hboth : [incrOfNothing, putUnder].filter (Done.touches [107]) = [incrOfNothing, putUnder] := rfl
  rw [hdone, hboth] at hperm
  rw [hfind] at hrep
  rcases List.perm_pair.mp hperm with rfl | rfl
  · have hlast : (putUnder.entry [107]).or ((incrOfNothing.entry [107]).or none) =
        some ⟨[107], formatInt 1, false, 0, 3⟩ := hrep.2.2
    exact absurd hlast (by decide)
  · have hres : incrOfNothing.res = .val 11 := hrep.2.1.1
    exact absurd hres (by decide)

end Client
end AkwaDB
