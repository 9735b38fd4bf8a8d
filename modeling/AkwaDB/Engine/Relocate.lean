import AkwaDB.Engine.Read
import AkwaDB.Vlog.Torn

/-!
# AkwaDB.Engine.Relocate

The rewrite loop of `runValueLogGCInternal`: the entries of a segment are read, and each one whose key still
points at it is to be written again.

`gcRewrite` asks `getWithoutLock` for the value of the key, and that follows pointers. So what it takes for a
pointer, and compares with the place it expects, are the bytes that the user stored. An entry is written again
only if these happen to be the seventeen bytes of a pointer to it.

* `lookup_rewriteAll` — what becomes of a key, in terms of `carried`: the entries its value leads to when it is
  read as a pointer, one after the other,
* `relocated_iff` — every value is out of the segment and unchanged exactly if each leads back to itself.
-/

namespace AkwaDB
namespace Relocate

open Engine (putNode)
open Vlog (OpenSegment Segment ValueEntry ValueLog decodeValuePointer isValuePointer opPut resolveValue)
open Wal (ValuePointer encodeValuePointer)

structure Store where
  engine : Engine
  vl : ValueLog

/-- The headers of segments that are begun, whether one is encrypted, and the clock. -/
structure Env where
  cfg : Config
  fresh : Nat → Segment
  encrypted : UInt32 → Bool
  clock : Nat → Int

def opDelete : UInt8 := 2

def Store.newest (env : Env) (s : Store) (k : Bytes) : Option Entry := s.engine.lookup env.cfg k fun _ => true

def current (fid : UInt32) (item : ValueEntry × Nat) (cur : Bytes) : Bool :=
  isValuePointer cur && decide ((decodeValuePointer cur).fid = fid) &&
    decide ((decodeValuePointer cur).offset = UInt64.ofNat item.2)

/-- `gcRewrite`, under the version of its request; `none` is an error of the value log. -/
def gcRewrite (env : Env) (fresh : Segment) (fid : UInt32) (item : ValueEntry × Nat) (s : Store) : Option Store :=
  match s.engine.getWithoutLock env.cfg s.vl item.1.key with
  | .error _ => some { s with engine := s.engine.dispatch fun _ => none }
  | .ok cur =>
    if current fid item cur = true then
      (s.vl.write fresh { item.1 with op := opPut }).map fun w =>
        ⟨s.engine.dispatch (putNode item.1.key (encodeValuePointer w.1) item.1.expiresAt.toInt), w.2⟩
    else some { s with engine := s.engine.dispatch fun _ => none }

def Store.tick (s : Store) (now : Int) : Store := { s with engine := { s.engine with now } }

/-- The requests one after the other; time passes between them. -/
def rewriteAll (env : Env) (fid : UInt32) : Nat → List (ValueEntry × Nat) → Store → Option Store
  | _, [], s => some s
  | i, item :: items, s =>
    (gcRewrite env (env.fresh i) fid item (s.tick (env.clock i))).bind (rewriteAll env fid (i + 1) items)

def entriesToRewrite (found : List (ValueEntry × Nat)) : List (ValueEntry × Nat) :=
  found.filter fun p => decide (p.1.op ≠ opDelete) && decide (p.1.value ≠ [])

def itemsOf (env : Env) (fid : UInt32) (vl : ValueLog) : Option (List (ValueEntry × Nat)) :=
  (vl.segments fid).bind fun g => (OpenSegment.mk g.bytes g.ks (env.encrypted fid)).recover.map entriesToRewrite

/-- `runValueLogGCInternal` up to the end of the loop. -/
def rewriteSegment (env : Env) (fid : UInt32) (s : Store) : Option Store :=
  (itemsOf env fid s.vl).bind fun items => rewriteAll env fid 0 items s

/-! ## What is to hold -/

def Into (fid : UInt32) (x : Entry) : Prop :=
  x.deleted = false ∧ isValuePointer x.value = true ∧ (decodeValuePointer x.value).fid = fid

/-- No newest version points into `fid`; those that did are pointers to the same value and expiry. -/
structure Relocated (env : Env) (fid : UInt32) (s s' : Store) : Prop where
  none_into : ∀ k x, s'.newest env k = some x → ¬ Into fid x
  same : ∀ k x, s.newest env k = some x → Into fid x → ∃ x', s'.newest env k = some x' ∧
    x'.deleted = false ∧ isValuePointer x'.value = true ∧ x'.expiresAt = x.expiresAt ∧
    resolveValue s'.vl x'.value = resolveValue s.vl x.value

def expiredAt (now expiresAt : Int) : Bool := decide (0 < expiresAt) && decide (expiresAt ≤ now)

/-- The value and the expiry that a key comes to when its value is taken for a pointer to an entry of the
segment, and so on with the value of that entry; `none` if it never is one. -/
def carried (env : Env) (fid : UInt32) (k : Bytes) : Nat → List (ValueEntry × Nat) → Bytes × Int → Option (Bytes × Int)
  | _, [], _ => none
  | i, item :: items, cur =>
    if item.1.key = k ∧ expiredAt (env.clock i) cur.2 = false ∧ current fid item cur.1 = true then
      let next := (item.1.value, item.1.expiresAt.toInt)
      some ((carried env fid k (i + 1) items next).getD next)
    else carried env fid k (i + 1) items cur

/-- Every value in the segment that is a newest version leads back to itself. -/
def LeadBack (env : Env) (fid : UInt32) (items : List (ValueEntry × Nat)) (s : Store) : Prop :=
  ∀ k x, s.newest env k = some x → Into fid x →
    ∃ v, resolveValue s.vl x.value = some v ∧ carried env fid k 0 items (v, x.expiresAt) = some (v, x.expiresAt)

/-- The segment is closed, and `n` more can be begun before the numbers run out. -/
def Behind (fid : UInt32) (vl : ValueLog) (n : Nat) : Prop :=
  fid.toNat < vl.active.toNat ∧ vl.active.toNat + n < 2 ^ 32

def Recent (e : Engine) : Prop := ∀ x ∈ e.mem.nodes, x.version ≤ e.oracle.nextTs

section Write
variable {fid : UInt32} {vl vl' : ValueLog} {e : ValueEntry} {vp : ValuePointer} {n : Nat}

theorem active_makeRoom (fresh : Segment) (h : Behind fid vl (n + 1)) : Behind fid (vl.makeRoom fresh) n := by
  obtain ⟨hlt, hroom⟩ := h
  unfold ValueLog.makeRoom
  split
  · split
    · have hnext : (vl.active + 1).toNat = vl.active.toNat + 1 := by
        rw [UInt32.toNat_add, UInt32.toNat_one, Nat.mod_eq_of_lt (by omega)]
      refine ⟨?_, ?_⟩
      · show fid.toNat < (vl.active + 1).toNat
        omega
      · show (vl.active + 1).toNat + n < _
        omega
    · exact ⟨hlt, by omega⟩
  · exact ⟨hlt, by omega⟩

theorem segments_makeRoom (fresh : Segment) (h : Behind fid vl (n + 1)) :
    (vl.makeRoom fresh).segments fid = vl.segments fid := by
  obtain ⟨hlt, hroom⟩ := h
  unfold ValueLog.makeRoom
  split
  · split
    · refine if_neg fun heq => ?_
      rw [heq, UInt32.toNat_add, UInt32.toNat_one, Nat.mod_eq_of_lt (by omega)] at hlt
      omega
    · rfl
  · rfl

theorem write_behind {fresh : Segment} (h : Behind fid vl (n + 1)) (hw : vl.write fresh e = some (vp, vl')) :
    Behind fid vl' n ∧ vp.fid ≠ fid ∧ vl'.segments fid = vl.segments fid := by
  have hroom := active_makeRoom fresh h
  have hsame := segments_makeRoom fresh h
  obtain ⟨s, -, hw⟩ := Option.bind_eq_some_iff.mp hw
  obtain ⟨⟨offset, s'⟩, -, heq⟩ := Option.map_eq_some_iff.mp hw
  cases heq
  have hne : fid ≠ (vl.makeRoom fresh).active := fun heq => by
    have := hroom.1
    rw [← heq] at this
    omega
  exact ⟨hroom, hne.symm, (if_neg hne).trans hsame⟩

end Write

section Request
variable {env : Env} {fid : UInt32} {item : ValueEntry × Nat} {fresh : Segment} {s s' : Store} {k : Bytes} {n : Nat}

theorem gcRewrite_cases (h : gcRewrite env fresh fid item s = some s') :
    (s' = { s with engine := s.engine.dispatch fun _ => none } ∧
      ∀ cur, s.engine.getWithoutLock env.cfg s.vl item.1.key = .ok cur → current fid item cur = false) ∨
    ∃ cur vp vl', s.engine.getWithoutLock env.cfg s.vl item.1.key = .ok cur ∧ current fid item cur = true ∧
      s.vl.write fresh { item.1 with op := opPut } = some (vp, vl') ∧
      s' = ⟨s.engine.dispatch (putNode item.1.key (encodeValuePointer vp) item.1.expiresAt.toInt), vl'⟩ := by
  unfold gcRewrite at h
  split at h
  · rename_i herr
    refine .inl ⟨(Option.some.inj h).symm, fun cur hcur => ?_⟩
    rw [herr] at hcur
    cases hcur
  · rename_i cur hcur
    split at h
    · rename_i hcurrent
      obtain ⟨⟨vp, vl'⟩, hw, rfl⟩ := Option.map_eq_some_iff.mp h
      exact .inr ⟨cur, vp, vl', hcur, hcurrent, hw, rfl⟩
    · rename_i hcurrent
      refine .inl ⟨(Option.some.inj h).symm, fun cur' hcur' => ?_⟩
      rw [hcur] at hcur'
      cases hcur'
      simpa using hcurrent

theorem recent_none {e : Engine} (h : Recent e) : Recent (e.dispatch fun _ => none) := by
  intro x hx
  have hle := h x hx
  show x.version ≤ (Oracle.markApplied _ _).nextTs
  rw [Oracle.markApplied_nextTs]
  show x.version ≤ e.oracle.nextTs + 1
  omega

theorem recent_put {e : Engine} (h : Recent e) (key value : Bytes) (expiresAt : Int) :
    Recent (e.dispatch (putNode key value expiresAt)) := by
  intro x hx
  show x.version ≤ (Oracle.markApplied _ _).nextTs
  rw [Oracle.markApplied_nextTs]
  rcases SkipList.mem_insertNode.mp hx with rfl | hx
  · exact le_refl _
  · exact (h x hx).trans (Nat.le_succ _)

theorem lookup_of_find {cfg : Config} {e : Engine} {key : Bytes} {ok : Nat → Bool} {x : Entry}
    (h : e.mem.find key ok = some x) : e.lookup cfg key ok = some x := by
  rw [Engine.lookup, h]

theorem lookup_congr {cfg : Config} {e e' : Engine} {key : Bytes} {ok : Nat → Bool}
    (hmem : e'.mem.find key ok = e.mem.find key ok) (himm : e'.imm = e.imm) (hlevels : e'.levels = e.levels) :
    e'.lookup cfg key ok = e.lookup cfg key ok := by
  rw [Engine.lookup, Engine.lookup, hmem, himm, hlevels]

theorem lookup_put_self {cfg : Config} {e : Engine} (h : Recent e) (key value : Bytes) (expiresAt : Int) :
    (e.dispatch (putNode key value expiresAt)).lookup cfg key (fun _ => true) =
      some ⟨key, value, false, expiresAt, e.oracle.nextTs + 1⟩ := by
  have hfind : (e.mem.insertNode ⟨key, value, false, expiresAt, e.oracle.nextTs + 1⟩).find key (fun _ => true) =
      some ⟨key, value, false, expiresAt, e.oracle.nextTs + 1⟩ :=
    SkipList.find_insertNode_self (by simp [Entry.hits]) fun y hy => Nat.lt_succ_of_le (h y hy)
  exact lookup_of_find hfind

theorem lookup_put_other {cfg : Config} {e : Engine} {key : Bytes} (hk : key ≠ k) (value : Bytes) (expiresAt : Int) :
    (e.dispatch (putNode key value expiresAt)).lookup cfg k (fun _ => true) = e.lookup cfg k (fun _ => true) := by
  have hfind : (e.mem.insertNode ⟨key, value, false, expiresAt, e.oracle.nextTs + 1⟩).find k (fun _ => true) =
      e.mem.find k (fun _ => true) :=
    SkipList.find_insertNode_other (by simp [Entry.hits, hk])
  exact lookup_congr hfind rfl rfl

theorem gcRewrite_keeps (hr : Recent s.engine) (hb : Behind fid s.vl (n + 1))
    (h : gcRewrite env fresh fid item s = some s') :
    Recent s'.engine ∧ Behind fid s'.vl n ∧ s.vl.Extends s'.vl ∧ s'.vl.segments fid = s.vl.segments fid := by
  rcases gcRewrite_cases h with ⟨rfl, -⟩ | ⟨cur, vp, vl', -, -, hw, rfl⟩
  · exact ⟨recent_none hr, ⟨hb.1, Nat.lt_of_succ_lt hb.2⟩, ValueLog.Extends.refl _, rfl⟩
  · obtain ⟨hbehind, -, hsame⟩ := write_behind hb hw
    exact ⟨recent_put hr _ _ _, hbehind, (ValueLog.write_spec hw).1, hsame⟩

theorem newest_gcRewrite_other
    (hno : item.1.key = k → ∀ cur, s.engine.getWithoutLock env.cfg s.vl k = .ok cur → current fid item cur = false)
    (h : gcRewrite env fresh fid item s = some s') : s'.newest env k = s.newest env k := by
  rcases gcRewrite_cases h with ⟨rfl, -⟩ | ⟨cur, vp, vl', hcur, hcurrent, -, rfl⟩
  · rfl
  · refine lookup_put_other (fun hk => ?_) ..
    rw [hk] at hcur
    rw [hno hk cur hcur] at hcurrent
    cases hcurrent

theorem newest_gcRewrite_current (hr : Recent s.engine) (hb : Behind fid s.vl (n + 1)) {cur : Bytes}
    (hcur : s.engine.getWithoutLock env.cfg s.vl item.1.key = .ok cur) (hcurrent : current fid item cur = true)
    (hlen : item.1.value.length < 2 ^ 32) (h : gcRewrite env fresh fid item s = some s') :
    ∃ x, s'.newest env item.1.key = some x ∧ x.deleted = false ∧ isValuePointer x.value = true ∧
      (decodeValuePointer x.value).fid ≠ fid ∧ x.expiresAt = item.1.expiresAt.toInt ∧
      resolveValue s'.vl x.value = some item.1.value := by
  rcases gcRewrite_cases h with ⟨-, hno⟩ | ⟨cur', vp, vl', -, -, hw, rfl⟩
  · rw [hno cur hcur] at hcurrent
    cases hcurrent
  · obtain ⟨-, hne, -⟩ := write_behind hb hw
    refine ⟨_, lookup_put_self hr .., rfl, ?_, ?_, rfl, ?_⟩
    · simp [isValuePointer, encodeValuePointer, ValuePointer.bytes]
    · rw [Vlog.decodeValuePointer_encode]
      exact hne
    · rw [Vlog.resolveValue_pointer]
      exact (ValueLog.write_spec hw).2 hlen

end Request

/-! ## The whole loop -/

section Loop
variable {env : Env} {fid : UInt32} {s s' : Store} {k : Bytes} {items : List (ValueEntry × Nat)} {i : Nat}

theorem resolveValue_mono {vl vl' : ValueLog} (h : vl.Extends vl') {raw v : Bytes} (hv : resolveValue vl raw = some v) :
    resolveValue vl' raw = some v := by
  cases raw with
  | nil => exact hv
  | cons b rest =>
    simp only [resolveValue] at hv ⊢
    split
    · rename_i hb
      rwa [if_pos hb] at hv
    · rename_i hb
      rw [if_neg hb] at hv
      split
      · rename_i hptr
        rw [if_pos hptr] at hv
        exact ValueLog.readValue_mono h hv
      · rename_i hptr
        rwa [if_neg hptr] at hv

theorem resolveValue_into {vl vl' : ValueLog} {x : Entry} (hx : Into fid x)
    (hsame : vl'.segments fid = vl.segments fid) : resolveValue vl' x.value = resolveValue vl x.value := by
  obtain ⟨-, hptr, rfl⟩ := hx
  cases hv : x.value with
  | nil => rfl
  | cons b rest =>
    rw [hv] at hptr hsame
    simp only [resolveValue, hptr, if_true, ValueLog.readValue, hsame]

theorem newest_rewriteAll (hr : Recent s.engine) (hb : Behind fid s.vl items.length)
    (hlen : ∀ p ∈ items, p.1.value.length < 2 ^ 32) (h : rewriteAll env fid i items s = some s') :
    s'.newest env k = s.newest env k ∨ ∃ x, s'.newest env k = some x ∧ ¬ Into fid x := by
  induction items generalizing s i with
  | nil =>
    cases h
    exact .inl rfl
  | cons item items ih =>
    obtain ⟨m, hm, h⟩ := Option.bind_eq_some_iff.mp h
    obtain ⟨hr', hb', -, -⟩ := gcRewrite_keeps (s := s.tick (env.clock i)) hr hb hm
    rcases ih hr' hb' (fun p hp => hlen p (List.mem_cons_of_mem _ hp)) h with hsame | hout
    · rw [hsame]
      rcases gcRewrite_cases hm with ⟨rfl, -⟩ | ⟨cur, vp, vl', hcur, hcurrent, -, -⟩
      · exact .inl rfl
      · by_cases hk : item.1.key = k
        · subst hk
          obtain ⟨x, hx, -, -, hne, -⟩ := newest_gcRewrite_current (s := s.tick (env.clock i)) hr hb hcur hcurrent
            (hlen item List.mem_cons_self) hm
          exact .inr ⟨x, hx, fun hinto => hne hinto.2.2⟩
        · exact .inl (newest_gcRewrite_other (s := s.tick (env.clock i)) (fun hk' => absurd hk' hk) hm)
    · exact .inr hout

theorem newest_rewriteAll_unread {x : Entry} (hr : Recent s.engine) (hb : Behind fid s.vl items.length)
    (hx : s.newest env k = some x) (hinto : Into fid x) (hv : resolveValue s.vl x.value = none)
    (h : rewriteAll env fid i items s = some s') : s'.newest env k = some x := by
  induction items generalizing s i with
  | nil =>
    cases h
    exact hx
  | cons item items ih =>
    obtain ⟨m, hm, h⟩ := Option.bind_eq_some_iff.mp h
    obtain ⟨hr', hb', -, hsame⟩ := gcRewrite_keeps (s := s.tick (env.clock i)) hr hb hm
    have hread : ∀ cur, (s.tick (env.clock i)).engine.getWithoutLock env.cfg s.vl k ≠ .ok cur := by
      intro cur hcur
      have hlook : (s.tick (env.clock i)).engine.lookup env.cfg k (fun _ => true) = some x := hx
      rw [Engine.getWithoutLock, hlook, Engine.resolved, hv] at hcur
      split at hcur <;> cases hcur
    have hnew := newest_gcRewrite_other (s := s.tick (env.clock i)) (k := k)
      (fun _ cur hcur => absurd hcur (hread cur)) hm
    exact ih hr' hb' (hnew.trans hx) (by rw [resolveValue_into hinto hsame]; exact hv) h

theorem getWithoutLock_of {e : Engine} {vl : ValueLog} {x : Entry} {v : Bytes}
    (hx : e.lookup env.cfg k (fun _ => true) = some x) (hdel : x.deleted = false)
    (hv : resolveValue vl x.value = some v) :
    e.getWithoutLock env.cfg vl k = if expiredAt e.now x.expiresAt = true then .error .keyNotFound else .ok v := by
  rw [Engine.getWithoutLock, hx, Engine.resolved, hv]
  simp [Entry.dead, Entry.expired, expiredAt, hdel]

/-- **What becomes of a key**: its version stays, or is a pointer to what it is carried to. -/
theorem lookup_rewriteAll {x : Entry} {v : Bytes} (hr : Recent s.engine) (hb : Behind fid s.vl items.length)
    (hlen : ∀ p ∈ items, p.1.value.length < 2 ^ 32) (hx : s.newest env k = some x) (hdel : x.deleted = false)
    (hv : resolveValue s.vl x.value = some v) (h : rewriteAll env fid i items s = some s') :
    match carried env fid k i items (v, x.expiresAt) with
    | none => s'.newest env k = some x ∧ resolveValue s'.vl x.value = some v
    | some (v', e') => ∃ x', s'.newest env k = some x' ∧ x'.deleted = false ∧ isValuePointer x'.value = true ∧
        (decodeValuePointer x'.value).fid ≠ fid ∧ x'.expiresAt = e' ∧ resolveValue s'.vl x'.value = some v' := by
  induction items generalizing s i x v with
  | nil =>
    cases h
    exact ⟨hx, hv⟩
  | cons item items ih =>
    obtain ⟨m, hm, h⟩ := Option.bind_eq_some_iff.mp h
    obtain ⟨hr', hb', hext, -⟩ := gcRewrite_keeps (s := s.tick (env.clock i)) hr hb hm
    have hlen' : ∀ p ∈ items, p.1.value.length < 2 ^ 32 := fun p hp => hlen p (List.mem_cons_of_mem _ hp)
    have hget : (s.tick (env.clock i)).engine.getWithoutLock env.cfg (s.tick (env.clock i)).vl k = _ :=
      getWithoutLock_of hx hdel hv
    by_cases hfollow : item.1.key = k ∧ expiredAt (env.clock i) x.expiresAt = false ∧ current fid item v = true
    · rw [carried, if_pos hfollow]
      obtain ⟨rfl, hlive, hcurrent⟩ := hfollow
      rw [if_neg (by simpa [Store.tick] using hlive)] at hget
      obtain ⟨y, hy, hydel, hyptr, hyne, hyexp, hyval⟩ :=
        newest_gcRewrite_current (s := s.tick (env.clock i)) hr hb hget
        hcurrent (hlen item List.mem_cons_self) hm
      have hrest := ih hr' hb' hlen' hy hydel hyval h
      rw [hyexp] at hrest
      dsimp only
      cases hc : carried env fid item.1.key (i + 1) items (item.1.value, item.1.expiresAt.toInt) with
      | some p =>
        rw [hc] at hrest
        exact hrest
      | none =>
        rw [hc] at hrest
        exact ⟨y, hrest.1, hydel, hyptr, hyne, hyexp, hrest.2⟩
    · rw [carried, if_neg hfollow]
      have hnew : m.newest env k = some x := by
        refine (newest_gcRewrite_other (s := s.tick (env.clock i)) (fun hk cur hcur => ?_) hm).trans hx
        rw [hget] at hcur
        split at hcur
        · cases hcur
        · rename_i hlive
          cases hcur
          cases hc : current fid item v with
          | false => rfl
          | true => exact absurd ⟨hk, by simpa [Store.tick] using hlive, hc⟩ hfollow
      exact ih hr' hb' hlen' hnew hdel (resolveValue_mono hext hv) h

theorem length_itemsOf {vl : ValueLog} (h : itemsOf env fid vl = some items) :
    ∀ p ∈ items, p.1.value.length < 2 ^ 32 := by
  intro p hp
  obtain ⟨g, -, h⟩ := Option.bind_eq_some_iff.mp h
  obtain ⟨found, hfound, rfl⟩ := Option.map_eq_some_iff.mp h
  exact (Vlog.fits_of_mem_recover hfound (List.mem_filter.mp hp).1).2

end Loop

/-- **Every live value is out of the segment and unchanged exactly if each leads back to itself.** -/
theorem relocated_iff (env : Env) (fid : UInt32) {s s' : Store} {items : List (ValueEntry × Nat)}
    (hitems : itemsOf env fid s.vl = some items) (hr : Recent s.engine) (hb : Behind fid s.vl items.length)
    (h : rewriteSegment env fid s = some s') : Relocated env fid s s' ↔ LeadBack env fid items s := by
  have hlen := length_itemsOf hitems
  rw [rewriteSegment, hitems, Option.bind_some] at h
  constructor
  · intro hrel k x hx hinto
    obtain ⟨x', hx', hdel', hptr', hexp', hval'⟩ := hrel.same k x hx hinto
    cases hv : resolveValue s.vl x.value with
    | none => exact absurd hinto (hrel.none_into k x (newest_rewriteAll_unread hr hb hx hinto hv h))
    | some v =>
      refine ⟨v, rfl, ?_⟩
      have hkey := lookup_rewriteAll hr hb hlen hx hinto.1 hv h
      cases hc : carried env fid k 0 items (v, x.expiresAt) with
      | none =>
        rw [hc] at hkey
        exact absurd hinto (hrel.none_into k x hkey.1)
      | some p =>
        rw [hc] at hkey
        obtain ⟨v', e'⟩ := p
        obtain ⟨y, hy, -, -, -, hyexp, hyval⟩ := hkey
        obtain rfl := Option.some.inj (hx'.symm.trans hy)
        rw [hval', hv] at hyval
        rw [← hyexp, hexp', Option.some.inj hyval]
  · intro hlead
    constructor
    · intro k x hx hinto
      rcases newest_rewriteAll hr hb hlen h with hsame | ⟨y, hy, hout⟩
      · obtain ⟨v, hv, hc⟩ := hlead k x (hsame.symm.trans hx) hinto
        have hkey := lookup_rewriteAll hr hb hlen (hsame.symm.trans hx) hinto.1 hv h
        rw [hc] at hkey
        obtain ⟨y, hy, -, -, hyne, -⟩ := hkey
        obtain rfl := Option.some.inj (hx.symm.trans hy)
        exact hyne hinto.2.2
      · obtain rfl := Option.some.inj (hx.symm.trans hy)
        exact hout hinto
    · intro k x hx hinto
      obtain ⟨v, hv, hc⟩ := hlead k x hx hinto
      have hkey := lookup_rewriteAll hr hb hlen hx hinto.1 hv h
      rw [hc] at hkey
      obtain ⟨y, hy, hydel, hyptr, -, hyexp, hyval⟩ := hkey
      exact ⟨y, hy, hydel, hyptr, hyexp, hyval.trans hv.symm⟩

def plainEnv : Env := ⟨Config.plain, fun _ => Segment.plain, fun _ => false, fun _ => 0⟩

def twoSegments (value : Bytes) : ValueLog where
  segments fid :=
    if fid = 1 then
      some { Segment.plain with bytes := Segment.plain.bytes ++ Segment.plain.entryBytes ⟨opPut, [107], value, 0⟩ }
    else if fid = 2 then some Segment.plain
    else none
  active := 2
  maxSize := 1024

def onePointer (value : Bytes) : Store where
  engine := (Engine.fresh 0).dispatch (putNode [107] (encodeValuePointer ⟨1, 26, UInt32.ofNat value.length⟩) 0)
  vl := twoSegments value

theorem newest_onePointer {value : Bytes} {x : Entry} {k : Bytes} (h : (onePointer value).newest plainEnv k = some x) :
    k = [107] ∧ x = ⟨[107], encodeValuePointer ⟨1, 26, UInt32.ofNat value.length⟩, false, 0, 2⟩ := by
  have hrecent : Recent (Engine.fresh 0) := nofun
  by_cases hk : [107] = k
  · subst hk
    rw [Store.newest, onePointer, lookup_put_self hrecent] at h
    exact ⟨rfl, (Option.some.inj h).symm⟩
  · rw [Store.newest, onePointer, lookup_put_other hk] at h
    cases h

theorem itemsOf_onePointer {value : Bytes} (hne : value ≠ []) (hlen : value.length < 2 ^ 32) :
    itemsOf plainEnv 1 (onePointer value).vl = some [(⟨opPut, [107], value, 0⟩, 26)] := by
  have hpart : Vlog.PartOf none ⟨List.replicate 16 0, by decide⟩ [⟨opPut, [107], value, 0⟩]
      ⟨Segment.plain.bytes ++ Segment.plain.entryBytes ⟨opPut, [107], value, 0⟩, fun _ => 0, false⟩ := by
    refine ⟨rfl, rfl, ?_, ?_⟩
    · rw [List.length_append]
      exact Nat.le_add_right 8 _
    · rw [Vlog.wholeFile, Vlog.encodeEntries_cons]
      exact (List.prefix_append_right_inj _).mpr (List.prefix_append _ _)
  have hfits : ∀ e ∈ [(⟨opPut, [107], value, 0⟩ : ValueEntry)], e.Fits := by
    intro e he
    rw [List.mem_singleton.mp he]
    exact ⟨by simp, hlen⟩
  have hinside : Vlog.Inside (Segment.plain.bytes ++ Segment.plain.entryBytes ⟨opPut, [107], value, 0⟩).length
      (⟨opPut, [107], value, 0⟩, 26) := by
    have hlen8 : Segment.plain.bytes.length = 8 := rfl
    rw [Vlog.Inside, List.length_append, Segment.entryBytes_eq_encode, Vlog.encodeEntry_length, hlen8]
    simp only [ValueEntry.size, Vlog.entryHeaderSize, List.length_cons, List.length_nil]
    omega
  have hfound := hpart.recover hfits
  have hplaced : Vlog.placed (Vlog.headerSize none) [(⟨opPut, [107], value, 0⟩ : ValueEntry)] =
      [(⟨opPut, [107], value, 0⟩, 26)] := rfl
  rw [hplaced, List.filter_cons_of_pos (by simpa using hinside), List.filter_nil] at hfound
  have hkeep : entriesToRewrite [(⟨opPut, [107], value, 0⟩, 26)] = [(⟨opPut, [107], value, 0⟩, 26)] := by
    rw [entriesToRewrite, List.filter_cons_of_pos (by simp [opPut, opDelete, hne]), List.filter_nil]
  have hsegment : (onePointer value).vl.segments 1 = some { Segment.plain with
      bytes := Segment.plain.bytes ++ Segment.plain.entryBytes ⟨opPut, [107], value, 0⟩ } := by
    simp [onePointer, twoSegments]
  rw [itemsOf, hsegment, Option.bind_some]
  dsimp only [Segment.plain, plainEnv] at hfound ⊢
  rw [hfound, Option.map_some, hkeep]

def selfPointing : Bytes := encodeValuePointer ⟨1, 26, 17⟩

theorem recent_onePointer (value : Bytes) : Recent (onePointer value).engine :=
  recent_put (nofun : Recent (Engine.fresh 0)) _ _ _

theorem relocated_selfPointing :
    ∃ s', rewriteSegment plainEnv 1 (onePointer selfPointing) = some s' ∧
      Relocated plainEnv 1 (onePointer selfPointing) s' := by
  have hitems := @itemsOf_onePointer selfPointing (by decide) (by decide)
  have hsome : (rewriteSegment plainEnv 1 (onePointer selfPointing)).isSome = true := by decide +kernel
  obtain ⟨s', hs'⟩ := Option.isSome_iff_exists.mp hsome
  refine ⟨s', hs', (relocated_iff plainEnv 1 hitems (recent_onePointer _) ⟨by decide, by decide⟩ hs').mpr ?_⟩
  intro k x hx _
  obtain ⟨rfl, rfl⟩ := newest_onePointer hx
  exact ⟨selfPointing, by decide +kernel, by decide +kernel⟩

/-- The value `v` stays where it is. -/
theorem value_left_behind :
    ∃ s', rewriteSegment plainEnv 1 (onePointer [118]) = some s' ∧
      s'.newest plainEnv [107] = (onePointer [118]).newest plainEnv [107] ∧
      ¬ Relocated plainEnv 1 (onePointer [118]) s' := by
  have hitems := @itemsOf_onePointer [118] (by decide) (by decide)
  have hsome : (rewriteSegment plainEnv 1 (onePointer [118])).isSome = true := by decide +kernel
  obtain ⟨s', hs'⟩ := Option.isSome_iff_exists.mp hsome
  have hloop := hs'
  rw [rewriteSegment, hitems, Option.bind_some] at hloop
  have hx : (onePointer [118]).newest plainEnv [107] = some ⟨[107], encodeValuePointer ⟨1, 26, 1⟩, false, 0, 2⟩ :=
    lookup_put_self (nofun : Recent (Engine.fresh 0)) _ _ _
  have hkey := lookup_rewriteAll (v := [118]) (recent_onePointer _) ⟨by decide, by decide⟩ (by decide) hx rfl
    (by decide +kernel) hloop
  have hnone : carried plainEnv 1 [107] 0 [(⟨opPut, [107], [118], 0⟩, 26)] ([118], 0) = none := by decide
  rw [hnone] at hkey
  refine ⟨s', hs', hkey.1.trans hx.symm, fun hrel => ?_⟩
  exact hrel.none_into _ _ hkey.1 ⟨rfl, by decide, by decide⟩

end Relocate
end AkwaDB
