import AkwaDB.Engine.Read
import AkwaDB.Txn.System

/-!
# AkwaDB.Client.Writers

The writer goroutines and the requests they process. A writer takes a version for a request and then
processes it under the append lock, so requests are processed in another order than that of their
versions. Only increments hold a lock over both steps, one of the stripes of `incrMu`. Between any two
steps the memtable may be rotated.

Lookups go from the memtable through the older layers and stop at the first with an entry of the key.
Flushes and compactions keep that order and are no steps here. Values are the user's bytes, as
`resolveValue` returns them.

- `Numbered`: the entries are those the engine started with and those of the requests that are done, and
  every version belongs to one request.
- `Aligned`: a lookup of the key finds its newest entry. It holds as long as the memtable is not rotated
  below a write of the key that has its version already.
-/

namespace AkwaDB
namespace Client

open Txn (TxEntry stamp)
open Vlog (decodeValuePointer isValuePointer)
open Wal (ValuePointer)

/-- The newest entry of a key that passes, of the first layer that has one. -/
def find (layers : List (List Entry)) (key : Bytes) (ok : Nat → Bool) : Option Entry :=
  layered Entry.version (Entry.hits key ok) layers

def get (layers : List (List Entry)) (now : Int) (key : Bytes) : Option Bytes :=
  (find layers key fun _ => true).bind (Entry.answer now)

def getForReadAt (layers : List (List Entry)) (now : Int) (key : Bytes) (seq : Nat) : Option Bytes :=
  (find layers key fun v => decide (v ≤ seq)).bind (Entry.answer now)

structure GcEntry where
  key : Bytes
  val : Bytes
  expiresAt : Int
  expectedVp : ValuePointer

inductive Req where
  | put (key value : Bytes) (expiresAt : Int)
  /-- `Delete`, which leaves a key alone that does not exist. -/
  | delete (key : Bytes)
  | batch (writes : List (Bytes × TxEntry))
  | incr (key : Bytes) (delta : Int64)
  | gcRewrite (r : GcEntry)

inductive Res where
  | ok
  | existed (b : Bool)
  | val (n : Int64)
  /-- `ERR value is not an integer or out of range`. -/
  | notAnInteger
  | failed
  deriving DecidableEq

/-- Of two entries of one key in a batch, which have one version, a lookup finds the later. -/
def effective : List (Bytes × TxEntry) → List (Bytes × TxEntry)
  | [] => []
  | w :: ws => if ws.any fun u => decide (u.1 = w.1) then effective ws else w :: effective ws

def counter (current : Option Bytes) : Option Int64 :=
  match current with
  | none => some 0
  | some v => if v = [] then some 0 else parseInt v

/-- The expiry that an increment keeps, from what `TTL` says. -/
def keptExpiry (now : Int) (newest : Option Entry) : Int :=
  if 0 < Engine.remaining now newest then (Int64.ofInt (now + Engine.remaining now newest)).toInt else 0

/-- The value that a rewrite finds is a pointer to where its own value was. What is tested is the value
behind the pointer. -/
def GcEntry.current (r : GcEntry) (value : Option Bytes) : Bool :=
  match value with
  | none => false
  | some cur =>
    isValuePointer cur && decide ((decodeValuePointer cur).fid = r.expectedVp.fid) &&
      decide ((decodeValuePointer cur).offset = r.expectedVp.offset)

namespace Req

/-- What a writer does with a request when it holds the append lock: the answer and the writes. -/
def process (version : Nat) (now : Int) (layers : List (List Entry)) : Req → Res × List (Bytes × TxEntry)
  | put key value expiresAt => (.ok, [(key, ⟨value, expiresAt, false⟩)])
  | delete key =>
    match get layers now key with
    | none => (.existed false, [])
    | some _ => (.existed true, [(key, ⟨[], 0, true⟩)])
  | batch writes => (.ok, effective writes)
  | incr key delta =>
    match counter (getForReadAt layers now key version) with
    | none => (.notAnInteger, [])
    | some cur =>
      (.val (cur + delta),
        [(key, ⟨formatInt (cur + delta), keptExpiry now (find layers key fun _ => true), false⟩)])
  | gcRewrite r =>
    if r.current (get layers now r.key) then (.ok, [(r.key, ⟨r.val, r.expiresAt, false⟩)]) else (.ok, [])

def keys : Req → List Bytes
  | put key _ _ => [key]
  | delete key => [key]
  | batch writes => writes.map Prod.fst
  | incr key _ => [key]
  | gcRewrite r => [r.key]

def isRewrite : Req → Bool
  | gcRewrite _ => true
  | _ => false

end Req

def keyLockStripes : Nat := 256

def stripe (xxhash : Bytes → UInt64) (key : Bytes) : Nat := (xxhash key).toNat % keyLockStripes

def Req.lock (xxhash : Bytes → UInt64) : Req → Option Nat
  | .incr key _ => some (stripe xxhash key)
  | _ => none

/-- A request that is done: the last version given out, the clock, and the entry that decided. -/
structure Done where
  version : Nat
  req : Req
  ended : Nat
  now : Int
  seen : Option Entry
  res : Res
  writes : List (Bytes × TxEntry)

def Done.entries (d : Done) : List Entry := stamp d.version d.writes

structure Shared where
  nextTs : Nat
  now : Int
  mem : List Entry
  /-- The immutable memtable and the tables, the newest first. -/
  older : List (List Entry)
  /-- The stripes of `incrMu` that are held. -/
  locked : List Nat
  done : List Done

inductive Writer where
  | idle
  | pending (version : Nat) (req : Req)

inductive Act where
  | assign (req : Req)
  | process
  | fail
  | rotate
  | tick (seconds : Nat)

def Act.isRotate : Act → Bool
  | .rotate => true
  | _ => false

namespace Shared

def layers (sh : Shared) : List (List Entry) := sh.mem :: sh.older

def log (sh : Shared) : List Entry := sh.layers.reverse.flatten

def assign (sh : Shared) (l : Option Nat) : Shared :=
  { sh with nextTs := sh.nextTs + 1, locked := l.toList ++ sh.locked }

def sees (sh : Shared) (version : Nat) : Req → Option Entry
  | .delete key => find sh.layers key fun _ => true
  | .incr key _ => find sh.layers key fun v => decide (v ≤ version)
  | .gcRewrite r => find sh.layers r.key fun _ => true
  | _ => none

def record (sh : Shared) (version : Nat) (req : Req) (res : Res) (writes : List (Bytes × TxEntry)) : Done :=
  ⟨version, req, sh.nextTs, sh.now, sh.sees version req, res, writes⟩

/-- The entries of a request go to the memtable, and its lock is free. -/
def finish (sh : Shared) (l : Option Nat) (version : Nat) (req : Req) (res : Res)
    (writes : List (Bytes × TxEntry)) : Shared :=
  { sh with
    mem := sh.mem ++ stamp version writes
    locked := sh.locked.filter fun m => decide (some m ≠ l)
    done := sh.done ++ [sh.record version req res writes] }

/-- `triggerFlushLocked`. -/
def rotate (sh : Shared) : Shared := { sh with mem := [], older := sh.layers }

def tick (sh : Shared) (seconds : Nat) : Shared := { sh with now := sh.now + seconds }

def start (n : Nat) (now : Int) (layers : List (List Entry)) : Shared := ⟨n, now, [], layers, [], []⟩

end Shared

section
variable (xxhash : Bytes → UInt64)

def Writer.step (sh : Shared) : Act → Writer → Option (Shared × Writer)
  | .assign req, .idle =>
    if (req.lock xxhash).any fun l => decide (l ∈ sh.locked) then none
    else some (sh.assign (req.lock xxhash), .pending (sh.nextTs + 1) req)
  | .process, .pending version req =>
    let (res, writes) := req.process version sh.now sh.layers
    some (sh.finish (req.lock xxhash) version req res writes, .idle)
  | .fail, .pending version req => some (sh.finish (req.lock xxhash) version req .failed [], .idle)
  | .rotate, w => some (sh.rotate, w)
  | .tick seconds, w => some (sh.tick seconds, w)
  | _, _ => none

abbrev Writers := Pool Shared Writer

def Writers.init (n : Nat) (now : Int) (layers : List (List Entry)) (count : Nat) : Writers :=
  ⟨.start n now layers, List.replicate count .idle⟩

inductive Writer.Moves (sh : Shared) : Act → Writer → Shared → Writer → Prop where
  | assign (req : Req) (hfree : ∀ l ∈ req.lock xxhash, l ∉ sh.locked) :
      Moves sh (.assign req) .idle (sh.assign (req.lock xxhash)) (.pending (sh.nextTs + 1) req)
  | process (version : Nat) (req : Req) : Moves sh .process (.pending version req)
      (sh.finish (req.lock xxhash) version req (req.process version sh.now sh.layers).1
        (req.process version sh.now sh.layers).2) .idle
  | fail (version : Nat) (req : Req) : Moves sh .fail (.pending version req)
      (sh.finish (req.lock xxhash) version req .failed []) .idle
  | rotate (w : Writer) : Moves sh .rotate w sh.rotate w
  | tick (seconds : Nat) (w : Writer) : Moves sh (.tick seconds) w (sh.tick seconds) w

variable {xxhash}

theorem Writer.moves_of_step {sh sh' : Shared} {a : Act} {w w' : Writer}
    (h : w.step xxhash sh a = some (sh', w')) : w.Moves xxhash sh a sh' w' := by
  revert h
  fun_cases Writer.step xxhash sh a w
  all_goals intro h
  · cases h
  · rename_i req hfree
    cases h
    refine .assign req fun l hl hmem => ?_
    simp_all
  · rename_i version req res writes hproc
    cases h
    have := @Writer.Moves.process xxhash sh version req
    rwa [hproc] at this
  · cases h
    constructor
  · cases h
    constructor
  · cases h
    constructor
  · cases h

end

/-! ## What requests write -/

theorem effective_subset {w : Bytes × TxEntry} {ws : List (Bytes × TxEntry)} (h : w ∈ effective ws) :
    w ∈ ws := by
  induction ws with
  | nil => cases h
  | cons u us ih =>
    rw [effective] at h
    split at h
    · exact List.mem_cons_of_mem _ (ih h)
    · rcases List.mem_cons.mp h with rfl | h
      · exact List.mem_cons_self
      · exact List.mem_cons_of_mem _ (ih h)

theorem effective_nodup (ws : List (Bytes × TxEntry)) : ((effective ws).map Prod.fst).Nodup := by
  induction ws with
  | nil => exact List.nodup_nil
  | cons u us ih =>
    rw [effective]
    split
    · exact ih
    · rename_i hnot
      refine List.nodup_cons.mpr ⟨?_, ih⟩
      intro hmem
      obtain ⟨w, hw, heq⟩ := List.mem_map.mp hmem
      exact hnot (List.any_eq_true.mpr ⟨w, effective_subset hw, by simpa using heq⟩)

theorem effective_keys {key : Bytes} {ws : List (Bytes × TxEntry)} (h : key ∈ ws.map Prod.fst) :
    key ∈ (effective ws).map Prod.fst := by
  induction ws with
  | nil => cases h
  | cons u us ih =>
    rw [effective]
    split
    · rename_i hlater
      rcases List.mem_cons.mp h with rfl | h
      · obtain ⟨w, hw, heq⟩ := List.any_eq_true.mp hlater
        exact ih (List.mem_map.mpr ⟨w, hw, by simpa using heq⟩)
      · exact ih h
    · rcases List.mem_cons.mp h with rfl | h
      · exact List.mem_cons_self
      · exact List.mem_cons_of_mem _ (ih h)

theorem Req.process_spec (version : Nat) (now : Int) (layers : List (List Entry)) (req : Req) :
    ((req.process version now layers).2.map Prod.fst).Nodup ∧
      ∀ w ∈ (req.process version now layers).2, w.1 ∈ req.keys := by
  fun_cases Req.process version now layers req
  case case4 writes => exact ⟨effective_nodup writes, fun w hw => List.mem_map_of_mem (effective_subset hw)⟩
  all_goals simp [Req.keys]

theorem Shared.log_finish (sh : Shared) (l : Option Nat) (version : Nat) (req : Req) (res : Res)
    (writes : List (Bytes × TxEntry)) :
    (sh.finish l version req res writes).log = sh.log ++ stamp version writes := by
  simp [log, layers, finish]

theorem Shared.log_rotate (sh : Shared) : sh.rotate.log = sh.log := by
  simp [log, layers, rotate]

theorem Shared.mem_log {sh : Shared} {x : Entry} : x ∈ sh.log ↔ ∃ l ∈ sh.layers, x ∈ l := by
  simp [log]

theorem mem_entries {d : Done} {x : Entry} (h : x ∈ d.entries) : x.version = d.version := by
  obtain ⟨w, _, rfl⟩ := List.mem_map.mp h
  rfl

/-- Every version is given to one request, above those of the start, and a request writes a key once. -/
structure Numbered (n : Nat) (base : List Entry) (sh : Shared) (ps : List (Nat × Req)) : Prop where
  log : sh.log = base ++ sh.done.flatMap Done.entries
  base : ∀ x ∈ base, x.version ≤ n
  le : n ≤ sh.nextTs
  nodup : (ps.map Prod.fst ++ sh.done.map Done.version).Nodup
  range : ∀ v ∈ ps.map Prod.fst ++ sh.done.map Done.version, n < v ∧ v ≤ sh.nextTs
  once : ∀ d ∈ sh.done, (d.writes.map Prod.fst).Nodup

section
variable {n : Nat} {base : List Entry} {sh : Shared} {ps ps' : List (Nat × Req)} {version : Nat} {req : Req}

namespace Numbered

section
variable (h : Numbered n base sh ps)
include h

theorem log_le : ∀ x ∈ sh.log, x.version ≤ sh.nextTs := by
  intro x hx
  rw [h.log] at hx
  rcases List.mem_append.mp hx with hx | hx
  · exact Nat.le_trans (h.base x hx) h.le
  · obtain ⟨d, hd, hx⟩ := List.mem_flatMap.mp hx
    rw [mem_entries hx]
    exact (h.range d.version (List.mem_append_right _ (List.mem_map_of_mem hd))).2

theorem log_ne (hp : (version, req) ∈ ps) : ∀ x ∈ sh.log, x.version ≠ version := by
  intro x hx hv
  have hpend : version ∈ ps.map Prod.fst := List.mem_map_of_mem hp
  rw [h.log] at hx
  rcases List.mem_append.mp hx with hx | hx
  · have := h.base x hx
    have := (h.range version (List.mem_append_left _ hpend)).1
    omega
  · obtain ⟨d, hd, hx⟩ := List.mem_flatMap.mp hx
    exact (List.nodup_append.mp h.nodup).2.2 version hpend d.version (List.mem_map_of_mem hd)
      (hv.symm.trans (mem_entries hx))

theorem pending_ne (hps : ps.Perm ((version, req) :: ps')) : ∀ q ∈ ps', q.1 ≠ version := by
  intro q hq heq
  have hnodup := (hps.map Prod.fst).nodup_iff.mp (List.nodup_append.mp h.nodup).1
  exact (List.nodup_cons.mp hnodup).1 (List.mem_map.mpr ⟨q, hq, heq⟩)

theorem perm (hps : ps.Perm ps') : Numbered n base sh ps' := by
  have hperm := (hps.map Prod.fst).append_right (sh.done.map Done.version)
  exact ⟨h.log, h.base, h.le, hperm.nodup_iff.mp h.nodup, fun v hv => h.range v (hperm.mem_iff.mpr hv), h.once⟩

theorem assign (hps : ps'.Perm ((sh.nextTs + 1, req) :: ps)) (l : Option Nat) :
    Numbered n base (sh.assign l) ps' := by
  have hperm : (ps'.map Prod.fst ++ sh.done.map Done.version).Perm
      ((sh.nextTs + 1) :: (ps.map Prod.fst ++ sh.done.map Done.version)) :=
    (hps.map Prod.fst).append_right _
  refine ⟨h.log, h.base, Nat.le_succ_of_le h.le, hperm.nodup_iff.mpr ?_, fun v hv => ?_, h.once⟩
  · refine List.nodup_cons.mpr ⟨fun hmem => ?_, h.nodup⟩
    have := (h.range _ hmem).2
    omega
  · have hle := h.le
    rcases List.mem_cons.mp (hperm.mem_iff.mp hv) with rfl | hv
    · exact ⟨by omega, Nat.le_refl _⟩
    · have := h.range v hv
      exact ⟨this.1, Nat.le_succ_of_le this.2⟩

theorem finish {writes : List (Bytes × TxEntry)} (hps : ps.Perm ((version, req) :: ps'))
    (l : Option Nat) (res : Res) (hone : (writes.map Prod.fst).Nodup) :
    Numbered n base (sh.finish l version req res writes) ps' := by
  have hperm : (ps'.map Prod.fst ++ (sh.finish l version req res writes).done.map Done.version).Perm
      (ps.map Prod.fst ++ sh.done.map Done.version) := by
    rw [Shared.finish, List.map_append, ← List.append_assoc]
    exact List.perm_append_comm.trans ((hps.map Prod.fst).append_right _).symm
  refine ⟨?_, h.base, h.le, hperm.nodup_iff.mpr h.nodup, fun v hv => h.range v (hperm.mem_iff.mp hv),
    fun d hd => ?_⟩
  · rw [Shared.log_finish, h.log, Shared.finish, List.flatMap_append, List.append_assoc]
    simp [Done.entries, Shared.record]
  · rcases List.mem_append.mp hd with hd | hd
    · exact h.once d hd
    · rw [List.mem_singleton.mp hd]
      exact hone

theorem rotate : Numbered n base sh.rotate ps :=
  ⟨sh.log_rotate.trans h.log, h.base, h.le, h.nodup, h.range, h.once⟩

theorem tick (seconds : Nat) : Numbered n base (sh.tick seconds) ps :=
  ⟨h.log, h.base, h.le, h.nodup, h.range, h.once⟩

theorem log_new : ∀ x ∈ sh.done.flatMap Done.entries, n < x.version := by
  intro x hx
  obtain ⟨d, hd, hx⟩ := List.mem_flatMap.mp hx
  rw [mem_entries hx]
  exact (h.range _ (List.mem_append_right _ (List.mem_map_of_mem hd))).1

theorem separates (key : Bytes) (ok : Nat → Bool) :
    Separates Entry.version (Entry.hits key ok) (sh.done.flatMap Done.entries) := by
  intro x hx y hy hpx hpy hv
  obtain ⟨d, hd, hx⟩ := List.mem_flatMap.mp hx
  obtain ⟨e, he, hy⟩ := List.mem_flatMap.mp hy
  -- equal versions are of one request
  rw [mem_entries hx, mem_entries hy] at hv
  obtain rfl := List.inj_on_of_nodup_map (List.nodup_append.mp h.nodup).2.1 hd he hv
  obtain ⟨u, hu, rfl⟩ := List.mem_map.mp hx
  obtain ⟨v, hv, rfl⟩ := List.mem_map.mp hy
  have heq : u.1 = v.1 := Entry.key_eq_of_hits hpx hpy
  rw [List.inj_on_of_nodup_map (h.once d hd) hu hv heq]

end

end Numbered

/-! ## Layers in the order of versions -/

def newestOf (log : List Entry) (key : Bytes) (ok : Nat → Bool) : Option Entry :=
  newest Entry.version (Entry.hits key ok) log

section
variable {log : List Entry} {key : Bytes} {ok : Nat → Bool}

theorem newestOf_append (l m : List Entry) :
    newestOf (l ++ m) key ok = newerOf Entry.version (newestOf l key ok) (newestOf m key ok) :=
  newest_append l m

theorem mem_newestOf {x : Entry} (h : newestOf log key ok = some x) :
    x ∈ log ∧ x.key = key ∧ ok x.version = true := by
  obtain ⟨hmem, hpass, _⟩ := newest_spec h
  exact ⟨hmem, Entry.hits_iff.mp hpass⟩

theorem le_newestOf {x y : Entry} (h : newestOf log key ok = some x) (hy : y ∈ log) (hk : y.key = key)
    (hv : ok y.version = true) : y.version ≤ x.version :=
  (newest_spec h).max y hy (Entry.hits_iff.mpr ⟨hk, hv⟩)

theorem newestOf_of_mem {x : Entry} (hx : x ∈ log) (hk : x.key = key) (hv : ok x.version = true) :
    ∃ y, newestOf log key ok = some y :=
  newest_isSome Entry.version hx (Entry.hits_iff.mpr ⟨hk, hv⟩)

theorem newestOf_eq_none (h : newestOf log key ok = none) {x : Entry} (hx : x ∈ log) (hk : x.key = key) :
    ok x.version = false := by
  have := newest_eq_none.mp h x hx
  simpa [Entry.hits, hk] using this

theorem newestOf_congr {ok' : Nat → Bool} (h : ∀ x ∈ log, x.key = key → ok x.version = ok' x.version) :
    newestOf log key ok = newestOf log key ok' := by
  refine newest_ext fun x hx => ?_
  by_cases hk : x.key = key
  · simp [Entry.hits, hk, h x hx hk]
  · simp [Entry.hits, hk]

variable {version : Nat} {writes : List (Bytes × TxEntry)}

theorem newestOf_stamp {x : Entry} (hone : (writes.map Prod.fst).Nodup) (hx : x ∈ stamp version writes)
    (hk : x.key = key) : newestOf (stamp version writes) key (fun _ => true) = some x := by
  have hsep : Separates Entry.version (Entry.hits key fun _ => true) (stamp version writes) := by
    intro y hy z hz hpy hpz _
    obtain ⟨u, hu, rfl⟩ := List.mem_map.mp hy
    obtain ⟨v, hv, rfl⟩ := List.mem_map.mp hz
    have heq : u.1 = v.1 := Entry.key_eq_of_hits hpy hpz
    rw [List.inj_on_of_nodup_map hone hu hv heq]
  refine (newest_eq_some_iff hsep).mpr ⟨hx, by simp [Entry.hits, hk], fun y hy _ => ?_⟩
  obtain ⟨u, _, rfl⟩ := List.mem_map.mp hy
  obtain ⟨v, _, rfl⟩ := List.mem_map.mp hx
  exact Nat.le_refl _

end

/-- The layers hold the key in order, and what is to be written of it belongs in the memtable. -/
structure Aligned (key : Bytes) (sh : Shared) (ps : List (Nat × Req)) : Prop where
  layers : sh.layers.Pairwise fun a b =>
    ∀ x ∈ a, ∀ y ∈ b, x.key = key → y.key = key → y.version < x.version
  pending : ∀ q ∈ ps, key ∈ q.2.keys → ∀ l ∈ sh.older, ∀ y ∈ l, y.key = key → y.version < q.1

/-- No write of the key that is under way is below what the memtable holds of it. -/
def RotatesApart (key : Bytes) (sh : Shared) (ps : List (Nat × Req)) : Prop :=
  ∀ q ∈ ps, key ∈ q.2.keys → ∀ x ∈ sh.mem, x.key = key → x.version < q.1

instance (key : Bytes) (sh : Shared) (ps : List (Nat × Req)) : Decidable (RotatesApart key sh ps) :=
  inferInstanceAs (Decidable (∀ q ∈ ps, key ∈ q.2.keys → ∀ x ∈ sh.mem, x.key = key → x.version < q.1))

theorem rotatesApart_of_mem (h : ∀ x ∈ sh.mem, RotatesApart x.key sh ps) (key : Bytes) :
    RotatesApart key sh ps := by
  intro q hq hkey x hx hxk
  exact h x hx q hq (hxk ▸ hkey) x hx rfl

namespace Aligned

variable {key : Bytes}

theorem find_eq (h : Aligned key sh ps) (ok : Nat → Bool) :
    find sh.layers key ok = newestOf sh.log key ok := by
  refine layered_eq_newest (h.layers.imp fun hab x hx y hy hpx hpy => ?_)
  exact hab x hx y hy (Entry.hits_iff.mp hpx).1 (Entry.hits_iff.mp hpy).1

theorem get_eq (h : Aligned key sh ps) (now : Int) :
    get sh.layers now key = (newestOf sh.log key fun _ => true).bind (Entry.answer now) := by
  rw [get, h.find_eq]

theorem perm (h : Aligned key sh ps) (hps : ps.Perm ps') : Aligned key sh ps' :=
  ⟨h.layers, fun q hq => h.pending q (hps.mem_iff.mpr hq)⟩

theorem assign (h : Aligned key sh ps) (hn : Numbered n base sh ps)
    (hps : ps'.Perm ((sh.nextTs + 1, req) :: ps)) (l : Option Nat) : Aligned key (sh.assign l) ps' := by
  refine ⟨h.layers, fun q hq hkey m hm y hy hyk => ?_⟩
  rcases List.mem_cons.mp (hps.mem_iff.mp hq) with rfl | hq
  · exact Nat.lt_succ_of_le (hn.log_le y (Shared.mem_log.mpr ⟨m, List.mem_cons_of_mem _ hm, hy⟩))
  · exact h.pending q hq hkey m hm y hy hyk

theorem finish {writes : List (Bytes × TxEntry)} (h : Aligned key sh ps)
    (hps : ps.Perm ((version, req) :: ps')) (l : Option Nat) (res : Res)
    (hkeys : ∀ w ∈ writes, w.1 ∈ req.keys) : Aligned key (sh.finish l version req res writes) ps' := by
  obtain ⟨hmem, holder⟩ := List.pairwise_cons.mp h.layers
  refine ⟨List.pairwise_cons.mpr ⟨fun m hm x hx y hy hxk hyk => ?_, holder⟩, fun q hq => ?_⟩
  · rcases List.mem_append.mp hx with hx | hx
    · exact hmem m hm x hx y hy hxk hyk
    · obtain ⟨w, hw, rfl⟩ := List.mem_map.mp hx
      exact h.pending _ (hps.mem_iff.mpr List.mem_cons_self) (hxk ▸ hkeys w hw) m hm y hy hyk
  · exact h.pending q (hps.mem_iff.mpr (List.mem_cons_of_mem _ hq))

theorem rotate (h : Aligned key sh ps) (hok : RotatesApart key sh ps) : Aligned key sh.rotate ps := by
  refine ⟨List.pairwise_cons.mpr ⟨fun m _ x hx => absurd hx List.not_mem_nil, h.layers⟩,
    fun q hq hkey m hm => ?_⟩
  rcases List.mem_cons.mp hm with rfl | hm
  · exact hok q hq hkey
  · exact h.pending q hq hkey m hm

theorem tick (h : Aligned key sh ps) (seconds : Nat) : Aligned key (sh.tick seconds) ps :=
  ⟨h.layers, h.pending⟩

end Aligned
end

/-! ## Runs of writers -/

def Writer.pendingReq : Writer → Option (Nat × Req)
  | .idle => none
  | .pending version req => some (version, req)

def underway (ws : List Writer) : List (Nat × Req) := ws.filterMap Writer.pendingReq

structure Stored (n : Nat) (layers : List (List Entry)) : Prop where
  le : ∀ l ∈ layers, ∀ x ∈ l, x.version ≤ n
  descends : Descends Entry.key Entry.version layers

section
variable {xxhash : Bytes → UInt64} {n : Nat} {base : List Entry} {sh sh' : Shared} {a : Act}
  {l r : List Writer} {w w' : Writer} {ps : List (Nat × Req)} {layers : List (List Entry)}

theorem numbered_moves (h : Numbered n base sh (w.pendingReq.toList ++ ps))
    (hm : w.Moves xxhash sh a sh' w') : Numbered n base sh' (w'.pendingReq.toList ++ ps) := by
  cases hm with
  | assign req hfree => exact h.assign (List.Perm.refl _) _
  | process version req =>
    exact h.finish (List.Perm.refl _) _ _ (req.process_spec version sh.now sh.layers).1
  | fail version req => exact h.finish (List.Perm.refl _) _ _ List.nodup_nil
  | rotate w => exact h.rotate
  | tick seconds w => exact h.tick seconds

theorem aligned_moves {key : Bytes} (h : Aligned key sh (w.pendingReq.toList ++ ps))
    (hn : Numbered n base sh (w.pendingReq.toList ++ ps)) (hm : w.Moves xxhash sh a sh' w')
    (hok : a.isRotate = true → RotatesApart key sh (w.pendingReq.toList ++ ps)) :
    Aligned key sh' (w'.pendingReq.toList ++ ps) := by
  cases hm with
  | assign req hfree => exact h.assign hn (List.Perm.refl _) _
  | process version req =>
    exact h.finish (List.Perm.refl _) _ _ (req.process_spec version sh.now sh.layers).2
  | fail version req => exact h.finish (List.Perm.refl _) _ _ fun w hw => absurd hw List.not_mem_nil
  | rotate w => exact h.rotate (hok rfl)
  | tick seconds w => exact h.tick seconds

theorem underway_middle (w : Writer) :
    (underway (l ++ w :: r)).Perm (w.pendingReq.toList ++ underway (l ++ r)) := filterMap_middle _ _ _ _

theorem underway_done (version : Nat) (req : Req) :
    (underway (l ++ .pending version req :: r)).Perm ((version, req) :: underway (l ++ .idle :: r)) :=
  (underway_middle _).trans ((underway_middle .idle).symm.cons _)

theorem numbered_step (h : Numbered n base sh (underway (l ++ w :: r))) (hm : w.Moves xxhash sh a sh' w') :
    Numbered n base sh' (underway (l ++ w' :: r)) :=
  (numbered_moves (h.perm (underway_middle w)) hm).perm (underway_middle w').symm

theorem aligned_step {key : Bytes} (h : Aligned key sh (underway (l ++ w :: r)))
    (hn : Numbered n base sh (underway (l ++ w :: r))) (hm : w.Moves xxhash sh a sh' w')
    (hok : a.isRotate = true → RotatesApart key sh (underway (l ++ w :: r))) :
    Aligned key sh' (underway (l ++ w' :: r)) := by
  have hmid := underway_middle (l := l) (r := r) w
  refine (aligned_moves (h.perm hmid) (hn.perm hmid) hm fun ha q hq => ?_).perm (underway_middle w').symm
  exact hok ha q (hmid.mem_iff.mpr hq)

theorem underway_init (count : Nat) : underway (List.replicate count Writer.idle) = [] :=
  List.filterMap_eq_nil_iff.mpr fun w hw => by rw [List.eq_of_mem_replicate hw]; rfl

theorem numbered_start (h : Stored n layers) (now : Int) :
    Numbered n layers.reverse.flatten (.start n now layers) [] := by
  refine ⟨by simp [Shared.start, Shared.log, Shared.layers], fun x hx => ?_, Nat.le_refl _, List.nodup_nil,
    fun v hv => absurd hv List.not_mem_nil, fun d hd => absurd hd List.not_mem_nil⟩
  obtain ⟨l, hl, hx⟩ := List.mem_flatten.mp hx
  exact h.le l (List.mem_reverse.mp hl) x hx

theorem aligned_start (h : Stored n layers) (now : Int) (key : Bytes) :
    Aligned key (.start n now layers) [] := by
  refine ⟨List.pairwise_cons.mpr ⟨fun m _ x hx => absurd hx List.not_mem_nil, ?_⟩,
    fun q hq => absurd hq List.not_mem_nil⟩
  exact h.descends.imp fun hab x hx y hy hxk hyk => hab x hx y hy (hxk.trans hyk.symm)

end
end Client
end AkwaDB
