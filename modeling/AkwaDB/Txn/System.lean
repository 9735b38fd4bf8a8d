import AkwaDB.Lib.Decimal
import AkwaDB.Lib.Interleave
import AkwaDB.Lib.Reach
import AkwaDB.Store.Entry
import AkwaDB.Txn.Oracle

/-!
# AkwaDB.Txn.System

Goroutines that write and read concurrently: transactions (`View`, `Update`, and the blocks of
commands that `EXEC` commits the same way) and plain write requests that a writer dispatches.

Every step is one critical section of the source: a call of the oracle, one insertion into the
memtable, one read. A step belongs to one goroutine and changes what it shares with the others, so a
run is a list of steps in any order. The commit lock of `Update` is left out; without it there are
more interleavings, not fewer.

The memtables and tables are one list of entries in the order of insertion, and a read finds the
newest version it may see. Values are the user's bytes; how they are stored is the matter of the
logs.
-/

namespace AkwaDB
namespace Txn

structure TxEntry where
  value : Bytes
  expiresAt : Int
  deleted : Bool
  deriving DecidableEq

/-- What a transaction has done, and what its reads returned. -/
inductive Event where
  | get (key : Bytes) (now : Int) (result : Option Bytes)
  | write (key : Bytes) (entry : TxEntry)

structure Tx where
  readOnly : Bool
  readTs : Nat
  writes : List (Bytes × TxEntry)
  readSet : List Bytes
  trace : List Event

def assign (writes : List (Bytes × TxEntry)) (key : Bytes) (entry : TxEntry) :
    List (Bytes × TxEntry) :=
  (key, entry) :: writes.filter fun w => decide (w.1 ≠ key)

def entryAt (log : List Entry) (key : Bytes) (maxVersion : Nat) : Option Entry :=
  newest Entry.version (Entry.hits key fun v => decide (v ≤ maxVersion)) log

def getByVersion (log : List Entry) (now : Int) (key : Bytes) (maxVersion : Nat) : Option Bytes :=
  (entryAt log key maxVersion).bind (Entry.answer now)

namespace Tx

/-- `Get` of a key that the transaction has not written. -/
def snapshotGet (t : Tx) (log : List Entry) (now : Int) (key : Bytes) : Tx :=
  { t with
    readSet := key :: t.readSet
    trace := t.trace ++ [.get key now (getByVersion log now key t.readTs)] }

/-- `Get`: its own writes first, even one whose time has passed. -/
def get (t : Tx) (log : List Entry) (now : Int) (key : Bytes) : Tx :=
  match t.writes.lookup key with
  | some e => { t with trace := t.trace ++ [.get key now (if e.deleted then none else some e.value)] }
  | none => t.snapshotGet log now key

def write (t : Tx) (key : Bytes) (entry : TxEntry) : Tx :=
  { t with writes := assign t.writes key entry, trace := t.trace ++ [.write key entry] }

end Tx

def stamp (version : Nat) (writes : List (Bytes × TxEntry)) : List Entry :=
  writes.map fun w => ⟨w.1, w.2.value, w.2.deleted, w.2.expiresAt, version⟩

/-- A write request, by what it writes at its version; `none` is an error. -/
structure Request where
  effect : Nat → Int → List Entry → Option (List (Bytes × TxEntry))

namespace Request

def put (key value : Bytes) (expiresAt : Int) : Request :=
  ⟨fun _ _ _ => some [(key, ⟨value, expiresAt, false⟩)]⟩

def batch (writes : List (Bytes × TxEntry)) : Request := ⟨fun _ _ _ => some writes⟩

end Request

/-- The entries of one request under its version, and the transaction they belong to. -/
structure Batch where
  version : Nat
  owner : Option Tx
  entries : List Entry

inductive Proc where
  | idle
  | running (t : Tx)
  | checked (t : Tx) (commitTs : Nat)
  /-- The batch is in the queue or with a writer. -/
  | submitted (t : Tx) (commitTs : Nat) (entries : List Entry)
  | queued (r : Request)
  /-- A writer has taken a version for the request. -/
  | assigned (version : Nat) (r : Request)
  /-- The log has the records; `todo` is not in the memtable yet. -/
  | inserting (b : Batch) (todo : List Entry)
  /-- `MarkApplied` is done, the reply is not. -/
  | settled (b : Batch) (ok : Bool)
  | ending (t : Tx)

/-- What the goroutines share, and what became of every batch and which versions were acknowledged. -/
structure Shared where
  oracle : TxnOracle
  log : List Entry
  batches : List (Batch × Bool)
  acked : List Nat

inductive Action where
  | start (readOnly : Bool)
  | get (key : Bytes) (now : Int)
  | write (key : Bytes) (entry : TxEntry)
  /-- The end of a `View`, of a function that failed, or of an `Update` that wrote nothing. -/
  | finish
  | check
  | reserve
  /-- `submitWrite` of a batch, whose order is that of a map iteration. -/
  | submit (entries : List Entry)
  | request (r : Request)
  /-- The queue is full, the disk is full or the engine stops. -/
  | refuse
  | assign
  /-- The log records are written, or that fails. -/
  | append (now : Int) (ok : Bool)
  | insert
  | mark
  /-- The reply; a plain write may still fail to sync. -/
  | reply (synced : Bool)
  | done
  /-- The end of a plain read, which also moves `appliedTs`. -/
  | doneRead

namespace Shared

def mapOracle (sh : Shared) (f : Oracle → Oracle) : Shared :=
  { sh with oracle := { sh.oracle with toOracle := f sh.oracle.toOracle } }

/-- `MarkApplied` at the end of `dispatch`, or where a batch is given up. -/
def settle (sh : Shared) (b : Batch) (ok : Bool) : Shared × Proc :=
  ({ sh.mapOracle (Oracle.markApplied · b.version) with batches := sh.batches ++ [(b, ok)] },
    .settled b ok)

end Shared

variable (xxhash : Bytes → UInt64)

def Proc.step (sh : Shared) : Action → Proc → Option (Shared × Proc)
  | .start readOnly, .idle =>
    some (sh.mapOracle fun o => o.newReadTs.2,
      .running ⟨readOnly, sh.oracle.toOracle.newReadTs.1, [], [], []⟩)
  | .get key now, .running t => some (sh, .running (t.get sh.log now key))
  | .write key entry, .running t =>
    if t.readOnly then none else some (sh, .running (t.write key entry))
  | .finish, .running t => some (sh.mapOracle (Oracle.done · t.readTs), .idle)
  | .check, .running t =>
    if t.readOnly || t.writes.isEmpty then none
    else
      match sh.oracle.checkAndCommit xxhash t.readTs t.readSet (t.writes.map Prod.fst) with
      | none => some (sh, .ending t)
      | some (commitTs, o) => some ({ sh with oracle := o }, .checked t commitTs)
  | .reserve, .checked t commitTs =>
    some (sh.mapOracle (Oracle.reserveVersion · commitTs), .checked t commitTs)
  | .submit entries, .checked t commitTs =>
    if entries.isPerm (stamp commitTs t.writes) then some (sh, .submitted t commitTs entries)
    else none
  | .refuse, .checked t commitTs => some (sh.settle ⟨commitTs, some t, []⟩ false)
  | .request r, .idle => some (sh, .queued r)
  | .refuse, .queued _ => some (sh, .idle)
  | .assign, .queued r =>
    some (sh.mapOracle fun o => o.newCommitTs.2, .assigned sh.oracle.toOracle.newCommitTs.1 r)
  | .append now ok, .assigned version r =>
    match if ok then r.effect version now sh.log else none with
    | none => some (sh.settle ⟨version, none, []⟩ false)
    | some writes =>
      some (sh, .inserting ⟨version, none, stamp version writes⟩ (stamp version writes))
  | .append _ ok, .submitted t commitTs entries =>
    if ok then some (sh, .inserting ⟨commitTs, some t, entries⟩ entries)
    else some (sh.settle ⟨commitTs, some t, []⟩ false)
  | .insert, .inserting b (x :: todo) =>
    some ({ sh with log := sh.log ++ [x] }, .inserting b todo)
  | .mark, .inserting b [] => some (sh.settle b true)
  | .reply synced, .settled ⟨version, none, _⟩ ok =>
    some ({ sh with acked := if ok && synced then version :: sh.acked else sh.acked }, .idle)
  | .reply _, .settled ⟨commitTs, some t, _⟩ ok =>
    if ok then
      some ({ sh.mapOracle (Oracle.done · t.readTs) with acked := commitTs :: sh.acked }, .idle)
    else some ({ sh with oracle := sh.oracle.abortCommit commitTs }, .ending t)
  | .done, .ending t => some (sh.mapOracle (Oracle.done · t.readTs), .idle)
  | .doneRead, p => some (sh.mapOracle Oracle.advanceApplied, p)
  | _, _ => none

/-- What each branch of `step` leaves, without the guards that no invariant rests on. -/
inductive Proc.Moves (sh : Shared) : Action → Proc → Shared → Proc → Prop where
  | start (readOnly : Bool) : Moves sh (.start readOnly) .idle (sh.mapOracle fun o => o.newReadTs.2)
      (.running ⟨readOnly, sh.oracle.toOracle.newReadTs.1, [], [], []⟩)
  | get (key : Bytes) (now : Int) (t : Tx) :
      Moves sh (.get key now) (.running t) sh (.running (t.get sh.log now key))
  | write (key : Bytes) (entry : TxEntry) (t : Tx) :
      Moves sh (.write key entry) (.running t) sh (.running (t.write key entry))
  | finish (t : Tx) : Moves sh .finish (.running t) (sh.mapOracle (Oracle.done · t.readTs)) .idle
  | conflict (t : Tx) : Moves sh .check (.running t) sh (.ending t)
  | grant (t : Tx) (commitTs : Nat) (o : TxnOracle)
      (hcheck : sh.oracle.checkAndCommit xxhash t.readTs t.readSet (t.writes.map Prod.fst) =
        some (commitTs, o)) :
      Moves sh .check (.running t) { sh with oracle := o } (.checked t commitTs)
  | reserve (t : Tx) (commitTs : Nat) : Moves sh .reserve (.checked t commitTs)
      (sh.mapOracle (Oracle.reserveVersion · commitTs)) (.checked t commitTs)
  | submit (t : Tx) (commitTs : Nat) (entries : List Entry)
      (hperm : entries.Perm (stamp commitTs t.writes)) :
      Moves sh (.submit entries) (.checked t commitTs) sh (.submitted t commitTs entries)
  | refuse (t : Tx) (commitTs : Nat) : Moves sh .refuse (.checked t commitTs)
      (sh.settle ⟨commitTs, some t, []⟩ false).1 (.settled ⟨commitTs, some t, []⟩ false)
  | request (r : Request) : Moves sh (.request r) .idle sh (.queued r)
  | refusePlain (r : Request) : Moves sh .refuse (.queued r) sh .idle
  | assign (r : Request) : Moves sh .assign (.queued r) (sh.mapOracle fun o => o.newCommitTs.2)
      (.assigned sh.oracle.toOracle.newCommitTs.1 r)
  | appendPlain (now : Int) (ok : Bool) (version : Nat) (r : Request) (writes : List (Bytes × TxEntry)) :
      Moves sh (.append now ok) (.assigned version r) sh
        (.inserting ⟨version, none, stamp version writes⟩ (stamp version writes))
  | failPlain (now : Int) (ok : Bool) (version : Nat) (r : Request) :
      Moves sh (.append now ok) (.assigned version r) (sh.settle ⟨version, none, []⟩ false).1
        (.settled ⟨version, none, []⟩ false)
  | append (now : Int) (ok : Bool) (t : Tx) (commitTs : Nat) (entries : List Entry) :
      Moves sh (.append now ok) (.submitted t commitTs entries) sh
        (.inserting ⟨commitTs, some t, entries⟩ entries)
  | fail (now : Int) (ok : Bool) (t : Tx) (commitTs : Nat) (entries : List Entry) :
      Moves sh (.append now ok) (.submitted t commitTs entries)
        (sh.settle ⟨commitTs, some t, []⟩ false).1 (.settled ⟨commitTs, some t, []⟩ false)
  | insert (b : Batch) (x : Entry) (todo : List Entry) : Moves sh .insert (.inserting b (x :: todo))
      { sh with log := sh.log ++ [x] } (.inserting b todo)
  | mark (b : Batch) : Moves sh .mark (.inserting b []) (sh.settle b true).1 (.settled b true)
  | replyPlain (synced : Bool) (version : Nat) (entries : List Entry) (ok : Bool) :
      Moves sh (.reply synced) (.settled ⟨version, none, entries⟩ ok)
        { sh with acked := if ok && synced then version :: sh.acked else sh.acked } .idle
  | reply (synced : Bool) (commitTs : Nat) (t : Tx) (entries : List Entry) :
      Moves sh (.reply synced) (.settled ⟨commitTs, some t, entries⟩ true)
        { sh.mapOracle (Oracle.done · t.readTs) with acked := commitTs :: sh.acked } .idle
  | abort (synced : Bool) (commitTs : Nat) (t : Tx) (entries : List Entry) :
      Moves sh (.reply synced) (.settled ⟨commitTs, some t, entries⟩ false)
        { sh with oracle := sh.oracle.abortCommit commitTs } (.ending t)
  | done (t : Tx) : Moves sh .done (.ending t) (sh.mapOracle (Oracle.done · t.readTs)) .idle
  | doneRead (p : Proc) : Moves sh .doneRead p (sh.mapOracle Oracle.advanceApplied) p

structure System where
  shared : Shared
  procs : List Proc

def step (s : System) (a : Nat × Action) : Option System :=
  s.procs[a.1]?.bind fun p =>
    (p.step xxhash s.shared a.2).map fun r => ⟨r.1, s.procs.set a.1 r.2⟩

variable {xxhash}

theorem Proc.moves_of_step {sh sh' : Shared} {a : Action} {p q : Proc}
    (h : p.step xxhash sh a = some (sh', q)) : Moves xxhash sh a p sh' q := by
  revert h
  fun_cases Proc.step xxhash sh a p <;> intro h <;> cases h
  all_goals try constructor
  case case8.refl hcheck => exact hcheck
  case case10.refl hperm => exact List.isPerm_iff.mp hperm
  case case24.refl hok =>
    simp only [Bool.not_eq_true] at hok
    subst hok
    constructor

theorem step_split {s s' : System} {a : Nat × Action} (h : step xxhash s a = some s') :
    ∃ l p r q, s.procs = l ++ p :: r ∧ p.step xxhash s.shared a.2 = some (s'.shared, q) ∧
      s'.procs = l ++ q :: r := by
  obtain ⟨p, hp, h⟩ := Option.bind_eq_some_iff.mp h
  obtain ⟨⟨sh', q⟩, hq, rfl⟩ := Option.map_eq_some_iff.mp h
  obtain ⟨l, r, hl, hset⟩ := set_split hp q
  exact ⟨l, p, r, q, hl, hq, hset⟩

def init (n : Nat) (base : List Entry) (count : Nat) : System :=
  ⟨⟨⟨⟨n, n, [], ⟨[], 0⟩⟩, [], fun _ => []⟩, base, [], []⟩, List.replicate count .idle⟩

end Txn
end AkwaDB
