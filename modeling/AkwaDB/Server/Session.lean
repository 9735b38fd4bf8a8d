import AkwaDB.Server.Buffer

/-!
# AkwaDB.Server.Session

One connection from its first request to its end: `handleConnection`, the blocks of `MULTI`, and the snapshots that
`BeginTx` takes and `RollbackTx` gives back.

Each request comes with what it meets: where the oracle stands, what the handlers of a block do to its buffer,
whether the commit conflicts and whether its writes can be applied. Nothing is assumed of any of it.

`snapshots_paired`: whatever the requests are and wherever the connection breaks off, every snapshot is given back
once, before the next is taken.
-/

namespace AkwaDB
namespace Server

inductive DbCall where
  | beginTx (readTs : Nat)
  | commitTx (readTs : Nat)
  | applyVersion (commitTs : Nat)
  | abortCommit (commitTs : Nat)
  | rollbackTx (readTs : Nat)
  deriving DecidableEq

def DbCall.isSnapshot : DbCall → Bool
  | .beginTx _ => true
  | .rollbackTx _ => true
  | _ => false

inductive Loop where
  | commands | subscribed | replica | closed
  deriving DecidableEq

/-- `client`, as far as blocks go, and the calls made so far. -/
structure Session where
  loop : Loop
  authed : Bool
  inTx : Bool
  txQueue : List (String × List String)
  txReadTs : Nat
  txBuffer : TxBuffer
  txAbort : Bool
  calls : List DbCall

/-- The server: `strings.ToUpper`, and which commands have handlers next to those of blocks. -/
structure Settings where
  password : String
  upper : String → String
  handlers : String → Bool

structure Meets where
  oracle : Oracle
  replay : String × List String → TxBuffer → TxBuffer
  commit : Option Nat
  applied : Bool
  eof : Bool

def txUnsupportedCommands : List String :=
  ["MSET", "HSET", "HDEL", "LPUSH", "RPUSH", "LPOP", "RPOP", "SADD", "SREM", "ZADD", "ZREM", "SETBIT", "HGET",
    "HGETALL", "HLEN", "HKEYS", "SMEMBERS", "SCARD", "SISMEMBER", "LLEN", "LRANGE", "ZSCORE", "ZRANGEBYSCORE",
    "GETBIT", "BITCOUNT", "GETDEL", "SINTER"]

namespace Session

def newClient : Session := ⟨.commands, false, false, [], 0, .empty, false, []⟩

section
variable (srv : Settings) (m : Meets) (c : Session)

def cmdMulti : Session :=
  if c.inTx then c
  else
    let readTs := m.oracle.newReadTs.1
    { c with
      inTx := true, txQueue := [], txReadTs := readTs, txBuffer := .empty, txAbort := false
      calls := c.calls ++ [.beginTx readTs] }

def dropBlock : Session :=
  { c with
    inTx := false, txQueue := [], txReadTs := 0, txBuffer := .empty, txAbort := false
    calls := c.calls ++ [.rollbackTx c.txReadTs] }

def cmdDiscard : Session := if c.inTx then c.dropBlock else c

/-- The calls of `EXEC` for what the block has written. -/
def commitCalls (b : TxBuffer) : List DbCall :=
  if b.writes.isEmpty then []
  else
    match m.commit with
    | none => [.commitTx c.txReadTs]
    | some ts =>
      .commitTx c.txReadTs :: .applyVersion ts :: if m.applied then [] else [.abortCommit ts]

def cmdExec : Session :=
  if !c.inTx then c
  else if c.txAbort then c.dropBlock
  else
    let b := c.txQueue.foldl (fun b q => if srv.handlers q.1 then m.replay q b else b) c.txBuffer
    -- the snapshot is given back by a deferred call
    { c with
      inTx := false, txQueue := [], txReadTs := 0, txBuffer := .empty
      calls := c.calls ++ (c.commitCalls m b ++ [.rollbackTx c.txReadTs]) }

def cmdAuth (args : List String) : Session :=
  if args = [] ∨ 2 < args.length ∨ srv.password = "" then c
  else { c with authed := c.authed || args.getLast? == some srv.password }

def finish : Session :=
  if c.loop = .closed then c
  else if c.inTx ∧ 0 < c.txReadTs then
    { c with loop := .closed, txReadTs := 0, calls := c.calls ++ [.rollbackTx c.txReadTs] }
  else { c with loop := .closed }

/-- The handlers. That of a command outside of blocks may end the connection. -/
def dispatch (cmd : String) : Session :=
  if cmd = "MULTI" then c.cmdMulti m
  else if cmd = "EXEC" then c.cmdExec srv m
  else if cmd = "DISCARD" then c.cmdDiscard
  else if srv.handlers cmd ∧ m.eof then c.finish
  else c

def command (cmd : String) (args : List String) : Session :=
  if cmd = "AUTH" then c.cmdAuth srv args
  else if cmd = "QUIT" then c.finish
  else if srv.password ≠ "" ∧ c.authed = false then c
  else if cmd = "SUBSCRIBE" then if args = [] then c.finish else { c with loop := .subscribed }
  else if cmd = "SYNC" ∨ cmd = "PSYNC" then { c with loop := .replica }
  else if c.inTx ∧ cmd ≠ "EXEC" ∧ cmd ≠ "DISCARD" ∧ cmd ≠ "MULTI" ∧ cmd ≠ "QUIT" then
    if cmd ∈ txUnsupportedCommands then { c with txAbort := true }
    else { c with txQueue := c.txQueue ++ [(cmd, args)] }
  else c.dispatch srv m cmd

end

inductive Event where
  | request (args : List String) (m : Meets)
  | disconnect

def step (srv : Settings) (c : Session) : Event → Session
  | .disconnect => c.finish
  | .request [] _ => c
  | .request (name :: args) m =>
    match c.loop with
    | .commands => c.command srv m (srv.upper name) args
    | .subscribed => if srv.upper name = "QUIT" then c.finish else c
    | .replica => c
    | .closed => c

/-- Blocks of calls, each with one snapshot that is taken first and given back last. -/
inductive Paired : List DbCall → Prop where
  | nil : Paired []
  | block {l mid : List DbCall} (readTs : Nat) : Paired l → (∀ call ∈ mid, call.isSnapshot = false) →
      Paired (l ++ .beginTx readTs :: (mid ++ [.rollbackTx readTs]))

/-- A block is open and its snapshot with it, or all snapshots have been given back. -/
def Ok (c : Session) : Prop :=
  if c.loop ≠ .closed ∧ c.inTx then
    0 < c.txReadTs ∧ ∃ l, Paired l ∧ c.calls = l ++ [.beginTx c.txReadTs]
  else Paired c.calls

theorem Ok.of_eq {c c' : Session} (h : c.Ok) (hloop : c'.loop = .closed ↔ c.loop = .closed) (hin : c'.inTx = c.inTx)
    (hts : c'.txReadTs = c.txReadTs) (hcalls : c'.calls = c.calls) : c'.Ok := by
  unfold Ok at *
  simpa only [hin, hts, hcalls, Ne, hloop] using h

section
variable {srv : Settings} {m : Meets} {c : Session}

theorem newReadTs_pos (o : Oracle) : 0 < o.newReadTs.1 := by
  unfold Oracle.newReadTs
  dsimp only
  split <;> omega

theorem commitCalls_isSnapshot (b : TxBuffer) : ∀ call ∈ c.commitCalls m b, call.isSnapshot = false := by
  unfold commitCalls
  split
  · simp
  · split
    · simp [DbCall.isSnapshot]
    · split <;> simp [DbCall.isSnapshot]

section
variable (h : c.Ok)
include h

theorem Ok.release (hloop : c.loop ≠ .closed) (hin : c.inTx = true) (mid : List DbCall)
    (hmid : ∀ call ∈ mid, call.isSnapshot = false) :
    0 < c.txReadTs ∧ Paired (c.calls ++ (mid ++ [.rollbackTx c.txReadTs])) := by
  rw [Ok, if_pos ⟨hloop, hin⟩] at h
  obtain ⟨hpos, l, hl, hcalls⟩ := h
  refine ⟨hpos, ?_⟩
  rw [hcalls, List.append_assoc, List.singleton_append]
  exact .block c.txReadTs hl hmid

theorem Ok.cmdMulti (hloop : c.loop ≠ .closed) : (c.cmdMulti m).Ok := by
  unfold Session.cmdMulti
  split
  · exact h
  · rename_i hin
    rw [Ok, if_neg fun hc => hin hc.2] at h
    rw [Ok, if_pos ⟨hloop, rfl⟩]
    exact ⟨newReadTs_pos _, c.calls, h, rfl⟩

theorem Ok.dropBlock (hloop : c.loop ≠ .closed) (hin : c.inTx = true) : c.dropBlock.Ok := by
  rw [Ok, if_neg fun hc => Bool.false_ne_true hc.2]
  exact (h.release hloop hin [] (by simp)).2

theorem Ok.cmdExec (hloop : c.loop ≠ .closed) : (c.cmdExec srv m).Ok := by
  unfold Session.cmdExec
  split
  · exact h
  · rename_i hin
    have hin : c.inTx = true := by simpa using hin
    split
    · exact h.dropBlock hloop hin
    · rw [Ok, if_neg fun hc => Bool.false_ne_true hc.2]
      exact (h.release hloop hin _ (commitCalls_isSnapshot _)).2

theorem Ok.finish : c.finish.Ok ∧ c.finish.loop = .closed := by
  unfold Session.finish
  split
  · rename_i hloop
    exact ⟨h, hloop⟩
  · rename_i hloop
    split
    · rename_i hin
      refine ⟨?_, rfl⟩
      rw [Ok, if_neg fun hc => hc.1 rfl]
      exact (h.release hloop hin.1 [] (by simp)).2
    · rename_i hin
      refine ⟨?_, rfl⟩
      rw [Ok, if_neg fun hc => hc.1 rfl]
      rw [Ok] at h
      split at h
      · rename_i hopen
        exact absurd ⟨hopen.2, h.1⟩ hin
      · exact h

theorem Ok.dispatch (hloop : c.loop ≠ .closed) (cmd : String) : (c.dispatch srv m cmd).Ok := by
  unfold Session.dispatch
  split
  · exact h.cmdMulti hloop
  · split
    · exact h.cmdExec hloop
    · split
      · unfold cmdDiscard
        split
        · rename_i hin
          exact h.dropBlock hloop hin
        · exact h
      · split
        · exact h.finish.1
        · exact h

theorem Ok.command (hloop : c.loop ≠ .closed) (cmd : String) (args : List String) :
    (c.command srv m cmd args).Ok := by
  unfold Session.command
  split
  · unfold cmdAuth
    split
    · exact h
    · exact h.of_eq Iff.rfl rfl rfl rfl
  · split
    · exact h.finish.1
    · split
      · exact h
      · split
        · split
          · exact h.finish.1
          · exact h.of_eq (by simp [hloop]) rfl rfl rfl
        · split
          · exact h.of_eq (by simp [hloop]) rfl rfl rfl
          · split
            · split
              · exact h.of_eq Iff.rfl rfl rfl rfl
              · exact h.of_eq Iff.rfl rfl rfl rfl
            · exact h.dispatch hloop cmd

theorem Ok.step (e : Event) : (c.step srv e).Ok := by
  cases e with
  | disconnect => exact h.finish.1
  | request args m =>
    cases args with
    | nil => exact h
    | cons name args =>
      rw [Session.step]
      cases hloop : c.loop with
      | commands => exact h.command (by simp [hloop]) _ args
      | subscribed =>
        dsimp only
        split
        · exact h.finish.1
        · exact h
      | replica => exact h
      | closed => exact h

theorem Ok.run (events : List Event) : (events.foldl (Session.step srv) c).Ok := by
  induction events generalizing c with
  | nil => exact h
  | cons e events ih => exact ih (h.step e)

end

end

/-- **No snapshot is leaked or given back twice**, whatever the requests and wherever the connection ends. -/
theorem snapshots_paired (srv : Settings) (events : List Event) :
    Paired (events.foldl (step srv) newClient).finish.calls := by
  have hrun : (events.foldl (step srv) newClient).Ok := Ok.run (c := newClient) .nil events
  obtain ⟨hok, hclosed⟩ := hrun.finish
  rw [Ok, if_neg fun hc => hc.1 hclosed] at hok
  exact hok

end Session
end Server
end AkwaDB
