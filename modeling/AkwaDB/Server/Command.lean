import AkwaDB.Server.Collections

/-!
# AkwaDB.Server.Command

The commands that write, by their two ways to the engine: the handler calls it, or hands the command to Raft,
which executes it on every node and returns what that gave.

The two ways read the arguments on their own, and what Raft returns is encoded once more. `SKIPWAL` and
`SYNC` only say how a write is logged. `ToUpper` and `ParseFloat` are those of the Go library.

- `executeReplicatedCommand`: what Raft executes.
- `handle`: the handlers, with a cluster or without.
- `clustered_agrees_iff`: the two ways agree except for a `SET` that is given an expiry.
-/

namespace AkwaDB
namespace Server

open Client (strKey)

/-- `strings.ToUpper` and `strconv.ParseFloat`, which returns the bits. -/
structure Runtime where
  toUpper : Bytes → Bytes
  parseFloat : Bytes → Option Score

inductive Op where
  | set | setex | del | getdel | expire | incrby | mset | hset | hdel | lpush | rpush | lpop | rpop
  | sadd | srem | zadd | zrem | setbit
  | other (name : String)
  deriving DecidableEq

inductive Result where
  | nil
  | err (text : String)
  | int64 (n : Int64)
  | int (n : Int64)
  | bool (b : Bool)
  | str (s : Bytes)
  deriving DecidableEq

inductive Reply where
  | simple (s : String)
  | error (text : String)
  | int (n : Int64)
  | bulk (b : Bytes)
  | null
  | bulks (items : List (Option Bytes))
  deriving DecidableEq

def wrongArgs (name : String) : String := "ERR wrong number of arguments for '" ++ name ++ "' command"

def syntaxError : String := "ERR syntax error"

def notAFloat : String := "ERR score is not a valid float"

def badBit : String := "ERR bit must be 0 or 1"

def parseMembers (rt : Runtime) (ps : List (Bytes × Bytes)) : Option (List (Bytes × Score)) :=
  ps.mapM fun p => ((rt.parseFloat p.1).filter fun score => !score.isNaN).map fun score => (p.2, score)

def parseBit (offset val : Bytes) : Except String (Int64 × Int64) :=
  match (parseInt offset).filter fun n => decide (0 ≤ n) with
  | none => .error badOffset
  | some n =>
    match (parseInt val).filter fun b => b == 0 || b == 1 with
    | none => .error badBit
    | some b => .ok (n, b)

def msetPairs (args : List Bytes) : List (Bytes × Bytes) := assocAll ((pairs args).map fun p => (strKey p.1, p.2))

inductive TimeOption where
  | ex | px | exat | pxat

inductive SetOption where
  | skipWal
  | sync
  | time (t : TimeOption)

def setOption (word : Bytes) : Option SetOption :=
  -- SKIPWAL
  if word = [83, 75, 73, 80, 87, 65, 76] then some .skipWal
  -- SYNC
  else if word = [83, 89, 78, 67] then some .sync
  -- EX, PX, EXAT, PXAT
  else if word = [69, 88] then some (.time .ex)
  else if word = [80, 88] then some (.time .px)
  else if word = [69, 88, 65, 84] then some (.time .exat)
  else if word = [80, 88, 65, 84] then some (.time .pxat)
  else none

def TimeOption.expiresAt (now : Int) (n : Int64) : TimeOption → Int64
  | ex => secondsFrom now n
  | px => secondsFrom now (n / 1000)
  | exat => n
  | pxat => n / 1000

/-- The loop of `cmdSet` over the options: the expiry so far, and at the end. -/
def parseSetOptions (rt : Runtime) (now : Int) : Int64 → List Bytes → Except String Int64
  | expiresAt, [] => .ok expiresAt
  | expiresAt, word :: rest =>
    match setOption (rt.toUpper word) with
    | none => .error syntaxError
    | some .skipWal => parseSetOptions rt now expiresAt rest
    | some .sync => parseSetOptions rt now expiresAt rest
    | some (.time t) =>
      match rest with
      | [] => .error syntaxError
      | arg :: rest =>
        match parseInt arg with
        | none => .error notAnInteger
        | some n => parseSetOptions rt now (t.expiresAt now n) rest

/-! ## The commands as Raft executes them -/

def deleteKeyInDB (key : Bytes) : DbM Bool := do
  let existed ← delete (strKey key)
  let n ← deleteCollection key
  return existed || decide (0 < n)

def deleteKeys (keys : List Bytes) : DbM Int64 :=
  (fun deleted => Int64.ofNat (deleted.count true)) <$> keys.mapM deleteKeyInDB

/-- A value, or `nil` where the engine returns an error. -/
def Result.ofValue : Option Bytes → Result
  | none => .nil
  | some val => .str val

def Result.ofExcept (f : Int64 → Result) : Except String Int64 → Result
  | .error e => .err e
  | .ok n => f n

def execCount (name : String) (call : Bytes → List Bytes → DbM Int64) (args : List Bytes) : DbM Result :=
  match args with
  | key :: v :: vs => .int64 <$> call key (v :: vs)
  | _ => return .err (wrongArgs name)

def execPop (name : String) (call : Bytes → DbM (Option Bytes)) (args : List Bytes) : DbM Result :=
  match args with
  | key :: _ => .ofValue <$> call key
  | _ => return .err (wrongArgs name)

variable (rt : Runtime)

def executeReplicatedCommand (op : Op) (args : List Bytes) : DbM Result :=
  match op with
  | .set =>
    match args with
    | key :: val :: _ => do
      put (strKey key) val
      return .nil
    | _ => return .err (wrongArgs "set")
  | .setex =>
    match args with
    | key :: seconds :: val :: _ =>
      match parseInt seconds with
      | none => return .err notAnInteger
      | some sec => do
        putEx (strKey key) val sec
        return .nil
    | _ => return .err (wrongArgs "setex")
  | .del =>
    match args with
    | [] => return .err (wrongArgs "del")
    | keys => .int64 <$> deleteKeys keys
  | .getdel => execPop "getdel" (fun key => getDel (strKey key)) args
  | .expire =>
    match args with
    | key :: seconds :: _ =>
      match parseInt seconds with
      | none => return .err notAnInteger
      | some sec => .bool <$> expireKey key sec
    | _ => return .err (wrongArgs "expire")
  | .incrby =>
    match args with
    | key :: by_ :: _ =>
      match parseInt by_ with
      | none => return .err notAnInteger
      | some delta => .ofExcept .int64 <$> incrBy (strKey key) delta
    | _ => return .err (wrongArgs "incrby")
  | .mset =>
    if args.length < 2 ∨ args.length % 2 ≠ 0 then return .err (wrongArgs "mset")
    else do
      mset (msetPairs args)
      return .nil
  | .hset =>
    match args with
    | key :: fields =>
      if fields.length < 2 ∨ fields.length % 2 ≠ 0 then return .err (wrongArgs "hset")
      else .int64 <$> hsetMulti key fields
    | _ => return .err (wrongArgs "hset")
  | .hdel =>
    match args with
    | key :: field :: _ => .bool <$> hdel key field
    | _ => return .err (wrongArgs "hdel")
  | .lpush => execCount "lpush" lpush args
  | .rpush => execCount "rpush" rpush args
  | .lpop => execPop "lpop" lpop args
  | .rpop => execPop "rpop" rpop args
  | .sadd => execCount "sadd" sadd args
  | .srem => execCount "srem" srem args
  | .zadd =>
    match args with
    | key :: scored =>
      if scored.length < 2 ∨ scored.length % 2 ≠ 0 then return .err (wrongArgs "zadd")
      else
        match parseMembers rt (pairs scored) with
        | none => return .err notAFloat
        | some members => .int64 <$> zaddMulti key members
    | _ => return .err (wrongArgs "zadd")
  | .zrem => execCount "zrem" zrem args
  | .setbit =>
    match args with
    | [key, offset, val] =>
      match parseBit offset val with
      | .error e => return .err e
      | .ok (n, b) => .ofExcept .int <$> setBit key n b
    | _ => return .err (wrongArgs "setbit")
  | .other name => return .err ("ERR unknown replicated command '" ++ name ++ "'")

/-- `ApplyCommand` returns an error that comes back as its own. -/
def Result.outcome : Result → Except String Result
  | .err e => .error e
  | r => .ok r

/-- `none` when there is no cluster. -/
def applyReplicated (clustered : Bool) (op : Op) (args : List Bytes) : DbM (Option (Except String Result)) :=
  if clustered then (fun r => some r.outcome) <$> executeReplicatedCommand rt op args else return none

def replCount : Result → Int64
  | .int64 n => n
  | .int n => n
  | _ => 0

/-- The replies that handlers give to what came back. -/
def Reply.ok : Except String Result → Reply
  | .error e => .error e
  | .ok _ => .simple "OK"

def Reply.count : Except String Result → Reply
  | .error e => .error e
  | .ok r => .int (replCount r)

def Reply.int64 : Except String Result → Reply
  | .error e => .error e
  | .ok (.int64 n) => .int n
  | .ok _ => .int 0

def Reply.truth : Except String Result → Reply
  | .error e => .error e
  | .ok (.bool true) => .int 1
  | .ok _ => .int 0

def Reply.value : Except String Result → Reply
  | .error e => .error e
  | .ok (.str s) => .bulk s
  | .ok _ => .null

def Reply.ofValue : Option Bytes → Reply
  | none => .null
  | some val => .bulk val

def Reply.ofBool (b : Bool) : Reply := .int (if b then 1 else 0)

def Reply.ofExcept : Except String Int64 → Reply
  | .error e => .error e
  | .ok n => .int n

/-- A command goes to the cluster if there is one, and otherwise to the engine. -/
def route (clustered : Bool) (op : Op) (args : List Bytes) (reply : Except String Result → Reply)
    (standalone : DbM Reply) : DbM Reply := do
  match ← applyReplicated rt clustered op args with
  | some res => return reply res
  | none => standalone

variable (clustered : Bool)

def cmdSet (args : List Bytes) : DbM Reply :=
  match args with
  | key :: val :: options => do
    match parseSetOptions rt (← clock) 0 options with
    | .error e => return .error e
    | .ok expiresAt =>
      route rt clustered .set args .ok do
        putExAt (strKey key) val expiresAt
        return .simple "OK"
  | _ => return .error (wrongArgs "set")

def cmdSetEx (args : List Bytes) : DbM Reply :=
  match args with
  | key :: seconds :: val :: _ =>
    match parseInt seconds with
    | none => return .error notAnInteger
    | some sec =>
      route rt clustered .setex args .ok do
        putEx (strKey key) val sec
        return .simple "OK"
  | _ => return .error (wrongArgs "setex")

def cmdPop (op : Op) (name : String) (call : Bytes → DbM (Option Bytes)) (args : List Bytes) : DbM Reply :=
  match args with
  | key :: _ => route rt clustered op args .value (.ofValue <$> call key)
  | _ => return .error (wrongArgs name)

def cmdGetDel : List Bytes → DbM Reply := cmdPop rt clustered .getdel "getdel" fun key => getDel (strKey key)

def cmdDel (args : List Bytes) : DbM Reply :=
  match args with
  | [] => return .error (wrongArgs "del")
  | keys => route rt clustered .del args .int64 (.int <$> deleteKeys keys)

def cmdExpire (args : List Bytes) : DbM Reply :=
  match args with
  | key :: seconds :: _ =>
    match parseInt seconds with
    | none => return .error notAnInteger
    | some sec => route rt clustered .expire args .truth (.ofBool <$> expireKey key sec)
  | _ => return .error (wrongArgs "expire")

/-- `INCR` and `DECR` report missing arguments alike. -/
def cmdIncrByDelta (args : List Bytes) (delta : Int64) : DbM Reply :=
  match args with
  | key :: _ =>
    route rt clustered .incrby [key, formatInt delta] .int64 do
      if delta = 1 then .ofExcept <$> incr (strKey key)
      else if delta = -1 then .ofExcept <$> decr (strKey key)
      else .ofExcept <$> incrBy (strKey key) delta
  | _ => return .error (wrongArgs "incr")

def cmdIncr (args : List Bytes) : DbM Reply := cmdIncrByDelta rt clustered args 1

def cmdDecr (args : List Bytes) : DbM Reply := cmdIncrByDelta rt clustered args (-1)

def cmdIncrBy (args : List Bytes) : DbM Reply :=
  match args with
  | key :: by_ :: _ =>
    match parseInt by_ with
    | none => return .error notAnInteger
    | some delta => cmdIncrByDelta rt clustered [key] delta
  | _ => return .error (wrongArgs "incrby")

def cmdMSet (args : List Bytes) : DbM Reply :=
  if args.length < 2 ∨ args.length % 2 ≠ 0 then return .error (wrongArgs "mset")
  else
    route rt clustered .mset args .ok do
      mset (msetPairs args)
      return .simple "OK"

def cmdHSet (args : List Bytes) : DbM Reply :=
  match args with
  | key :: fields =>
    if fields.length < 2 ∨ fields.length % 2 ≠ 0 then return .error (wrongArgs "hset")
    else route rt clustered .hset args .count (.int <$> hsetMulti key fields)
  | _ => return .error (wrongArgs "hset")

def cmdHDel (args : List Bytes) : DbM Reply :=
  match args with
  | key :: field :: _ => route rt clustered .hdel args .truth (.ofBool <$> hdel key field)
  | _ => return .error (wrongArgs "hdel")

def cmdCount (op : Op) (name : String) (call : Bytes → List Bytes → DbM Int64) (args : List Bytes) : DbM Reply :=
  match args with
  | key :: v :: vs => route rt clustered op args .count (.int <$> call key (v :: vs))
  | _ => return .error (wrongArgs name)

def cmdLPush : List Bytes → DbM Reply := cmdCount rt clustered .lpush "lpush" lpush

def cmdRPush : List Bytes → DbM Reply := cmdCount rt clustered .rpush "rpush" rpush

def cmdSAdd : List Bytes → DbM Reply := cmdCount rt clustered .sadd "sadd" sadd

def cmdSRem : List Bytes → DbM Reply := cmdCount rt clustered .srem "srem" srem

def cmdZRem : List Bytes → DbM Reply := cmdCount rt clustered .zrem "zrem" zrem

def cmdLPop : List Bytes → DbM Reply := cmdPop rt clustered .lpop "lpop" lpop

def cmdRPop : List Bytes → DbM Reply := cmdPop rt clustered .rpop "rpop" rpop

/-- The scores are read after the cluster has been asked. -/
def cmdZAdd (args : List Bytes) : DbM Reply :=
  match args with
  | key :: scored =>
    if scored.length < 2 ∨ scored.length % 2 ≠ 0 then return .error (wrongArgs "zadd")
    else
      route rt clustered .zadd args .count <|
        match parseMembers rt (pairs scored) with
        | none => return .error notAFloat
        | some members => .int <$> zaddMulti key members
  | _ => return .error (wrongArgs "zadd")

def cmdSetBit (args : List Bytes) : DbM Reply :=
  match args with
  | [key, offset, val] =>
    match parseBit offset val with
    | .error e => return .error e
    | .ok (n, b) => route rt clustered .setbit args .count (.ofExcept <$> setBit key n b)
  | _ => return .error (wrongArgs "setbit")

inductive Command where
  | set | setex | getdel | del | expire | incr | decr | incrby | mset | hset | hdel | lpush | rpush | lpop
  | rpop | sadd | srem | zadd | zrem | setbit
  deriving DecidableEq

def handle : Command → List Bytes → DbM Reply
  | .set => cmdSet rt clustered
  | .setex => cmdSetEx rt clustered
  | .getdel => cmdGetDel rt clustered
  | .del => cmdDel rt clustered
  | .expire => cmdExpire rt clustered
  | .incr => cmdIncr rt clustered
  | .decr => cmdDecr rt clustered
  | .incrby => cmdIncrBy rt clustered
  | .mset => cmdMSet rt clustered
  | .hset => cmdHSet rt clustered
  | .hdel => cmdHDel rt clustered
  | .lpush => cmdLPush rt clustered
  | .rpush => cmdRPush rt clustered
  | .lpop => cmdLPop rt clustered
  | .rpop => cmdRPop rt clustered
  | .sadd => cmdSAdd rt clustered
  | .srem => cmdSRem rt clustered
  | .zadd => cmdZAdd rt clustered
  | .zrem => cmdZRem rt clustered
  | .setbit => cmdSetBit rt clustered

/-! ## The two ways agree -/

section
variable {rt : Runtime}

theorem route_clustered (op : Op) (args : List Bytes) (reply : Except String Result → Reply)
    (standalone : DbM Reply) : route rt true op args reply standalone =
      (fun r => reply r.outcome) <$> executeReplicatedCommand rt op args := by
  simp [route, applyReplicated]

theorem route_standalone (op : Op) (args : List Bytes) (reply : Except String Result → Reply)
    (standalone : DbM Reply) : route rt false op args reply standalone = standalone := by
  simp [route, applyReplicated]

theorem route_eq {α : Type} {op : Op} {args : List Bytes} {reply : Except String Result → Reply}
    {call : DbM α} {f : α → Result} {g : α → Reply} (hexec : executeReplicatedCommand rt op args = f <$> call)
    (h : ∀ a, reply (f a).outcome = g a) :
    route rt true op args reply (g <$> call) = route rt false op args reply (g <$> call) := by
  rw [route_clustered, route_standalone, hexec, Functor.map_map]
  exact congrArg (· <$> call) (funext h)

theorem reply_ofExcept (f : Int64 → Result) (reply : Except String Result → Reply)
    (herr : ∀ e, reply (.error e) = .error e) (hint : ∀ n, reply (f n).outcome = .int n) (r : Except String Int64) :
    reply (Result.ofExcept f r).outcome = Reply.ofExcept r := by
  cases r with
  | error e => exact herr e
  | ok n => exact hint n

theorem reply_ofValue (v : Option Bytes) : Reply.value (Result.ofValue v).outcome = .ofValue v := by
  cases v <;> rfl

theorem reply_ofBool (b : Bool) : Reply.truth (Result.bool b).outcome = .ofBool b := by
  cases b <;> rfl

theorem cmdCount_eq {op : Op} {name : String} {call : Bytes → List Bytes → DbM Int64}
    (h : ∀ args, executeReplicatedCommand rt op args = execCount name call args) (args : List Bytes) :
    cmdCount rt true op name call args = cmdCount rt false op name call args := by
  unfold cmdCount
  split
  · exact route_eq (f := .int64) (h _) fun _ => rfl
  · rfl

theorem cmdPop_eq {op : Op} {name : String} {call : Bytes → DbM (Option Bytes)}
    (h : ∀ args, executeReplicatedCommand rt op args = execPop name call args) (args : List Bytes) :
    cmdPop rt true op name call args = cmdPop rt false op name call args := by
  unfold cmdPop
  split
  · exact route_eq (f := .ofValue) (h _) reply_ofValue
  · rfl

theorem incrByDelta_call (key : Bytes) (delta : Int64) :
    (if delta = 1 then Reply.ofExcept <$> incr (strKey key)
      else if delta = -1 then Reply.ofExcept <$> decr (strKey key)
      else Reply.ofExcept <$> incrBy (strKey key) delta) = Reply.ofExcept <$> incrBy (strKey key) delta := by
  split
  · rename_i h
    rw [h]
    rfl
  · split
    · rename_i h
      rw [h]
      rfl
    · rfl

section
variable (args : List Bytes)

theorem cmdIncrByDelta_eq (delta : Int64) :
    cmdIncrByDelta rt true args delta = cmdIncrByDelta rt false args delta := by
  unfold cmdIncrByDelta
  split
  · rename_i key _
    rw [incrByDelta_call]
    refine route_eq (f := .ofExcept .int64) ?_ (reply_ofExcept _ _ (fun _ => rfl) fun _ => rfl)
    unfold executeReplicatedCommand
    simp only [parseInt_formatInt]
  · rfl

theorem cmdSetEx_eq : cmdSetEx rt true args = cmdSetEx rt false args := by
  unfold cmdSetEx
  split
  · split
    · rfl
    · rename_i hsec
      simp only [bind_pure_comp]
      exact route_eq (f := fun _ => .nil) (by unfold executeReplicatedCommand; simp only [hsec, bind_pure_comp])
        fun _ => rfl
  · rfl

theorem cmdMSet_eq : cmdMSet rt true args = cmdMSet rt false args := by
  unfold cmdMSet
  split
  · rfl
  · rename_i hlen
    simp only [bind_pure_comp]
    exact route_eq (f := fun _ => .nil) (by unfold executeReplicatedCommand; simp only [if_neg hlen, bind_pure_comp])
      fun _ => rfl

theorem cmdHSet_eq : cmdHSet rt true args = cmdHSet rt false args := by
  unfold cmdHSet
  split
  · split
    · rfl
    · rename_i hlen
      exact route_eq (f := .int64) (by unfold executeReplicatedCommand; simp only [if_neg hlen]) fun _ => rfl
  · rfl

theorem cmdHDel_eq : cmdHDel rt true args = cmdHDel rt false args := by
  unfold cmdHDel
  split
  · exact route_eq (f := .bool) rfl reply_ofBool
  · rfl

theorem cmdDel_eq : cmdDel rt true args = cmdDel rt false args := by
  cases args with
  | nil => rfl
  | cons key keys => exact route_eq (f := .int64) rfl fun _ => rfl

theorem cmdIncrBy_eq : cmdIncrBy rt true args = cmdIncrBy rt false args := by
  unfold cmdIncrBy
  split
  · split
    · rfl
    · exact cmdIncrByDelta_eq _ _
  · rfl

theorem cmdExpire_eq : cmdExpire rt true args = cmdExpire rt false args := by
  unfold cmdExpire
  split
  · split
    · rfl
    · rename_i sec hsec
      exact route_eq (f := .bool) (by unfold executeReplicatedCommand; simp only [hsec]) reply_ofBool
  · rfl

theorem cmdZAdd_eq : cmdZAdd rt true args = cmdZAdd rt false args := by
  unfold cmdZAdd
  split
  · split
    · rfl
    · rename_i key scored hlen
      cases hm : parseMembers rt (pairs scored) with
      | none =>
        rw [route_clustered, route_standalone]
        unfold executeReplicatedCommand
        simp only [if_neg hlen, hm, map_pure]
        rfl
      | some members =>
        exact route_eq (f := .int64) (by unfold executeReplicatedCommand; simp only [if_neg hlen, hm]) fun _ => rfl
  · rfl

theorem cmdSetBit_eq : cmdSetBit rt true args = cmdSetBit rt false args := by
  unfold cmdSetBit
  split
  · split
    · rfl
    · rename_i n b hbit
      refine route_eq (f := .ofExcept .int) ?_ (reply_ofExcept _ _ (fun _ => rfl) fun _ => rfl)
      unfold executeReplicatedCommand
      simp only [hbit]
  · rfl

end

theorem cmdSet_run (clustered : Bool) (key val : Bytes) (options : List Bytes) (n : Node) :
    (cmdSet rt clustered (key :: val :: options)).run n =
      match parseSetOptions rt n.now 0 options with
      | .error e => (.error e, n)
      | .ok expiresAt =>
        (.simple "OK", n.applyAt (n.nextTs + 1)
          [⟨strKey key, val, if clustered then 0 else expiresAt, false⟩]) := by
  simp only [cmdSet, StateT.run_bind]
  show (match parseSetOptions rt n.now 0 options with
    | .error e => return .error e
    | .ok expiresAt => route rt clustered .set (key :: val :: options) .ok do
        putExAt (strKey key) val expiresAt
        return .simple "OK" : DbM Reply).run n = _
  cases parseSetOptions rt n.now 0 options with
  | error e => rfl
  | ok expiresAt =>
    cases clustered with
    | true =>
      -- the cluster is sent all arguments and reads the first two
      show (route rt true .set (key :: val :: options) .ok _).run n = _
      rw [route_clustered]
      rfl
    | false =>
      show (route rt false .set (key :: val :: options) .ok _).run n = _
      rw [route_standalone]
      rfl

def GivesExpiry (rt : Runtime) (now : Int) (cmd : Command) (args : List Bytes) : Prop :=
  cmd = .set ∧ 2 ≤ args.length ∧ ∃ expiresAt ≠ 0, parseSetOptions rt now 0 (args.drop 2) = .ok expiresAt

theorem cmdSet_eq_iff (args : List Bytes) (n : Node) :
    (cmdSet rt true args).run n = (cmdSet rt false args).run n ↔ ¬ GivesExpiry rt n.now .set args := by
  match args with
  | [] => simp [cmdSet, GivesExpiry]
  | [key] => simp [cmdSet, GivesExpiry]
  | key :: val :: options =>
    rw [cmdSet_run, cmdSet_run]
    cases hopts : parseSetOptions rt n.now 0 options with
    | error e => simp [GivesExpiry, hopts]
    | ok expiresAt =>
      have hgives : GivesExpiry rt n.now .set (key :: val :: options) ↔ expiresAt ≠ 0 := by
        simp [GivesExpiry, hopts]
      rw [hgives, not_not]
      constructor
      · intro heq
        have hlog := congrArg (fun r => (r.2.log.head?.map Entry.expiresAt)) heq
        have hexp : (0 : Int64).toInt = expiresAt.toInt := by simpa [Node.applyAt, stamped] using hlog
        exact (Int64.toInt_inj.mp hexp).symm
      · rintro rfl
        rfl

theorem handle_eq {cmd : Command} (hset : cmd ≠ .set) (args : List Bytes) :
    handle rt true cmd args = handle rt false cmd args := by
  cases cmd with
  | set => exact absurd rfl hset
  | setex => exact cmdSetEx_eq args
  | getdel => exact cmdPop_eq (fun _ => rfl) args
  | del => exact cmdDel_eq args
  | expire => exact cmdExpire_eq args
  | incr => exact cmdIncrByDelta_eq args 1
  | decr => exact cmdIncrByDelta_eq args (-1)
  | incrby => exact cmdIncrBy_eq args
  | mset => exact cmdMSet_eq args
  | hset => exact cmdHSet_eq args
  | hdel => exact cmdHDel_eq args
  | lpush => exact cmdCount_eq (fun _ => rfl) args
  | rpush => exact cmdCount_eq (fun _ => rfl) args
  | lpop => exact cmdPop_eq (fun _ => rfl) args
  | rpop => exact cmdPop_eq (fun _ => rfl) args
  | sadd => exact cmdCount_eq (fun _ => rfl) args
  | srem => exact cmdCount_eq (fun _ => rfl) args
  | zadd => exact cmdZAdd_eq args
  | zrem => exact cmdCount_eq (fun _ => rfl) args
  | setbit => exact cmdSetBit_eq args

/-- **The two ways agree** on every argument list, except for a `SET` with an expiry. -/
theorem clustered_agrees_iff (rt : Runtime) (cmd : Command) (args : List Bytes) (n : Node) :
    (handle rt true cmd args).run n = (handle rt false cmd args).run n ↔ ¬ GivesExpiry rt n.now cmd args := by
  by_cases hset : cmd = .set
  · subst hset
    exact cmdSet_eq_iff args n
  · have hnot : ¬ GivesExpiry rt n.now cmd args := fun h => hset h.1
    exact iff_of_true (congrArg (·.run n) (handle_eq hset args)) hnot

end

def Runtime.plain : Runtime where
  toUpper := List.map fun b => if 97 ≤ b ∧ b ≤ 122 then b - 32 else b
  parseFloat := fun _ => none

/-- `SET k v EX 100` lives for 100 seconds, and in a cluster for ever. -/
theorem set_expiry_dropped :
    let args : List Bytes := [[107], [118], [69, 88], [49, 48, 48]]
    let n := Node.fresh 1000
    ((handle .plain true .set args).run n).1 = .simple "OK" ∧
      ((handle .plain false .set args).run n).1 = .simple "OK" ∧
      ((handle .plain true .set args).run n).2.db.ttl 1000 (strKey [107]) = -1 ∧
      ((handle .plain false .set args).run n).2.db.ttl 1000 (strKey [107]) = 100 := by
  decide +kernel

end Server
end AkwaDB
