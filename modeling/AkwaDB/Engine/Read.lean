import AkwaDB.Engine.State
import AkwaDB.Vlog.Log

/-!
# AkwaDB.Engine.Read

The reads of the engine down to the values themselves: what the layered lookup finds is taken for
absent when it is dead, and resolved through the value log otherwise.
-/

namespace AkwaDB

/-- `ErrKeyNotFound`, or an error of the value log. -/
inductive ReadError where
  | keyNotFound
  | vlog
  deriving DecidableEq, Repr

namespace Engine

open Vlog (ValueLog resolveValue)

variable (cfg : Config) (vl : ValueLog)

def resolved (now : Int) : Option Entry → Except ReadError Bytes
  | none => .error .keyNotFound
  | some x =>
    if x.dead now then .error .keyNotFound
    else
      match resolveValue vl x.value with
      | some v => .ok v
      | none => .error .vlog

def getByVersion (e : Engine) (k : Bytes) (maxVersion : Nat) : Except ReadError Bytes :=
  resolved vl e.now (e.lookup cfg k fun v => decide (v ≤ maxVersion))

def get (e : Engine) (k : Bytes) : Except ReadError Bytes :=
  e.getByVersion cfg vl k e.mem.currentVersion

/-- `GetVersion`: what is found in a table is reported with version 0. -/
def getVersion (e : Engine) (k : Bytes) : Except ReadError Bytes × Nat :=
  match e.mem.find k fun _ => true with
  | some x => (resolved vl e.now (some x), x.version)
  | none =>
    match e.imm.bind fun m => m.1.find k fun _ => true with
    | some x => (resolved vl e.now (some x), x.version)
    | none => (resolved vl e.now (findInLevels cfg e.levels k fun _ => true), 0)

def getWithoutLock (e : Engine) (k : Bytes) : Except ReadError Bytes :=
  resolved vl e.now (e.lookup cfg k fun _ => true)

/-- What `TTL` makes of the entry it found: `-1` without expiry, `-2` for an absent key. -/
def remaining (now : Int) : Option Entry → Int
  | none => -2
  | some x =>
    if x.dead now then -2
    else if x.expiresAt = 0 then -1
    else
      let rem := Int64.ofInt (x.expiresAt - now)
      if rem ≤ 0 then -2 else rem.toInt

def ttl (e : Engine) (k : Bytes) : Int := remaining e.now (e.lookup cfg k fun _ => true)

theorem getVersion_fst (e : Engine) (k : Bytes) :
    (e.getVersion cfg vl k).1 = e.getWithoutLock cfg vl k := by
  rw [getVersion, getWithoutLock, lookup]
  cases e.mem.find k fun _ => true with
  | some x => rfl
  | none =>
    cases e.imm.bind fun m => m.1.find k fun _ => true with
    | some x => rfl
    | none => rfl

end Engine
end AkwaDB
