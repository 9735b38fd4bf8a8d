import AkwaDB.Server.Command
import AkwaDB.Txn.System

/-!
# AkwaDB.Server.Buffer

Commands that read and may be sent between `MULTI` and `EXEC`, and the buffer of such a block.

The writes of a block are kept with the keys it has read, and the keys of collections that it deletes on a list of
their own.
-/

namespace AkwaDB
namespace Server

open Client (strKey)
open Wal (BatchWriteEntry)

/-! ## Commands that read -/

def ttl (k : Bytes) : DbM Int64 := (fun n => remaining n.now (n.db.live n.now k)) <$> get

def hlen (hash : Bytes) : DbM Nat := List.length <$> scan (hashPrefix hash)

def scard (key : Bytes) : DbM Nat := List.length <$> scan (setPrefix key)

def llen (key : Bytes) : DbM Int64 := (fun bounds => bounds.2 - bounds.1) <$> listMeta key

def onesCount (b : UInt8) : Nat := (List.range 8).countP fun i => b.toNat.testBit i

def bitCount (key : Bytes) : DbM Nat := do
  let keys ← scan (bitmapPrefix key)
  let pages ← keys.mapM getByKey
  return (pages.map fun page => ((page.getD []).map onesCount).sum).sum

def cmdGet (args : List Bytes) : DbM Reply :=
  match args with
  | key :: _ => .ofValue <$> getByKey (strKey key)
  | [] => return .error (wrongArgs "get")

def cmdMGet (args : List Bytes) : DbM Reply :=
  match args with
  | [] => return .error (wrongArgs "mget")
  | keys => .bulks <$> keys.mapM fun key => getByKey (strKey key)

def cmdTTL (args : List Bytes) : DbM Reply :=
  match args with
  | key :: _ => do
    let rem ← ttl (strKey key)
    if rem = -2 then
      match ← collectionKeys key with
      | part :: _ => .int <$> ttl part
      | [] => return .int rem
    else return .int rem
  | [] => return .error (wrongArgs "ttl")

structure TxWriteEntry where
  value : Bytes
  expiresAt : Int64
  deleted : Bool
  deriving DecidableEq

structure TxBuffer where
  writes : List (Bytes × TxWriteEntry)
  readSet : List Bytes
  deletes : List Bytes

namespace TxBuffer

def empty : TxBuffer := ⟨[], [], []⟩

end TxBuffer

def Node.eval {α : Type} (n : Node) (call : DbM α) : α := (call.run n).1

end Server
end AkwaDB
