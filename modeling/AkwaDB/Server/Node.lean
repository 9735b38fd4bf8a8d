import AkwaDB.Engine.Holds
import AkwaDB.Repl.Replica
import Mathlib.Data.List.Dedup

/-!
# AkwaDB.Server.Node

An engine as the commands of the server use it, one call after the other: the versions it holds, the
counter its versions come from, and its clock.

The newest version of a key is the one with the highest number, whoever gave it: a write of the engine's own
takes the number above its counter, and a batch that comes with a version is put in at that version. Flushes
and compactions are left out, and so are writes that fail.

- `Node.reads_of_holds`: a key reads as in any engine whose layers hold the versions.
- `Node.db_applyAt`: a batch that comes at no lower version than those of its keys is what they read
  afterwards.
- `Node.mem_scanned`: a scan of a prefix lists the keys whose newest version it shows.
-/

namespace AkwaDB
namespace Client

/-- `s` and a zero byte before the key: the string of a logical key. -/
def strKey (key : Bytes) : Bytes := [115, 0] ++ key

/-- The hash, the set, the list, the bitmap and the sorted set of a logical key. -/
def collectionPrefixes (key : Bytes) : List Bytes :=
  [104, 116, 108, 98, 122].map fun kind => [kind, 0] ++ key ++ [0]

end Client

namespace Server

open Client (strKey collectionPrefixes)
open Repl (applyBatchEntry incrResult)
open Wal (BatchWriteEntry)

/-- The later versions are in front, none is above the counter, and expiries have 64 bits. -/
structure Node where
  log : List Entry
  nextTs : Nat
  now : Int
  bounded : ∀ x ∈ log, x.version ≤ nextTs
  sized : ∀ x ∈ log, (Int64.ofInt x.expiresAt).toInt = x.expiresAt

/-- The node that `applyBatch` puts in for an entry. -/
def stamped (version : Nat) (b : BatchWriteEntry) : Entry :=
  if b.deleted then ⟨b.key, [], true, 0, version⟩ else ⟨b.key, b.value, false, b.expiresAt.toInt, version⟩

@[simp] theorem stamped_key (version : Nat) (b : BatchWriteEntry) : (stamped version b).key = b.key := by
  unfold stamped
  split <;> rfl

@[simp] theorem stamped_version (version : Nat) (b : BatchWriteEntry) :
    (stamped version b).version = version := by
  unfold stamped
  split <;> rfl

theorem stamped_sized (version : Nat) (b : BatchWriteEntry) :
    (Int64.ofInt (stamped version b).expiresAt).toInt = (stamped version b).expiresAt := by
  unfold stamped
  split
  · rfl
  · rw [Int64.ofInt_toInt]

theorem ofEntries_stamped {log : List Entry} {version : Nat} {b : BatchWriteEntry}
    (h : ∀ x ∈ log, x.key = b.key → x.version ≤ version) :
    Keyspace.ofEntries (stamped version b :: log) = applyBatchEntry (Keyspace.ofEntries log) b := by
  funext k
  by_cases hk : b.key = k
  · subst hk
    have hnew : newest Entry.version (Entry.hits b.key fun _ => true) (stamped version b :: log) =
        some (stamped version b) := by
      refine newest_cons_of_ge (by simp) fun y hy hpy => ?_
      rw [stamped_version]
      exact h y hy (Entry.hits_iff.mp hpy).1
    unfold Keyspace.ofEntries
    rw [hnew, Option.bind_some]
    unfold stamped applyBatchEntry
    split
    · simp [Keyspace.erase]
    · simp [Keyspace.putExAt]
  · have hold : newest Entry.version (Entry.hits k fun _ => true) (stamped version b :: log) =
        newest Entry.version (Entry.hits k fun _ => true) log := by
      rw [← List.singleton_append]
      exact newest_append_of_not (by simp [Entry.hits, hk])
    have hother : applyBatchEntry (Keyspace.ofEntries log) b k = Keyspace.ofEntries log k := by
      unfold applyBatchEntry
      split
      · exact Function.update_of_ne (fun he => hk he.symm) _ _
      · exact Function.update_of_ne (fun he => hk he.symm) _ _
    rw [hother]
    unfold Keyspace.ofEntries
    rw [hold]

namespace Node

def fresh (now : Int) : Node where
  log := []
  nextTs := 1
  now := now
  bounded := by simp
  sized := by simp

def db (n : Node) : Keyspace := Keyspace.ofEntries n.log

/-- **A node reads as its engine**, as long as the layers hold its log. -/
theorem reads_of_holds {cfg : Config} {vl : Vlog.ValueLog} {e : Engine} {n : Node} {m : Nat} {k : Bytes}
    (h : e.Holds cfg vl m n.log k) (hnow : e.now = n.now) :
    e.getWithoutLock cfg vl k = Engine.told (n.db.get n.now k) ∧ e.ttl cfg k = n.db.ttl n.now k := by
  rw [← hnow]
  exact ⟨h.getWithoutLock_eq, h.ttl_eq⟩

def applyAt (n : Node) (version : Nat) (entries : List BatchWriteEntry) : Node where
  log := (entries.map (stamped version)).reverse ++ n.log
  nextTs := max n.nextTs version
  now := n.now
  bounded := by
    intro x hx
    rcases List.mem_append.mp hx with hx | hx
    · obtain ⟨b, _, rfl⟩ := List.mem_map.mp (List.mem_reverse.mp hx)
      rw [stamped_version]
      exact Nat.le_max_right _ _
    · exact Nat.le_trans (n.bounded x hx) (Nat.le_max_left _ _)
  sized := by
    intro x hx
    rcases List.mem_append.mp hx with hx | hx
    · obtain ⟨b, _, rfl⟩ := List.mem_map.mp (List.mem_reverse.mp hx)
      exact stamped_sized version b
    · exact n.sized x hx

def reserve (n : Node) (version : Nat) : Node where
  log := n.log
  nextTs := max n.nextTs version
  now := n.now
  bounded x hx := Nat.le_trans (n.bounded x hx) (Nat.le_max_left _ _)
  sized := n.sized

def tick (n : Node) (seconds : Nat) : Node := { n with now := n.now + seconds }

def clear (n : Node) : Node where
  log := []
  nextTs := n.nextTs
  now := n.now
  bounded := by simp
  sized := by simp

def AtMost (n : Node) (version : Nat) (entries : List BatchWriteEntry) : Prop :=
  ∀ b ∈ entries, ∀ x ∈ n.log, x.key = b.key → x.version ≤ version

instance (n : Node) (version : Nat) (entries : List BatchWriteEntry) : Decidable (n.AtMost version entries) :=
  inferInstanceAs (Decidable (∀ b ∈ entries, ∀ x ∈ n.log, x.key = b.key → x.version ≤ version))

theorem atMost_nextTs (n : Node) (entries : List BatchWriteEntry) : n.AtMost (n.nextTs + 1) entries :=
  fun _ _ x hx _ => Nat.le_succ_of_le (n.bounded x hx)

theorem db_applyAt {n : Node} {version : Nat} {entries : List BatchWriteEntry}
    (h : n.AtMost version entries) : (n.applyAt version entries).db = entries.foldl applyBatchEntry n.db := by
  show Keyspace.ofEntries ((entries.map (stamped version)).reverse ++ n.log) = _
  -- the entries of the batch that are in already have its version
  induction entries using List.reverseRecOn with
  | nil => rfl
  | append_singleton es b ih =>
    have hes : n.AtMost version es := fun c hc => h c (List.mem_append_left _ hc)
    rw [List.map_append, List.map_singleton, List.reverse_append, List.reverse_singleton,
      List.singleton_append, List.cons_append, ofEntries_stamped, ih hes, List.foldl_append]
    · rfl
    · intro x hx hkey
      rcases List.mem_append.mp hx with hx | hx
      · obtain ⟨c, _, rfl⟩ := List.mem_map.mp (List.mem_reverse.mp hx)
        rw [stamped_version]
      · exact h b (by simp) x hx hkey

end Node

def entryItem (b : BatchWriteEntry) : Option Item := if b.deleted then none else some ⟨b.value, b.expiresAt.toInt⟩

theorem applyBatchEntry_own (db : Keyspace) (b : BatchWriteEntry) : applyBatchEntry db b b.key = entryItem b := by
  unfold applyBatchEntry entryItem
  split
  · exact Function.update_self ..
  · exact Function.update_self ..

theorem applyBatchEntry_other {db : Keyspace} {b : BatchWriteEntry} {k : Bytes} (h : k ≠ b.key) :
    applyBatchEntry db b k = db k := by
  unfold applyBatchEntry
  split
  · exact Function.update_of_ne h _ _
  · exact Function.update_of_ne h _ _

theorem foldl_batch_other {es : List BatchWriteEntry} {k : Bytes} (h : ∀ b ∈ es, b.key ≠ k) (db : Keyspace) :
    es.foldl applyBatchEntry db k = db k := by
  induction es generalizing db with
  | nil => rfl
  | cons b es ih =>
    rw [List.foldl_cons, ih fun c hc => h c (List.mem_cons_of_mem _ hc)]
    exact applyBatchEntry_other (h b List.mem_cons_self).symm

theorem foldl_batch_item {es : List BatchWriteEntry} {k : Bytes} {i : Option Item} (hmem : ∃ b ∈ es, b.key = k)
    (hall : ∀ b ∈ es, b.key = k → entryItem b = i) (db : Keyspace) : es.foldl applyBatchEntry db k = i := by
  induction es using List.reverseRecOn with
  | nil => simp at hmem
  | append_singleton es b ih =>
    rw [List.foldl_append, List.foldl_cons, List.foldl_nil]
    by_cases hb : b.key = k
    · subst hb
      rw [applyBatchEntry_own]
      exact hall b (by simp) rfl
    · rw [applyBatchEntry_other (Ne.symm hb)]
      obtain ⟨c, hc, hck⟩ := hmem
      rcases List.mem_append.mp hc with hc | hc
      · exact ih ⟨c, hc, hck⟩ fun c hc => hall c (List.mem_append_left _ hc)
      · rw [List.mem_singleton.mp hc] at hck
        exact absurd hck hb

/-! ## Calls of the engine -/

abbrev DbM := StateM Node

def clock : DbM Int := Node.now <$> get

def getByKey (k : Bytes) : DbM (Option Bytes) := (fun n => n.db.get n.now k) <$> get

def submitBatch (entries : List BatchWriteEntry) : DbM Unit :=
  modify fun n => n.applyAt (n.nextTs + 1) entries

def batchApplyWithVersion (entries : List BatchWriteEntry) (version : Nat) : DbM Unit :=
  modify fun n => n.applyAt version entries

/-- A version that nothing is written at. -/
def takeVersion : DbM Unit := modify fun n => n.reserve (n.nextTs + 1)

def putExAt (key val : Bytes) (expiresAt : Int64) : DbM Unit := submitBatch [⟨key, val, expiresAt, false⟩]

def secondsFrom (now : Int) (seconds : Int64) : Int64 := Int64.ofInt (now + seconds.toInt)

def putEx (key val : Bytes) (ttlSeconds : Int64) : DbM Unit := do
  let now ← clock
  putExAt key val (if 0 < ttlSeconds then secondsFrom now ttlSeconds else 0)

def put (key val : Bytes) : DbM Unit := putEx key val 0

def tombstone (key : Bytes) : BatchWriteEntry := ⟨key, [], 0, true⟩

def delete (key : Bytes) : DbM Bool := do
  match ← getByKey key with
  | none => do
    takeVersion
    return false
  | some _ => do
    submitBatch [tombstone key]
    return true

def getDel (key : Bytes) : DbM (Option Bytes) := do
  match ← getByKey key with
  | none => return none
  | some val => do
    submitBatch [tombstone key]
    return some val

def notAnInteger : String := "ERR value is not an integer or out of range"

/-- What an increment writes: the sum, and the expiry that is left. -/
def incrEntry (db : Keyspace) (now : Int) (key : Bytes) (n : Int64) : BatchWriteEntry :=
  ⟨key, formatInt n, Int64.ofInt (if 0 < db.ttl now key then now + db.ttl now key else 0), false⟩

def incrBy (key : Bytes) (delta : Int64) : DbM (Except String Int64) := do
  let n ← get
  match incrResult n.db n.now key delta with
  | none => do
    takeVersion
    return .error notAnInteger
  | some val => do
    submitBatch [incrEntry n.db n.now key val]
    return .ok val

theorem incrBy_run (key : Bytes) (delta : Int64) (n : Node) :
    (incrBy key delta).run n =
      match incrResult n.db n.now key delta with
      | none => (.error notAnInteger, n.reserve (n.nextTs + 1))
      | some val => (.ok val, n.applyAt (n.nextTs + 1) [incrEntry n.db n.now key val]) := by
  rw [incrBy, StateT.run_bind, StateT.run_get, pure_bind]
  dsimp only
  cases incrResult n.db n.now key delta with
  | none => rfl
  | some val => rfl

def incr (key : Bytes) : DbM (Except String Int64) := incrBy key 1

def decr (key : Bytes) : DbM (Except String Int64) := incrBy key (-1)

def Node.scanned (n : Node) (pre : Bytes) : List Bytes :=
  (((n.log.map Entry.key).filter fun k =>
    decide (pre <+: k) && (n.db k).any (Item.listed n.now)).dedup).insertionSort (· ≤ ·)

def scan (pre : Bytes) : DbM (List Bytes) := (fun n => n.scanned pre) <$> get

/-- `CollectionKeys`. No key is below two of the prefixes. -/
def collectionKeys (key : Bytes) : DbM (List Bytes) := List.flatten <$> (collectionPrefixes key).mapM scan

theorem Node.mem_log_of_db {n : Node} {k : Bytes} {i : Item} (h : n.db k = some i) :
    k ∈ n.log.map Entry.key := by
  obtain ⟨x, hx, _⟩ := Option.bind_eq_some_iff.mp h
  obtain ⟨hmem, hpass, _⟩ := newest_spec hx
  exact List.mem_map.mpr ⟨x, hmem, (Entry.hits_iff.mp hpass).1⟩

theorem Node.db_sized {n : Node} {k : Bytes} {i : Item} (h : n.db k = some i) :
    (Int64.ofInt i.expiresAt).toInt = i.expiresAt := by
  obtain ⟨x, hx, hi⟩ := Option.bind_eq_some_iff.mp h
  split at hi
  · cases hi
  · cases hi
    exact n.sized x (newest_spec hx).1

theorem Node.mem_scanned {n : Node} {pre k : Bytes} :
    k ∈ n.scanned pre ↔ pre <+: k ∧ ∃ i, n.db k = some i ∧ i.listed n.now = true := by
  unfold scanned
  rw [List.mem_insertionSort, List.mem_dedup, List.mem_filter, Bool.and_eq_true, decide_eq_true_eq,
    Option.any_eq_true]
  constructor
  · rintro ⟨_, hpre, i, hi, hl⟩
    exact ⟨hpre, i, hi, hl⟩
  · rintro ⟨hpre, i, hi, hl⟩
    exact ⟨n.mem_log_of_db hi, hpre, i, hi, hl⟩

theorem Node.scanned_congr {m n : Node} {pre : Bytes}
    (h : ∀ k, pre <+: k → (m.db k).any (Item.listed m.now) = (n.db k).any (Item.listed n.now)) :
    m.scanned pre = n.scanned pre := by
  have hmem : ∀ k, k ∈ m.scanned pre ↔ k ∈ n.scanned pre := by
    intro k
    rw [mem_scanned, mem_scanned]
    refine and_congr_right fun hpre => ?_
    have := h k hpre
    rw [Bool.eq_iff_iff, Option.any_eq_true, Option.any_eq_true] at this
    exact this
  have hnodup : ∀ n : Node, (n.scanned pre).Nodup := fun n =>
    (List.perm_insertionSort _ _).nodup_iff.mpr (List.nodup_dedup _)
  refine List.Perm.eq_of_sortedLE List.sortedLE_insertionSort List.sortedLE_insertionSort ?_
  exact (List.perm_ext_iff_of_nodup (hnodup m) (hnodup n)).mpr hmem

/-! ## Collections as a whole -/

/-- A batch is written in pieces of `size` entries. -/
def submitChunks (size : Nat) : Nat → List BatchWriteEntry → DbM Unit
  | 0, _ => return ()
  | fuel + 1, entries =>
    if entries.isEmpty then return ()
    else do
      submitBatch (entries.take size)
      submitChunks size fuel (entries.drop size)

theorem submitChunks_run {size : Nat} (hsize : 0 < size) {fuel : Nat} {entries : List BatchWriteEntry}
    (hfuel : entries.length ≤ fuel) (n : Node) :
    ((submitChunks size fuel entries).run n).2.db = entries.foldl applyBatchEntry n.db ∧
      ((submitChunks size fuel entries).run n).2.now = n.now := by
  induction fuel generalizing entries n with
  | zero =>
    rw [List.length_eq_zero_iff.mp (Nat.le_zero.mp hfuel)]
    exact ⟨rfl, rfl⟩
  | succ fuel ih =>
    unfold submitChunks
    cases hempty : entries.isEmpty with
    | true =>
      rw [List.isEmpty_iff.mp hempty]
      exact ⟨rfl, rfl⟩
    | false =>
      have hlen : (entries.drop size).length ≤ fuel := by
        rw [List.length_drop]
        omega
      obtain ⟨hdb, hnow⟩ := ih hlen (n.applyAt (n.nextTs + 1) (entries.take size))
      refine ⟨?_, hnow⟩
      refine hdb.trans ?_
      rw [Node.db_applyAt (n.atMost_nextTs _), ← List.foldl_append, List.take_append_drop]

def deleteBatchSize : Nat := 1024

def deletePrefixChunked (pre : Bytes) : DbM Nat := do
  let keys ← scan pre
  submitChunks deleteBatchSize keys.length (keys.map tombstone)
  return keys.length

def deleteCollection (key : Bytes) : DbM Nat := List.sum <$> (collectionPrefixes key).mapM deletePrefixChunked

def expireEntries (expiresAt : Int64) (keys : List Bytes) (vals : List (Option Bytes)) : List BatchWriteEntry :=
  (keys.zip vals).filterMap fun p => p.2.map fun val => ⟨p.1, val, expiresAt, false⟩

def expireKey (key : Bytes) (seconds : Int64) : DbM Bool := do
  match ← getByKey (strKey key) with
  | some val => do
    putEx (strKey key) val seconds
    return true
  | none => do
    let keys ← collectionKeys key
    if keys.isEmpty then return false
    else do
      let now ← clock
      let vals ← keys.mapM getByKey
      let entries := expireEntries (secondsFrom now seconds) keys vals
      if entries.isEmpty then return false
      else do
        submitBatch entries
        return true

end Server
end AkwaDB
