import AkwaDB.Server.Node

/-!
# AkwaDB.Server.Collections

Hashes, lists, sets, sorted sets and bitmaps over the keys of one engine: how their parts are named, and the
calls that write them.

Each call reads what it needs, decides on its entries, and submits them as one batch. Scores are kept as the
bits of a `float64`.
-/

namespace AkwaDB
namespace Server

open Wal (BatchWriteEntry)

/-! ## Names of the parts -/

/-- The kind of a collection, a zero byte, its key, and a zero byte. -/
def kindPrefix (kind : UInt8) (key : Bytes) : Bytes := [kind, 0] ++ key ++ [0]

def hashPrefix (hash : Bytes) : Bytes := kindPrefix 104 hash

def hashFieldKey (hash field : Bytes) : Bytes := hashPrefix hash ++ field

def setPrefix (key : Bytes) : Bytes := kindPrefix 116 key

def setMemberKey (key member : Bytes) : Bytes := setPrefix key ++ member

def listStorePrefix (key : Bytes) : Bytes := kindPrefix 108 key

def padded (n : Int64) : Bytes :=
  match formatInt n with
  | 45 :: digits => 45 :: digits.leftpad 19 48
  | digits => digits.leftpad 20 48

/-- The index is raised by 2^62 so that the names are in its order. -/
def listElemKey (key : Bytes) (index : Int64) : Bytes := listStorePrefix key ++ padded (index + 4611686018427387904)

def listMetaKey (key : Bytes) : Bytes := listStorePrefix key ++ [109, 101, 116, 97]

def bitmapPrefix (key : Bytes) : Bytes := kindPrefix 98 key

def bitmapPageKey (key : Bytes) (page : Nat) : Bytes := bitmapPrefix key ++ bePut 8 page

def zsetStorePrefix (key : Bytes) : Bytes := kindPrefix 122 key

/-- The bits of a `float64`. -/
abbrev Score := UInt64

def signBit : UInt64 := 0x8000000000000000

def Score.magnitude (x : Score) : UInt64 := x &&& 0x7FFFFFFFFFFFFFFF

def Score.isNaN (x : Score) : Bool := decide (0x7FF0000000000000 < x.magnitude)

def Score.isZero (x : Score) : Bool := x.magnitude == 0

/-- `x != y`: a zero equals the other zero, and what is no number differs from everything. -/
def Score.differs (x y : Score) : Bool := x.isNaN || y.isNaN || !(x == y || (x.isZero && y.isZero))

def Score.atLeastZero (x : Score) : Bool := !x.isNaN && (x.isZero || x &&& signBit == 0)

def encodeScore (score : Score) : Bytes :=
  let bits := if score.isZero then 0 else score
  bePut 8 (if score.atLeastZero then bits ^^^ signBit else ~~~bits).toNat

def decodeScore (b : Bytes) : Score :=
  let bits := UInt64.ofNat (beGet (b.take 8))
  if bits &&& signBit != 0 then bits ^^^ signBit else ~~~bits

def zvalKey (key member : Bytes) : Bytes := zsetStorePrefix key ++ [118, 0] ++ member

def zscorePrefix (key : Bytes) : Bytes := zsetStorePrefix key ++ [115, 0]

def zscoreKey (key : Bytes) (score : Score) (member : Bytes) : Bytes :=
  zscorePrefix key ++ encodeScore score ++ [0] ++ member

/-- Pairs of a flat list; an odd one at the end is left. -/
def pairs : List Bytes → List (Bytes × Bytes)
  | a :: b :: rest => (a, b) :: pairs rest
  | _ => []

/-- `m[k] = v`, with the keys in the order in which they came. -/
def assoc {β : Type} (m : List (Bytes × β)) (k : Bytes) (v : β) : List (Bytes × β) :=
  if m.any fun p => decide (p.1 = k) then m.map fun p => if p.1 = k then (k, v) else p else m ++ [(k, v)]

def assocAll {β : Type} (ps : List (Bytes × β)) : List (Bytes × β) := ps.foldl (fun m p => assoc m p.1 p.2) []

theorem lookup_eq_none {β : Type} {m : List (Bytes × β)} {k : Bytes} :
    m.lookup k = none ↔ k ∉ m.map Prod.fst := by
  rw [List.lookup_eq_none_iff, List.mem_map]
  constructor
  · rintro h ⟨p, hp, rfl⟩
    exact absurd (h p hp) (by simp)
  · intro h p hp
    refine bne_iff_ne.mpr ?_
    rintro rfl
    exact h ⟨p, hp, rfl⟩

theorem lookup_pair {β : Type} (m : List (Bytes × β)) (k j : Bytes) (v : β) :
    ((k, v) :: m).lookup j = if j = k then some v else m.lookup j := by
  by_cases h : j = k
  · simp [h]
  · have hne : (j == k) = false := beq_eq_false_iff_ne.mpr h
    simp [List.lookup_cons, h, hne]

theorem lookup_assoc {β : Type} (m : List (Bytes × β)) (k j : Bytes) (v : β) :
    (assoc m k v).lookup j = if j = k then some v else m.lookup j := by
  have hmap : ∀ m : List (Bytes × β), (m.map fun p => if p.1 = k then (k, v) else p).lookup j =
      if j = k ∧ m.any (fun p => decide (p.1 = k)) then some v else m.lookup j := by
    intro m
    induction m with
    | nil => simp
    | cons p m ih =>
      obtain ⟨a, w⟩ := p
      by_cases ha : a = k
      · by_cases hj : j = k
        · simp [ha, hj]
        · simp [ha, hj, ih, lookup_pair]
      · simp only [List.map_cons, if_neg ha, lookup_pair, ih, List.any_cons, decide_eq_false ha, Bool.false_or]
        by_cases hj : j = a
        · simp [hj, ha]
        · simp [hj]
  unfold assoc
  split
  · rename_i hany
    rw [hmap]
    simp [hany]
  · rename_i hany
    rw [List.lookup_append, lookup_pair, List.lookup_nil]
    by_cases hj : j = k
    · subst hj
      have hnone : m.lookup j = none := lookup_eq_none.mpr (by simpa using hany)
      simp [hnone]
    · simp [hj]

theorem keys_assoc {β : Type} (m : List (Bytes × β)) (k : Bytes) (v : β) :
    (assoc m k v).map Prod.fst = if k ∈ m.map Prod.fst then m.map Prod.fst else m.map Prod.fst ++ [k] := by
  have hany : (m.any fun p => decide (p.1 = k)) = true ↔ k ∈ m.map Prod.fst := by simp
  unfold assoc
  by_cases h : k ∈ m.map Prod.fst
  · rw [if_pos (hany.mpr h), if_pos h, List.map_map]
    refine List.map_congr_left fun p _ => ?_
    by_cases hp : p.1 = k
    · simp [hp]
    · simp [hp]
  · rw [if_neg (fun he => h (hany.mp he)), if_neg h, List.map_append]
    rfl

theorem nodup_assoc {β : Type} {m : List (Bytes × β)} (h : (m.map Prod.fst).Nodup) (k : Bytes) (v : β) :
    ((assoc m k v).map Prod.fst).Nodup := by
  rw [keys_assoc]
  split
  · exact h
  · rename_i hk
    exact (List.perm_append_singleton k _).nodup_iff.mpr (List.nodup_cons.mpr ⟨hk, h⟩)

def missing (found : List (Option Bytes)) : Int64 := Int64.ofNat (found.countP Option.isNone)

def mset (kvs : List (Bytes × Bytes)) : DbM Unit :=
  if kvs.isEmpty then return () else submitBatch (kvs.map fun p => ⟨p.1, p.2, 0, false⟩)

def hsetMulti (hash : Bytes) (fields : List Bytes) : DbM Int64 := do
  let entries := assocAll (pairs fields)
  let found ← (entries.map fun p => hashFieldKey hash p.1).mapM getByKey
  if entries.isEmpty then return 0
  else do
    submitBatch (entries.map fun p => ⟨hashFieldKey hash p.1, p.2, 0, false⟩)
    return missing found

def hdel (hash field : Bytes) : DbM Bool := do
  match ← getByKey (hashFieldKey hash field) with
  | none => return false
  | some _ => do
    submitBatch [tombstone (hashFieldKey hash field)]
    return true

def int64At (b : Bytes) : Int64 := (UInt64.ofNat (beGet (b.take 8))).toInt64

def metaBuf (head tail : Int64) : Bytes := bePut 8 head.toUInt64.toNat ++ bePut 8 tail.toUInt64.toNat

def listBounds : Option Bytes → Int64 × Int64
  | none => (0, 0)
  | some val => if val.length < 16 then (0, 0) else (int64At val, int64At (val.drop 8))

def listMeta (key : Bytes) : DbM (Int64 × Int64) := listBounds <$> getByKey (listMetaKey key)

def metaEntry (key : Bytes) (head tail : Int64) : BatchWriteEntry := ⟨listMetaKey key, metaBuf head tail, 0, false⟩

/-- The loop of `LPush`: the entries and the new head. -/
def lpushEntries (key : Bytes) : Int64 → List Bytes → List BatchWriteEntry × Int64
  | head, [] => ([], head)
  | head, v :: vs =>
    let (es, last) := lpushEntries key (head - 1) vs
    (⟨listElemKey key (head - 1), v, 0, false⟩ :: es, last)

/-- The loop of `RPush`: the entries and the new tail. -/
def rpushEntries (key : Bytes) : Int64 → List Bytes → List BatchWriteEntry × Int64
  | tail, [] => ([], tail)
  | tail, v :: vs =>
    let (es, last) := rpushEntries key (tail + 1) vs
    (⟨listElemKey key tail, v, 0, false⟩ :: es, last)

def lpush (key : Bytes) (values : List Bytes) : DbM Int64 := do
  let (head, tail) ← listMeta key
  let (entries, head) := lpushEntries key head values
  submitBatch (entries ++ [metaEntry key head tail])
  return tail - head

def rpush (key : Bytes) (values : List Bytes) : DbM Int64 := do
  let (head, tail) ← listMeta key
  let (entries, tail) := rpushEntries key tail values
  submitBatch (entries ++ [metaEntry key head tail])
  return tail - head

def lpop (key : Bytes) : DbM (Option Bytes) := do
  let (head, tail) ← listMeta key
  if tail ≤ head then return none
  else
    match ← getByKey (listElemKey key head) with
    | none => return none
    | some val => do
      submitBatch [tombstone (listElemKey key head),
        if tail ≤ head + 1 then tombstone (listMetaKey key) else metaEntry key (head + 1) tail]
      return some val

def rpop (key : Bytes) : DbM (Option Bytes) := do
  let (head, tail) ← listMeta key
  if tail ≤ head then return none
  else
    match ← getByKey (listElemKey key (tail - 1)) with
    | none => return none
    | some val => do
      submitBatch [tombstone (listElemKey key (tail - 1)),
        if tail - 1 ≤ head then tombstone (listMetaKey key) else metaEntry key head (tail - 1)]
      return some val

def submitSome (entries : List BatchWriteEntry) : DbM Unit :=
  if entries.isEmpty then return () else submitBatch entries

def sadd (key : Bytes) (members : List Bytes) : DbM Int64 := do
  let members := members.eraseDups
  let found ← (members.map (setMemberKey key)).mapM getByKey
  let entries := (members.zip found).filterMap fun p =>
    if p.2.isNone then some ⟨setMemberKey key p.1, [], 0, false⟩ else none
  submitSome entries
  return Int64.ofNat entries.length

/-- A member that is given twice is counted twice. -/
def srem (key : Bytes) (members : List Bytes) : DbM Int64 := do
  let found ← (members.map (setMemberKey key)).mapM getByKey
  let entries := (members.zip found).filterMap fun p =>
    if p.2.isSome then some (tombstone (setMemberKey key p.1)) else none
  submitSome entries
  return Int64.ofNat entries.length

/-- What `ZAddMulti` writes for a member whose score was `old`. -/
def zaddEntries (key member : Bytes) (score : Score) (old : Option Bytes) : List BatchWriteEntry :=
  let moved := match old with
    | none => []
    | some val =>
      let oldScore := if val.isEmpty then 0 else decodeScore val
      if oldScore.differs score then [tombstone (zscoreKey key oldScore member)] else []
  moved ++ [⟨zvalKey key member, encodeScore score, 0, false⟩, ⟨zscoreKey key score member, [], 0, false⟩]

/-- The members in the order in which they came, each with its last score. -/
def zaddMulti (key : Bytes) (members : List (Bytes × Score)) : DbM Int64 := do
  let order := assocAll members
  let found ← (order.map fun p => zvalKey key p.1).mapM getByKey
  submitBatch ((order.zip found).flatMap fun p => zaddEntries key p.1.1 p.1.2 p.2)
  return missing found

/-- What `ZRem` writes for a member that is there. -/
def zremEntries (key member val : Bytes) : List BatchWriteEntry :=
  (if val.length = 8 then [tombstone (zscoreKey key (decodeScore val) member)] else []) ++
    [tombstone (zvalKey key member)]

def zrem (key : Bytes) (members : List Bytes) : DbM Int64 := do
  let found ← (members.map (zvalKey key)).mapM getByKey
  let present := (members.zip found).filterMap fun p => p.2.map fun val => (p.1, val)
  submitSome (present.flatMap fun p => zremEntries key p.1 p.2)
  return Int64.ofNat present.length

def bitmapPageBits : Nat := 8 * 4096

def badOffset : String := "ERR bit offset is not an integer or out of range"

def grown (data : Bytes) (size : Nat) : Bytes := data ++ List.replicate (size - data.length) 0

def withBit (b : UInt8) (bitIdx : UInt8) (val : Int64) : UInt8 :=
  if val = 0 then b &&& ~~~(1 <<< bitIdx) else b ||| 1 <<< bitIdx

def setBit (key : Bytes) (offset val : Int64) : DbM (Except String Int64) := do
  if offset < 0 then return .error badOffset
  else do
    let off := offset.toInt.toNat
    let byteIdx := off % bitmapPageBits / 8
    let bitIdx := UInt8.ofNat (7 - off % 8)
    let pageKey := bitmapPageKey key (off / bitmapPageBits)
    let old ← getByKey pageKey
    let data := grown (old.getD []) (byteIdx + 1)
    let byte := data.getD byteIdx 0
    put pageKey (data.set byteIdx (withBit byte bitIdx val))
    return .ok (if byte >>> bitIdx &&& 1 = 1 then 1 else 0)

end Server
end AkwaDB
