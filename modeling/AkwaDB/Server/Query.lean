import AkwaDB.Lib.TwoRun
import AkwaDB.Server.Buffer

/-!
# AkwaDB.Server.Query

The commands that read one key or several, as functions of what an engine holds and of its clock.

Strings and single parts of a collection are read by `getByKey`, whole collections by `getByPrefix`, and the
scores of a sorted set by an iterator of their own. Each of the three has its own test of the expiry: the
first drops what has expired, the second shows what never expires or expires later, and the third does not
look at it. The order of a Go map is taken to be that of the keys.

- `answer`: the handlers.
- `covers`: the physical keys that a command on a key may look at.
- `mem_parts`: the parts that `CollectionKeys` finds.
-/

namespace AkwaDB
namespace Server

open Client (strKey collectionPrefixes)

namespace Node

/-! ## Reading the engine -/

def read (n : Node) (k : Bytes) : Option Bytes := n.db.get n.now k

def getByPrefix (n : Node) (pre : Bytes) : List (Bytes × Bytes) :=
  (n.scanned pre).filterMap fun k => (n.db k).map fun i => (k, i.value)

/-- The keys from `seek` on that an iterator shows as not deleted, in order. -/
def iterated (n : Node) (seek : Bytes) : List Bytes :=
  (((n.log.map Entry.key).filter fun k => decide (seek ≤ k) && (n.db k).isSome).dedup).insertionSort (· ≤ ·)

/-! ## Hashes and lists -/

def hget (n : Node) (hash field : Bytes) : Option Bytes := n.read (hashFieldKey hash field)

def stripped (n : Node) (pre : Bytes) : List (Bytes × Bytes) :=
  (n.getByPrefix pre).map fun p => (p.1.drop pre.length, p.2)

def hgetAll (n : Node) (hash : Bytes) : List (Bytes × Bytes) := n.stripped (hashPrefix hash)

def hkeys (n : Node) (hash : Bytes) : List Bytes :=
  ((n.stripped (hashPrefix hash)).map Prod.fst).insertionSort (· ≤ ·)

/-- A negative index counts from the end. -/
def fromEnd (len i : Int64) : Int64 := if i < 0 then len + i else i

/-- Elements that are not found are left out. -/
def lrange (n : Node) (key : Bytes) (start stop : Int64) : List Bytes :=
  let (head, tail) := listBounds (n.read (listMetaKey key))
  let len := tail - head
  if len = 0 then []
  else
    let start := max (fromEnd len start) 0
    let stop := fromEnd len stop
    if len ≤ start then []
    else
      let stop := if len ≤ stop then len - 1 else stop
      if stop < start then []
      else
        (List.range (stop - start + 1).toInt.toNat).filterMap fun i =>
          n.read (listElemKey key (head + (start + Int64.ofNat i)))

def smembers (n : Node) (key : Bytes) : List Bytes :=
  ((n.stripped (setPrefix key)).map Prod.fst).insertionSort (· ≤ ·)

def sismember (n : Node) (key member : Bytes) : Bool := (n.read (setMemberKey key member)).isSome

def sinter (n : Node) : List Bytes → List Bytes
  | [] => []
  | key :: keys =>
    let base := (n.stripped (setPrefix key)).map Prod.fst
    (keys.foldl (fun found key =>
      ((n.stripped (setPrefix key)).map Prod.fst).filter fun m => decide (m ∈ found)) base).insertionSort (· ≤ ·)

end Node

/-- A score as a number that has its order. -/
def Score.value (x : Score) : Int := if x &&& signBit = 0 then x.magnitude.toNat else -x.magnitude.toNat

def Score.above (x y : Score) : Bool := !x.isNaN && !y.isNaN && decide (y.value < x.value)

def Score.atLeast (x y : Score) : Bool := !x.isNaN && !y.isNaN && decide (y.value ≤ x.value)

/-- The loop of `ZRangeByScore` over the keys from the lowest score on. -/
def scoreLoop (pre : Bytes) (min max : Score) : List Bytes → List Bytes
  | [] => []
  | k :: ks =>
    if ¬ pre <+: k then []
    else if k.length < pre.length + 9 then scoreLoop pre min max ks
    else
      let score := decodeScore ((k.drop pre.length).take 8)
      if score.above max then []
      else if score.atLeast min then k.drop (pre.length + 9) :: scoreLoop pre min max ks
      else scoreLoop pre min max ks

namespace Node

def zscore (n : Node) (key member : Bytes) : Option Score :=
  ((n.read (zvalKey key member)).filter fun val => decide (val.length = 8)).map decodeScore

def zrangeByScore (n : Node) (key : Bytes) (min max : Score) : List Bytes :=
  scoreLoop (zscorePrefix key) min max (n.iterated (zscoreKey key min []))

end Node

/-- The number of ones from one bit to another, both of them counted. -/
def countBitsInRange (data : Bytes) (loBit hiBit : Int64) : Int64 :=
  if loBit < 0 ∨ hiBit < loBit ∨ data.length = 0 then 0
  else
    let maxBit := Int64.ofNat (data.length * 8) - 1
    if maxBit < loBit then 0
    else
      let lo := loBit.toInt.toNat
      let hi := (min hiBit maxBit).toInt.toNat
      let fromLo := UInt8.ofNat (2 ^ (8 - lo % 8) - 1)
      let upToHi := UInt8.ofNat (255 * 2 ^ (7 - hi % 8))
      let first := data.getD (lo / 8) 0
      if lo / 8 = hi / 8 then Int64.ofNat (onesCount (first &&& fromLo &&& upToHi))
      else
        let between := ((data.take (hi / 8)).drop (lo / 8 + 1)).map onesCount
        Int64.ofNat (onesCount (first &&& fromLo) + between.sum + onesCount (data.getD (hi / 8) 0 &&& upToHi))

/-- The pages that are counted: those with some bytes and a full index. -/
def countedPages (pre : Bytes) (pages : List (Bytes × Bytes)) : List (Int64 × Bytes) :=
  pages.filterMap fun p =>
    if p.2.length = 0 ∨ p.1.length < pre.length + 8 then none else some (int64At (p.1.drop pre.length), p.2)

namespace Node

def getBit (n : Node) (key : Bytes) (offset : Int64) : Except String Int64 :=
  if offset < 0 then .error badOffset
  else
    let off := offset.toInt.toNat
    let byteIdx := off % bitmapPageBits / 8
    let bitIdx := UInt8.ofNat (7 - off % 8)
    match n.read (bitmapPageKey key (off / bitmapPageBits)) with
    | none => .ok 0
    | some data =>
      if data.length ≤ byteIdx then .ok 0
      else .ok (if data.getD byteIdx 0 >>> bitIdx &&& 1 = 1 then 1 else 0)

def bitCountRange (n : Node) (key : Bytes) (start stop : Int64) (bitMode : Bool) : Int64 :=
  let pages := countedPages (bitmapPrefix key) (n.getByPrefix (bitmapPrefix key))
  let pageBits : Int64 := 32768
  let totalBytes := pages.foldl (fun total p => max total (p.1 * pageBits / 8 + Int64.ofNat p.2.length)) 0
  let totalUnits := if bitMode then totalBytes * 8 else totalBytes
  let start := max (fromEnd totalUnits start) 0
  let stop := fromEnd totalUnits stop
  if stop < 0 ∨ stop < start then 0
  else
    let lo := if bitMode then start else start * 8
    let hi := if bitMode then stop else stop * 8 + 7
    if totalBytes = 0 then 0
    else
      let hi := min hi (totalBytes * 8 - 1)
      if hi < lo then 0
      else
        pages.foldl (fun count p =>
          let pageStart := p.1 * pageBits
          let overlapLo := max lo pageStart
          let overlapHi := min hi (pageStart + Int64.ofNat p.2.length * 8 - 1)
          if overlapHi < overlapLo then count
          else count + countBitsInRange p.2 (overlapLo - pageStart) (overlapHi - pageStart)) 0

end Node

def Reply.list (items : List Bytes) : Reply := .bulks (items.map some)

inductive Query where
  | get | ttl | mget | hget | hgetall | hlen | hkeys | llen | lrange | smembers | sismember | scard | sinter
  | zscore | zrangebyscore | getbit | bitcount
  deriving DecidableEq

def badMin : String := "ERR min is not a valid float"

def badMax : String := "ERR max is not a valid float"

section
variable (rt : Runtime) (formatFloat : Score → Bytes) (n : Node)

def cmdOne (name : String) (call : Bytes → Reply) (args : List Bytes) : Reply :=
  match args with
  | key :: _ => call key
  | [] => .error (wrongArgs name)

def cmdPart (name : String) (call : Bytes → Bytes → Reply) (args : List Bytes) : Reply :=
  match args with
  | key :: part :: _ => call key part
  | _ => .error (wrongArgs name)

def cmdHGet : List Bytes → Reply := cmdPart "hget" fun key field => .ofValue (n.hget key field)

def cmdHGetAll : List Bytes → Reply := cmdOne "hgetall" fun key =>
  .list ((n.hgetAll key).flatMap fun p => [p.1, p.2])

def cmdHLen : List Bytes → Reply := cmdOne "hlen" fun key => .int (Int64.ofNat (n.eval (hlen key)))

def cmdHKeys : List Bytes → Reply := cmdOne "hkeys" fun key => .list (n.hkeys key)

def cmdLLen : List Bytes → Reply := cmdOne "llen" fun key => .int (n.eval (llen key))

def cmdLRange (args : List Bytes) : Reply :=
  match args with
  | key :: start :: stop :: _ =>
    match parseInt start, parseInt stop with
    | some i, some j => .list (n.lrange key i j)
    | _, _ => .error notAnInteger
  | _ => .error (wrongArgs "lrange")

def cmdSMembers : List Bytes → Reply := cmdOne "smembers" fun key => .list (n.smembers key)

def cmdSIsMember : List Bytes → Reply := cmdPart "sismember" fun key member => .ofBool (n.sismember key member)

def cmdSCard : List Bytes → Reply := cmdOne "scard" fun key => .int (Int64.ofNat (n.eval (scard key)))

def cmdSInter (args : List Bytes) : Reply :=
  if args.isEmpty then .error (wrongArgs "sinter") else .list (n.sinter args)

def cmdZScore (args : List Bytes) : Reply :=
  match args with
  | [key, member] =>
    match n.zscore key member with
    | none => .null
    | some score => .bulk (formatFloat score)
  | _ => .error (wrongArgs "zscore")

def cmdZRangeByScore (args : List Bytes) : Reply :=
  match args with
  | key :: min :: max :: _ =>
    match rt.parseFloat min with
    | none => .error badMin
    | some lo =>
      match rt.parseFloat max with
      | none => .error badMax
      | some hi => .list (n.zrangeByScore key lo hi)
  | _ => .error (wrongArgs "zrangebyscore")

def cmdGetBit (args : List Bytes) : Reply :=
  match args with
  | [key, offset] =>
    match (parseInt offset).filter fun n => decide (0 ≤ n) with
    | none => .error badOffset
    | some off => .ofExcept (n.getBit key off)
  | _ => .error (wrongArgs "getbit")

/-- `BIT` or `BYTE`, which is also what it is without a word. -/
def bitUnit : List Bytes → Option Bool
  | [] => some false
  | word :: _ =>
    -- BIT, BYTE
    if rt.toUpper word = [66, 73, 84] then some true
    else if rt.toUpper word = [66, 89, 84, 69] then some false
    else none

def cmdBitCount (args : List Bytes) : Reply :=
  match args with
  | [key] => .int (Int64.ofNat (n.eval (bitCount key)))
  | key :: start :: stop :: unit =>
    if 1 < unit.length then .error (wrongArgs "bitcount")
    else
      match parseInt start, parseInt stop with
      | some i, some j =>
        match bitUnit rt unit with
        | none => .error syntaxError
        | some bitMode => .int (n.bitCountRange key i j bitMode)
      | _, _ => .error notAnInteger
  | _ => .error (wrongArgs "bitcount")

def answer : Query → List Bytes → Reply
  | .get => fun args => n.eval (cmdGet args)
  | .ttl => fun args => n.eval (cmdTTL args)
  | .mget => fun args => n.eval (cmdMGet args)
  | .hget => cmdHGet n
  | .hgetall => cmdHGetAll n
  | .hlen => cmdHLen n
  | .hkeys => cmdHKeys n
  | .llen => cmdLLen n
  | .lrange => cmdLRange n
  | .smembers => cmdSMembers n
  | .sismember => cmdSIsMember n
  | .scard => cmdSCard n
  | .sinter => cmdSInter n
  | .zscore => cmdZScore formatFloat n
  | .zrangebyscore => cmdZRangeByScore rt n
  | .getbit => cmdGetBit n
  | .bitcount => cmdBitCount rt n

end

/-! ## What a command looks at -/

/-- The string of a key and the parts of its collections. -/
def covers (key k : Bytes) : Bool :=
  decide (k = strKey key) || (collectionPrefixes key).any fun p => decide (p <+: k)

theorem covers_strKey (key : Bytes) : covers key (strKey key) = true := by
  simp [covers]

theorem covers_part {key p k : Bytes} (hp : p ∈ collectionPrefixes key) (hk : p <+: k) :
    covers key k = true := by
  simp only [covers, Bool.or_eq_true, List.any_eq_true, decide_eq_true_eq]
  exact Or.inr ⟨p, hp, hk⟩

theorem covers_kind {kind : UInt8} (h : kind ∈ [104, 116, 108, 98, 122]) (key rest : Bytes) :
    covers key (kindPrefix kind key ++ rest) = true :=
  covers_part (List.mem_map_of_mem h) (List.prefix_append _ _)

theorem collectionKeys_run (key : Bytes) (n : Node) :
    (collectionKeys key).run n = (((collectionPrefixes key).map n.scanned).flatten, n) := by
  show (List.flatten <$> (collectionPrefixes key).mapM scan).run n = _
  rw [StateT.run_map, @run_mapM_read _ _ _ scan (fun n p => n.scanned p) fun _ _ => rfl]
  rfl

theorem covers_of_mem_parts {n : Node} {key k : Bytes} (h : k ∈ n.eval (collectionKeys key)) :
    covers key k = true := by
  rw [Node.eval, collectionKeys_run] at h
  obtain ⟨l, hl, hk⟩ := List.mem_flatten.mp h
  obtain ⟨p, hp, rfl⟩ := List.mem_map.mp hl
  exact covers_part hp (Node.mem_scanned.mp hk).1

theorem cmdTTL_run (key : Bytes) (rest : List Bytes) (d : Node) :
    (cmdTTL (key :: rest)).run d =
      (let rem := remaining d.now (d.db.live d.now (strKey key))
      .int (if rem = -2 then
          match d.eval (collectionKeys key) with
          | part :: _ => remaining d.now (d.db.live d.now part)
          | [] => rem
        else rem), d) := by
  have httl : (ttl (strKey key)).run d = (remaining d.now (d.db.live d.now (strKey key)), d) := rfl
  rw [cmdTTL, StateT.run_bind, httl]
  show StateT.run (if remaining d.now (d.db.live d.now (strKey key)) = -2 then _ else _) d = _
  dsimp only
  split
  · rw [StateT.run_bind, collectionKeys_run, Node.eval, collectionKeys_run]
    generalize ((collectionPrefixes key).map d.scanned).flatten = parts
    cases parts with
    | nil => rfl
    | cons part parts => rfl
  · rfl

/-! ## Queries of two engines -/

/-! ## Parts of collections -/

/-- The key belongs to a collection of this name. -/
def IsPart (key k : Bytes) : Prop := ∃ p ∈ collectionPrefixes key, p <+: k

theorem not_isPart_strKey (key j : Bytes) : ¬ IsPart key (strKey j) := by
  rintro ⟨p, hp, hpre⟩
  simp only [collectionPrefixes, List.map_cons, List.map_nil, List.mem_cons, List.not_mem_nil, or_false] at hp
  rcases hp with rfl | rfl | rfl | rfl | rfl <;> simp [strKey] at hpre

theorem mem_parts {d : Node} {key k : Bytes} :
    k ∈ d.eval (collectionKeys key) ↔ IsPart key k ∧ (d.db k).any (Item.listed d.now) = true := by
  rw [Node.eval, collectionKeys_run, List.mem_flatten]
  constructor
  · rintro ⟨l, hl, hk⟩
    obtain ⟨p, hp, rfl⟩ := List.mem_map.mp hl
    obtain ⟨hpre, i, hi, hlisted⟩ := Node.mem_scanned.mp hk
    exact ⟨⟨p, hp, hpre⟩, by simp [hi, hlisted]⟩
  · rintro ⟨⟨p, hp, hpre⟩, hlisted⟩
    obtain ⟨i, hi, hl⟩ := (Option.any_eq_true _ _).mp hlisted
    exact ⟨_, List.mem_map_of_mem hp, Node.mem_scanned.mpr ⟨hpre, i, hi, hl⟩⟩

end Server
end AkwaDB
