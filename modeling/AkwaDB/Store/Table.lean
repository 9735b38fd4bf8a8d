import AkwaDB.Store.Block

/-!
# AkwaDB.Store.Table

SSTables: creation, and the point lookup through the bloom filter, the block index and a block.

The file's bytes are not modelled here: a table holds its blocks as lists of entries, its filter
and its tombstone count. Compression and encryption give back what they were given.

- `Table.find_eq_newest`: in a table whose blocks are aligned for the key the lookup finds the
  newest version that the reader may see.
- `createAtLevel_wf`: what `createAtLevel` guarantees for entries in version order.
-/

namespace AkwaDB

/-! ## The bloom filter -/

/-- `bloom.Filter` with ten bits a key and so six probes. `data` lists the bits that are set. -/
structure Filter where
  bits : Nat
  data : List Nat
  deriving DecidableEq, Repr

namespace Filter

variable (xxhash : Bytes → UInt64)

def newFilterSized (n : Nat) : Filter :=
  let n := if n = 0 then 1 else n
  let rawBits := n * 10 % 2 ^ 32
  let rawBits := if rawBits < 64 then 64 else rawBits
  ⟨(rawBits + 7) % 2 ^ 32 / 8 * 8, []⟩

/-- The positions a key sets and tests: double hashing in 32-bit arithmetic. -/
def probes (f : Filter) (key : Bytes) : List Nat :=
  let h := (xxhash key).toNat
  let h1 := h % 2 ^ 32
  let h2 := h / 2 ^ 32 ||| 1
  (List.range 6).map fun i => (h1 + i * h2) % 2 ^ 32 % f.bits

def add (f : Filter) (key : Bytes) : Filter :=
  if f.bits = 0 then f else ⟨f.bits, f.data ++ f.probes xxhash key⟩

def newFilter (keys : List Bytes) : Filter :=
  keys.foldl (add xxhash) (newFilterSized keys.length)

def mayContain (f : Filter) (key : Bytes) : Bool :=
  decide (f.bits = 0) || (f.probes xxhash key).all fun i => f.data.contains i

variable {xxhash}

theorem add_bits (f : Filter) (key : Bytes) : (f.add xxhash key).bits = f.bits := by
  unfold add
  split <;> rfl

theorem add_mayContain (f : Filter) (key : Bytes) :
    (f.add xxhash key).mayContain xxhash key = true := by
  by_cases h : f.bits = 0
  · simp [add, mayContain, h]
  · simp only [add, if_neg h, mayContain, Bool.or_eq_true, List.all_eq_true]
    right
    intro i hi
    rw [List.contains_iff_mem, List.mem_append]
    exact Or.inr hi

theorem mayContain_add {f : Filter} {key : Bytes} (h : f.mayContain xxhash key = true)
    (other : Bytes) : (f.add xxhash other).mayContain xxhash key = true := by
  by_cases hb : f.bits = 0
  · simp [mayContain, add_bits, hb]
  · simp only [mayContain, Bool.or_eq_true, List.all_eq_true, add, if_neg hb] at h ⊢
    refine h.imp_right fun h i hi => ?_
    have := h i hi
    rw [List.contains_iff_mem] at this ⊢
    exact List.mem_append_left _ this

theorem newFilter_mayContain {keys : List Bytes} {key : Bytes} (h : key ∈ keys) :
    (newFilter xxhash keys).mayContain xxhash key = true := by
  have hold : ∀ (ks : List Bytes) (f : Filter), f.mayContain xxhash key = true →
      (ks.foldl (add xxhash) f).mayContain xxhash key = true := by
    intro ks
    induction ks with
    | nil => exact fun f hf => hf
    | cons k ks ih => exact fun f hf => ih _ (mayContain_add hf k)
  obtain ⟨l, m, rfl⟩ := List.append_of_mem h
  rw [newFilter, List.foldl_append, List.foldl_cons]
  exact hold m _ (add_mayContain _ key)

end Filter

/-- An SSTable: the number in its file name, the level it was written for, and its contents. -/
structure Table where
  seq : Nat
  level : Nat
  blocks : List (List Entry)
  filter : Filter
  tombstoneCount : Nat
  deriving DecidableEq, Repr

def Entry.stored (x : Entry) : Entry := if x.deleted then { x with value := [] } else x

namespace Entry

@[simp] theorem stored_key (x : Entry) : x.stored.key = x.key := by
  unfold stored; split <;> rfl

@[simp] theorem stored_version (x : Entry) : x.stored.version = x.version := by
  unfold stored; split <;> rfl

@[simp] theorem stored_dead (now : Int) (x : Entry) : x.stored.dead now = x.dead now := by
  unfold stored
  split <;> rfl

theorem stored_of_live {x : Entry} (h : x.deleted = false) : x.stored = x := by
  simp [stored, h]

theorem stored_le {x y : Entry} (h : le x y) : le x.stored y.stored := by
  rw [le_iff] at h ⊢
  simpa using h

end Entry

def maxIndexKey : Nat := 65535

namespace Table

def entries (t : Table) : List Entry := t.blocks.flatten

/-- The first key, as of a table that was created. `open` passes over an empty key (`openedMinKey`); the two are the
same where no key is empty. -/
def minKey (t : Table) : Bytes := (t.entries.head?.map Entry.key).getD []

def maxKey (t : Table) : Bytes := (t.entries.getLast?.map Entry.key).getD []

/-- `TombstoneRatio() > tombstoneCompactionRatio`, with the quotient multiplied out. A table that was opened from its
file has the quotient cut to four decimals, and is as this says unless the quotient is between 0.4 and 0.4001. -/
def manyTombstones (t : Table) : Bool := decide (2 * t.entries.length < 5 * t.tombstoneCount)

def indexKey (t : Table) (i : Nat) : Bytes :=
  ((t.blocks.getD i []).head?.map Entry.key).getD []

def indexProbe (t : Table) (k : Bytes) (i : Nat) : Probe :=
  let le := decide (t.indexKey i ≤ k)
  ⟨le, le⟩

variable (xxhash : Bytes → UInt64)

def find (t : Table) (k : Bytes) (ok : Nat → Bool) : Option Entry :=
  if t.filter.mayContain xxhash k then
    match search (t.indexProbe k) t.blocks.length with
    | none => none
    | some i => scanBlock (t.blocks.getD i []) k ok
  else none

/-- `createAtLevel` at time `now`: `none` when a block starts with a key too long for the index. A memtable has the
empty key as nil, which the source takes for no first key, so that it indexes the block under the second: results
about lookups in flushed tables exclude the empty key. -/
def createAtLevel (now : Int) (seq level : Nat) (es : List Entry) : Option Table :=
  let blocks := splitBlocks (es.map Entry.stored)
  if blocks.any fun b => decide (maxIndexKey < ((b.head?.map Entry.key).getD []).length) then none
  else some ⟨seq, level, blocks, Filter.newFilter xxhash (es.map Entry.key), es.countP (Entry.dead now)⟩

/-- Entries in version order, keys not split over blocks, and a filter that admits every key. -/
structure WF (t : Table) : Prop where
  ne_nil : t.entries ≠ []
  sorted : t.entries.Pairwise Entry.le
  blocks_ne : ∀ b ∈ t.blocks, b ≠ []
  apart : BlocksApart t.blocks
  admits : ∀ x ∈ t.entries, t.filter.mayContain xxhash x.key = true

def Aligned (k : Bytes) (t : Table) : Prop := ∀ b ∈ t.blocks, AkwaDB.Aligned k b

variable {xxhash} {t : Table} {x : Entry} {b : List Entry} {i : Nat}

theorem createAtLevel_wf {now : Int} {seq level : Nat} {es : List Entry}
    (hs : es.Pairwise Entry.le) (hne : es ≠ [])
    (h : createAtLevel xxhash now seq level es = some t) :
    t.WF xxhash ∧ t.entries = es.map Entry.stored ∧ t.seq = seq ∧ t.level = level := by
  simp only [createAtLevel] at h
  split at h
  · cases h
  · cases h
    have he : (splitBlocks (es.map Entry.stored)).flatten = es.map Entry.stored :=
      splitBlocks_flatten _
    have hs' : (es.map Entry.stored).Pairwise Entry.le :=
      List.pairwise_map.mpr (hs.imp fun hxy => Entry.stored_le hxy)
    refine ⟨⟨?_, ?_, fun b hb => splitBlocks_ne_nil hb, splitBlocks_apart hs', ?_⟩, he, rfl, rfl⟩
    · simpa [entries, he] using hne
    · simpa only [entries, he] using hs'
    · intro x hx
      simp only [entries, he] at hx
      obtain ⟨y, hy, rfl⟩ := List.mem_map.mp hx
      exact Filter.newFilter_mayContain (List.mem_map.mpr ⟨y, hy, by simp⟩)

theorem createAtLevel_isSome {now : Int} {seq level : Nat} {es : List Entry}
    (hlen : ∀ x ∈ es, x.key.length ≤ maxIndexKey) :
    ∃ t, createAtLevel xxhash now seq level es = some t := by
  simp only [createAtLevel]
  split
  · rename_i h
    obtain ⟨b, hb, hlong⟩ := List.any_eq_true.mp h
    cases b with
    | nil => simp [maxIndexKey] at hlong
    | cons x xs =>
      have hx : x ∈ es.map Entry.stored := by
        rw [← splitBlocks_flatten (es.map Entry.stored)]
        exact List.mem_flatten.mpr ⟨_, hb, by simp⟩
      obtain ⟨y, hy, rfl⟩ := List.mem_map.mp hx
      have := hlen y hy
      simp at hlong
      omega
  · exact ⟨_, rfl⟩

theorem minKey_le (hs : t.entries.Pairwise Entry.le) (hx : x ∈ t.entries) : t.minKey ≤ x.key := by
  unfold minKey
  cases he : t.entries with
  | nil => rw [he] at hx; cases hx
  | cons y ys =>
    rw [he] at hx hs
    rcases List.mem_cons.mp hx with rfl | hx
    · exact le_refl _
    · exact (Entry.le_iff.mp ((List.pairwise_cons.mp hs).1 x hx)).1

theorem le_maxKey (hs : t.entries.Pairwise Entry.le) (hx : x ∈ t.entries) : x.key ≤ t.maxKey := by
  unfold maxKey
  cases hl : t.entries.getLast? with
  | none => exact absurd (List.getLast?_eq_none_iff.mp hl) (List.ne_nil_of_mem hx)
  | some y =>
    obtain ⟨front, hf⟩ := List.getLast?_eq_some_iff.mp hl
    rw [hf] at hx hs
    rcases List.mem_append.mp hx with hx | hx
    · exact (Entry.le_iff.mp ((List.pairwise_append.mp hs).2.2 x hx y (by simp))).1
    · rw [List.mem_singleton.mp hx]
      exact le_refl _

theorem indexKey_eq (h : t.blocks[i]? = some (x :: b)) : t.indexKey i = x.key := by
  simp [indexKey, List.getD, h]

theorem exists_block (h : t.WF xxhash) (hi : i < t.blocks.length) :
    ∃ x b, t.blocks[i]? = some (x :: b) := by
  cases hb : t.blocks[i] with
  | nil => exact absurd hb (h.blocks_ne _ (List.getElem_mem hi))
  | cons x b => exact ⟨x, b, by rw [List.getElem?_eq_getElem hi, hb]⟩

theorem block_lt (h : t.WF xxhash) {j : Nat} {c : List Entry} (hb : t.blocks[i]? = some b)
    (hc : t.blocks[j]? = some c) (hij : i < j) {y : Entry} (hx : x ∈ b) (hy : y ∈ c) :
    x.key < y.key := by
  obtain ⟨hi, rfl⟩ := List.getElem?_eq_some_iff.mp hb
  obtain ⟨hj, rfl⟩ := List.getElem?_eq_some_iff.mp hc
  exact List.pairwise_iff_getElem.mp h.apart i j hi hj hij x hx y hy

theorem indexProbe_splits (h : t.WF xxhash) (k : Bytes) :
    ∃ c, Splits (t.indexProbe k) t.blocks.length c := by
  obtain ⟨c, hc, hcut⟩ := exists_cut (q := fun i => decide (t.indexKey i ≤ k)) t.blocks.length (by
    intro i j hij hj hk
    rcases Nat.lt_or_eq_of_le hij with hlt | rfl
    · obtain ⟨x, b, hb⟩ := exists_block h (Nat.lt_trans hlt hj)
      obtain ⟨y, c, hc⟩ := exists_block h hj
      have hxy : x.key < y.key := block_lt h hb hc hlt (by simp) (by simp)
      simp only [decide_eq_true_eq, indexKey_eq hb, indexKey_eq hc] at hk ⊢
      exact hxy.le.trans hk
    · exact hk)
  refine ⟨c, hc, hcut, fun i hi => (hcut i (by omega)).mpr hi, ?_⟩
  intro i j hci hij hj ht
  have := (hcut j hj).mp ht
  omega

theorem head_le (h : t.WF xxhash) {y : Entry} (hb : t.blocks[i]? = some (x :: b)) (hy : y ∈ x :: b) :
    x.key ≤ y.key := by
  have hp : (x :: b).Pairwise Entry.le :=
    (List.pairwise_flatten.mp h.sorted).1 _ (List.mem_of_getElem? hb)
  rcases List.mem_cons.mp hy with rfl | hy
  · exact le_refl _
  · exact (Entry.le_iff.mp ((List.pairwise_cons.mp hp).1 y hy)).1

theorem mem_entries (hx : x ∈ t.entries) :
    ∃ (i : Nat) (b : List Entry), t.blocks[i]? = some b ∧ x ∈ b := by
  obtain ⟨b, hb, hxb⟩ := List.mem_flatten.mp hx
  obtain ⟨i, hi, rfl⟩ := List.mem_iff_getElem.mp hb
  exact ⟨i, _, List.getElem?_eq_getElem hi, hxb⟩

theorem block_of_search (h : t.WF xxhash) {k : Bytes} (hx : x ∈ t.entries) (hk : x.key = k) :
    ∃ i b, search (t.indexProbe k) t.blocks.length = some i ∧ t.blocks[i]? = some b ∧ x ∈ b := by
  obtain ⟨c, hc⟩ := indexProbe_splits h k
  obtain ⟨j, b, hb, hxb⟩ := mem_entries hx
  have hj : j < t.blocks.length := (List.getElem?_eq_some_iff.mp hb).1
  have hle : ∀ i < t.blocks.length, t.indexKey i ≤ k ↔ i < c := by
    intro i hi
    have := hc.right i hi
    simpa [indexProbe] using this
  -- block `j` starts at or below `k`, and every later block above it
  have hjc : j < c := by
    obtain ⟨y, b', hb'⟩ := exists_block h hj
    have hbb : b = y :: b' := by rw [hb] at hb'; exact Option.some.inj hb'
    subst hbb
    have hyx := head_le h hb hxb
    rw [← hle j hj, indexKey_eq hb, ← hk]
    exact hyx
  have hcj : c ≤ j + 1 := by
    by_contra hlt
    have hlt : j + 1 < c := by omega
    have hjn : j + 1 < t.blocks.length := Nat.lt_of_lt_of_le hlt hc.le
    obtain ⟨z, b', hb'⟩ := exists_block h hjn
    have hzk := (hle (j + 1) hjn).mpr hlt
    rw [indexKey_eq hb', ← hk] at hzk
    exact absurd (block_lt h hb hb' (by omega) hxb (by simp)) (not_lt.mpr hzk)
  cases hs : search (t.indexProbe k) t.blocks.length with
  | none =>
    have := (search_none hc hs).1
    omega
  | some i =>
    have hi : i = j := by
      rcases search_some hc hs with hi | ⟨rfl, hin, ht⟩
      · omega
      · exact absurd ((hc.right i hin).mp (by simpa [indexProbe] using ht)) (Nat.lt_irrefl i)
    exact ⟨i, b, rfl, hi ▸ hb, hxb⟩

theorem newest_block (h : t.WF xxhash) (hb : t.blocks[i]? = some b) (hx : x ∈ b) (ok : Nat → Bool) :
    newest Entry.version (Entry.hits x.key ok) t.entries =
      newest Entry.version (Entry.hits x.key ok) b := by
  obtain ⟨hi, rfl⟩ := List.getElem?_eq_some_iff.mp hb
  have hsplit : t.entries =
      (t.blocks.take i).flatten ++ (t.blocks[i] ++ (t.blocks.drop (i + 1)).flatten) := by
    have hcut : t.blocks = t.blocks.take i ++ t.blocks[i] :: t.blocks.drop (i + 1) := by
      rw [← List.drop_eq_getElem_cons hi, List.take_append_drop]
    rw [entries]
    nth_rewrite 1 [hcut]
    rw [List.flatten_append, List.flatten_cons]
  rw [hsplit, newest_append_of_not, newest_append_not]
  · intro y hy
    obtain ⟨c, hc, hyc⟩ := List.mem_flatten.mp hy
    obtain ⟨j, hj, rfl⟩ := List.mem_drop_iff_getElem.mp hc
    have hj' : i + 1 + j < t.blocks.length := by omega
    have := block_lt h hb (List.getElem?_eq_getElem hj') (by omega) hx hyc
    simp [Entry.hits, this.ne']
  · intro y hy
    obtain ⟨c, hc, hyc⟩ := List.mem_flatten.mp hy
    obtain ⟨j, hj, rfl⟩ := List.mem_take_iff_getElem.mp hc
    have := block_lt h (List.getElem?_eq_getElem (by omega)) hb (by omega) hyc hx
    simp [Entry.hits, this.ne]

/-- **The lookup of a well-formed, aligned table finds the newest version the reader may see.** -/
theorem find_eq_newest (h : t.WF xxhash) {k : Bytes} (ha : t.Aligned k) (ok : Nat → Bool) :
    t.find xxhash k ok = newest Entry.version (Entry.hits k ok) t.entries := by
  have hblock : ∀ b ∈ t.blocks, scanBlock b k ok = newest Entry.version (Entry.hits k ok) b :=
    fun b hb => scanBlock_eq_newest ((List.pairwise_flatten.mp h.sorted).1 b hb) (ha b hb) ok
  by_cases hex : ∃ x ∈ t.entries, x.key = k
  · obtain ⟨x, hx, rfl⟩ := hex
    obtain ⟨i, b, hs, hb, hxb⟩ := block_of_search h hx rfl
    simp only [find, h.admits x hx, if_true, hs, List.getD, hb, Option.getD_some]
    rw [hblock b (List.mem_of_getElem? hb), newest_block h hb hxb]
  · -- no entry of the key: whichever block is scanned has none either
    have hnone : ∀ x ∈ t.entries, x.hits k ok = false := by
      intro x hx
      have : x.key ≠ k := fun hk => hex ⟨x, hx, hk⟩
      simp [Entry.hits, this]
    rw [newest_eq_none.mpr hnone, find]
    split
    · split
      · rfl
      · rename_i i hi
        cases hb : t.blocks[i]? with
        | none => simp [List.getD, hb, scanBlock, numRestarts, restartInterval, newest]
        | some b =>
          simp only [List.getD, hb, Option.getD_some]
          have hbm := List.mem_of_getElem? hb
          rw [hblock b hbm, newest_eq_none]
          exact fun x hx => hnone x (List.mem_flatten.mpr ⟨b, hbm, hx⟩)
    · rfl

end Table

def maxLevels : Nat := 5

/-- The tables of each level, in the order of the source's slices. -/
abbrev LevelTables := Nat → List Table

def allTables (levels : LevelTables) : List Table := (List.range maxLevels).flatMap levels

variable {levels : LevelTables}

theorem mem_allTables {t : Table} : t ∈ allTables levels ↔ ∃ lvl < maxLevels, t ∈ levels lvl := by
  simp [allTables]

def setLevel (levels : LevelTables) (lvl : Nat) (tables : List Table) : LevelTables :=
  fun l => if l = lvl then tables else levels l

@[simp] theorem setLevel_same (levels : LevelTables) (lvl : Nat) (tables : List Table) :
    setLevel levels lvl tables lvl = tables := if_pos rfl

@[simp] theorem setLevel_self (levels : LevelTables) (lvl : Nat) :
    setLevel levels lvl (levels lvl) = levels := by
  funext l
  by_cases h : l = lvl
  · subst h
    exact if_pos rfl
  · exact if_neg h

theorem setLevel_other {lvl l : Nat} {tables : List Table} (h : l ≠ lvl) :
    setLevel levels lvl tables l = levels l := if_neg h

theorem mem_setLevel {lvl l : Nat} {tables : List Table} {t : Table}
    (h : t ∈ setLevel levels lvl tables l) : l = lvl ∧ t ∈ tables ∨ l ≠ lvl ∧ t ∈ levels l := by
  by_cases hl : l = lvl
  · subst hl
    exact Or.inl ⟨rfl, setLevel_same levels l tables ▸ h⟩
  · rw [setLevel_other hl] at h
    exact Or.inr ⟨hl, h⟩

end AkwaDB
