import AkwaDB.Compaction.Group
import AkwaDB.Store.Table

/-!
# AkwaDB.Compaction.Drain

`drainMergedIterator` and `sstLevelWriter`: merge the input tables, keep of each key the versions
some reader may still need, and write them to tables of about eight megabytes.

`drain_eq_buildTables` is the shape of the result: the kept groups, in order, cut into chunks
between groups, each chunk one table or, when the table cannot be created, none.
-/

namespace AkwaDB

/-- What a compaction reads of the clock, the oracle and the value log when it starts. -/
structure DrainEnv where
  now : Int
  minReadTs : Nat
  nextTs : Nat
  gcDiscardTs : Nat

def keyMayExistBelow (levels : LevelTables) (targetLevel : Nat) (key : Bytes) : Bool :=
  (List.range maxLevels).any fun lvl =>
    decide (targetLevel < lvl) &&
      (levels lvl).any fun t => decide (t.minKey ≤ key) && decide (key ≤ t.maxKey)

/-- The entry written for a kept version: an expired value becomes a tombstone. -/
def Entry.compacted (now : Int) (g : Entry) : Entry := { g with deleted := g.dead now }

/-- A group goes for good: it is dead, nothing can lie below, and no transaction or collection runs. -/
def dropsGroup (env : DrainEnv) (levels : LevelTables) (targetLevel : Nat) :
    List Entry → Bool
  | [head] =>
    head.dead env.now && decide (targetLevel = maxLevels - 1) &&
      !decide (env.minReadTs < env.nextTs) && decide (env.gcDiscardTs = 0) &&
      !keyMayExistBelow levels targetLevel head.key
  | _ => false

/-- What one group comes to: the entries to write, or `none` where the loop continues. -/
def keepGroup (env : DrainEnv) (levels : LevelTables) (targetLevel : Nat) (group : List Entry) :
    Option (List Entry) :=
  let sorted := group.insertionSort fun a b => b.version ≤ a.version
  let kept := keepVersions env.minReadTs none false sorted
  if dropsGroup env levels targetLevel kept then none
  else some (kept.map (Entry.compacted env.now))

def compactionTableBytes : Nat := 8 * 1024 * 1024

structure LevelWriter where
  buf : List Entry
  bytes : Nat
  tables : List Table
  nextSeq : Nat

def LevelWriter.add (w : LevelWriter) (x : Entry) : LevelWriter :=
  { w with buf := w.buf ++ [x], bytes := w.bytes + x.key.length + x.value.length + 33 }

def keptGroups (env : DrainEnv) (levels : LevelTables) (level : Nat) (iters : List (List Entry)) :
    List (List Entry) :=
  (groupByKey (kmerge Entry.before iters)).filterMap (keepGroup env levels level)

section
variable (create : Nat → List Entry → Option Table)

/-- A table that cannot be created is logged and left out. -/
def LevelWriter.flush (w : LevelWriter) : LevelWriter :=
  if w.buf = [] then w
  else ⟨[], 0, w.tables ++ (create (w.nextSeq + 1) w.buf).toList, w.nextSeq + 1⟩

def LevelWriter.maybeFlush (w : LevelWriter) : LevelWriter :=
  if compactionTableBytes ≤ w.bytes then w.flush create else w

def drainGroup (env : DrainEnv) (levels : LevelTables) (level : Nat) (w : LevelWriter)
    (group : List Entry) : LevelWriter :=
  match keepGroup env levels level group with
  | none => w
  | some kept => (kept.foldl LevelWriter.add w).maybeFlush create

/-- The drain followed by `finish`, for any way of creating tables: the new ones and the counter afterwards. -/
def drainBy (env : DrainEnv) (levels : LevelTables) (level nextSeq : Nat) (iters : List (List Entry)) :
    List Table × Nat :=
  let merged := kmerge Entry.before iters
  let w := (groupByKey merged).foldl (drainGroup create env levels level) ⟨[], 0, [], nextSeq⟩
  let w := w.flush create
  (w.tables, w.nextSeq)

def buildBy : Nat → List (List Entry) → List Table
  | _, [] => []
  | seq, c :: cs => (create (seq + 1) c).toList ++ buildBy (seq + 1) cs

end

section
variable (xxhash : Bytes → UInt64)

def drainMergedIterator (env : DrainEnv) (levels : LevelTables) (level nextSeq : Nat)
    (iters : List (List Entry)) : List Table × Nat :=
  drainBy (fun n es => Table.createAtLevel xxhash env.now n level es) env levels level nextSeq iters

def buildTables (now : Int) (level : Nat) : Nat → List (List Entry) → List Table :=
  buildBy fun n es => Table.createAtLevel xxhash now n level es

end

variable {xxhash : Bytes → UInt64}

theorem buildTables_cons (now : Int) (level seq : Nat) (c : List Entry) (cs : List (List Entry)) :
    buildTables xxhash now level seq (c :: cs) =
      (Table.createAtLevel xxhash now (seq + 1) level c).toList ++ buildTables xxhash now level (seq + 1) cs := rfl

theorem mem_buildBy {create : Nat → List Entry → Option Table} {t : Table} {cs : List (List Entry)}
    {seq : Nat} : t ∈ buildBy create seq cs ↔
      ∃ i c, cs[i]? = some c ∧ create (seq + i + 1) c = some t := by
  induction cs generalizing seq with
  | nil => simp [buildBy]
  | cons d ds ih =>
    rw [buildBy, List.mem_append, Option.mem_toList, ih]
    constructor
    · rintro (h | ⟨i, c, hi, h⟩)
      · exact ⟨0, d, rfl, h⟩
      · exact ⟨i + 1, c, hi, by rwa [show seq + (i + 1) + 1 = seq + 1 + i + 1 by omega]⟩
    · rintro ⟨i, c, hi, h⟩
      cases i with
      | zero =>
        cases hi
        exact Or.inl h
      | succ i => exact Or.inr ⟨i, c, hi, by rwa [show seq + 1 + i + 1 = seq + (i + 1) + 1 by omega]⟩

theorem mem_buildTables {now : Int} {level seq : Nat} {t : Table} {cs : List (List Entry)}
    (h : t ∈ buildTables xxhash now level seq cs) : ∃ n c, seq < n ∧ n ≤ seq + cs.length ∧ c ∈ cs ∧
      Table.createAtLevel xxhash now n level c = some t := by
  rw [buildTables, mem_buildBy] at h
  obtain ⟨i, c, hi, hc⟩ := h
  have hlt := (List.getElem?_eq_some_iff.mp hi).1
  exact ⟨seq + i + 1, c, by omega, by omega, List.mem_of_getElem? hi, hc⟩

theorem exists_buildTables {now : Int} {level : Nat} {cs : List (List Entry)} {c : List Entry}
    (hc : c ∈ cs) (hs : VersionSorted c) (hne : c ≠ [])
    (hlen : ∀ x ∈ c, x.key.length ≤ maxIndexKey) (seq : Nat) :
    ∃ t ∈ buildTables xxhash now level seq cs, t.entries = c.map Entry.stored := by
  obtain ⟨i, hi⟩ := List.getElem?_of_mem hc
  obtain ⟨t, ht⟩ := @Table.createAtLevel_isSome xxhash now (seq + i + 1) level c hlen
  refine ⟨t, ?_, (Table.createAtLevel_wf hs hne ht).2.1⟩
  rw [buildTables, mem_buildBy]
  exact ⟨i, c, hi, ht⟩

theorem buildTables_pairwise {now : Int} {level : Nat} {cs : List (List Entry)}
    (hs : ∀ c ∈ cs, VersionSorted c ∧ c ≠ []) (hap : BlocksApart cs) :
    ∀ seq, (buildTables xxhash now level seq cs).Pairwise fun t u =>
      t.seq < u.seq ∧ ∀ x ∈ t.entries, ∀ y ∈ u.entries, x.key < y.key := by
  induction cs with
  | nil => intro seq; exact List.Pairwise.nil
  | cons d ds ih =>
    intro seq
    obtain ⟨hd, hds⟩ := List.pairwise_cons.mp hap
    rw [buildTables_cons]
    refine List.pairwise_append.mpr ⟨?_, ih (fun c hc => hs c (by simp [hc])) hds _, ?_⟩
    · cases Table.createAtLevel xxhash now (seq + 1) level d with
      | none => exact List.Pairwise.nil
      | some t => exact List.pairwise_singleton _ _
    · intro t ht u hu
      rw [Option.mem_toList] at ht
      obtain ⟨n, c, hn, _, hc, hcu⟩ := mem_buildTables hu
      obtain ⟨_, ht1, ht2, _⟩ := Table.createAtLevel_wf (hs d (by simp)).1 (hs d (by simp)).2 ht
      obtain ⟨_, hu1, hu2, _⟩ :=
        Table.createAtLevel_wf (hs c (by simp [hc])).1 (hs c (by simp [hc])).2 hcu
      refine ⟨by omega, ?_⟩
      intro x hx y hy
      rw [ht1] at hx
      rw [hu1] at hy
      obtain ⟨x', hx', rfl⟩ := List.mem_map.mp hx
      obtain ⟨y', hy', rfl⟩ := List.mem_map.mp hy
      simpa using hd c hc x' hx' y' hy'

/-! ## The shape of the output -/

def bufferBytes (es : List Entry) : Nat := (es.map fun x => x.key.length + x.value.length + 33).sum

/-- The buffers that become tables: each that has grown large, and what is left in the end. -/
def chunksFrom : List Entry → List (List Entry) → List (List Entry)
  | buf, [] => if buf = [] then [] else [buf]
  | buf, kept :: groups =>
    if compactionTableBytes ≤ bufferBytes (buf ++ kept) then (buf ++ kept) :: chunksFrom [] groups
    else chunksFrom (buf ++ kept) groups

def drainChunks (env : DrainEnv) (levels : LevelTables) (level : Nat) (iters : List (List Entry)) :
    List (List Entry) := chunksFrom [] (keptGroups env levels level iters)

theorem foldl_add (kept : List Entry) (w : LevelWriter) : kept.foldl LevelWriter.add w =
    { w with buf := w.buf ++ kept, bytes := w.bytes + bufferBytes kept } := by
  induction kept generalizing w with
  | nil => simp [bufferBytes]
  | cons x xs ih =>
    rw [List.foldl_cons, ih]
    simp [LevelWriter.add, bufferBytes, Nat.add_assoc]

theorem bufferBytes_append (es fs : List Entry) :
    bufferBytes (es ++ fs) = bufferBytes es + bufferBytes fs := by
  simp [bufferBytes]

theorem ne_nil_of_full {es : List Entry} (h : compactionTableBytes ≤ bufferBytes es) : es ≠ [] := by
  rintro rfl
  exact absurd h (by decide)

section
variable (create : Nat → List Entry → Option Table)

theorem flush_of_ne_nil {buf : List Entry} (hne : buf ≠ []) {bytes seq : Nat}
    {tables : List Table} :
    LevelWriter.flush create ⟨buf, bytes, tables, seq⟩ =
      ⟨[], 0, tables ++ (create (seq + 1) buf).toList, seq + 1⟩ := if_neg hne

theorem foldl_drainGroup (env : DrainEnv) (levels : LevelTables) (level : Nat)
    (groups : List (List Entry)) (w : LevelWriter) (hw : w.bytes = bufferBytes w.buf) :
    let w' := (groups.foldl (drainGroup create env levels level) w).flush create
    let chunks := chunksFrom w.buf (groups.filterMap (keepGroup env levels level))
    w'.tables = w.tables ++ buildBy create w.nextSeq chunks ∧ w'.nextSeq = w.nextSeq + chunks.length := by
  induction groups generalizing w with
  | nil =>
    rw [List.foldl_nil, List.filterMap_nil, chunksFrom]
    by_cases hbuf : w.buf = []
    · simp [LevelWriter.flush, hbuf, buildBy]
    · simp [LevelWriter.flush, hbuf, buildBy]
  | cons g groups ih =>
    rw [List.foldl_cons, List.filterMap_cons, drainGroup]
    cases keepGroup env levels level g with
    | none => exact ih w hw
    | some kept =>
      dsimp only
      rw [foldl_add, LevelWriter.maybeFlush, chunksFrom, hw, ← bufferBytes_append]
      split
      · rename_i hfull
        have hne := ne_nil_of_full hfull
        obtain ⟨htab, hseq⟩ := ih ⟨[], 0, w.tables ++ (create (w.nextSeq + 1) (w.buf ++ kept)).toList,
          w.nextSeq + 1⟩ rfl
        rw [flush_of_ne_nil create hne]
        refine ⟨?_, ?_⟩
        · rw [htab, buildBy, List.append_assoc]
        · simp only [hseq, List.length_cons]
          omega
      · exact ih ⟨w.buf ++ kept, bufferBytes (w.buf ++ kept), w.tables, w.nextSeq⟩ rfl

theorem drainBy_eq (env : DrainEnv) (levels : LevelTables) (level seq : Nat)
    (iters : List (List Entry)) :
    drainBy create env levels level seq iters =
      (buildBy create seq (drainChunks env levels level iters),
        seq + (drainChunks env levels level iters).length) := by
  obtain ⟨htab, hseq⟩ := foldl_drainGroup create env levels level
    (groupByKey (kmerge Entry.before iters)) ⟨[], 0, [], seq⟩ rfl
  exact Prod.ext htab hseq

end

theorem chunksFrom_groups (gs cur : List (List Entry)) (hne : ∀ g ∈ cur ++ gs, g ≠ []) :
    ∃ chunks : List (List (List Entry)), chunks.flatten = cur ++ gs ∧ (∀ c ∈ chunks, c.flatten ≠ []) ∧
      chunksFrom cur.flatten gs = chunks.map List.flatten := by
  induction gs generalizing cur with
  | nil =>
    rw [chunksFrom]
    split
    · rename_i hempty
      cases cur with
      | nil => exact ⟨[], rfl, by simp, rfl⟩
      | cons g cur =>
        rw [List.flatten_cons] at hempty
        exact absurd (List.append_eq_nil_iff.mp hempty).1 (hne g (by simp))
    · rename_i hbuf
      exact ⟨[cur], by simp, by simpa using hbuf, rfl⟩
  | cons g gs ih =>
    have hflat : cur.flatten ++ g = (cur ++ [g]).flatten := by simp
    rw [chunksFrom, hflat]
    split
    · rename_i hfull
      obtain ⟨chunks, hgs, hchunks, heq⟩ := ih [] fun h hh => hne h (by
        simp [List.nil_append gs ▸ hh])
      refine ⟨(cur ++ [g]) :: chunks, ?_, ?_, by rw [List.map_cons, ← heq]; rfl⟩
      · rw [List.flatten_cons, hgs]
        simp
      · intro c hc
        rcases List.mem_cons.mp hc with rfl | hc
        · exact ne_nil_of_full hfull
        · exact hchunks c hc
    · obtain ⟨chunks, hgs, hchunks, heq⟩ := ih (cur ++ [g]) (by simpa using hne)
      exact ⟨chunks, by simpa using hgs, hchunks, heq⟩

theorem keepGroup_ne_nil {env : DrainEnv} {levels : LevelTables} {level : Nat}
    {group kept : List Entry} (hg : group ≠ []) (h : keepGroup env levels level group = some kept) :
    kept ≠ [] := by
  simp only [keepGroup] at h
  split at h
  · cases h
  · cases h
    cases hs : group.insertionSort (fun a b => b.version ≤ a.version) with
    | nil =>
      have := (List.perm_insertionSort (fun a b : Entry => b.version ≤ a.version) group).length_eq
      rw [hs] at this
      exact absurd (List.length_eq_zero_iff.mp this.symm) hg
    | cons x xs =>
      obtain ⟨rest, hrest⟩ := keepVersions_head env.minReadTs x xs
      rw [hrest]
      simp

theorem keptGroups_ne_nil {env : DrainEnv} {levels : LevelTables} {level : Nat}
    {iters : List (List Entry)} : ∀ kept ∈ keptGroups env levels level iters, kept ≠ [] := by
  intro kept hk
  obtain ⟨group, hgroup, hkeep⟩ := List.mem_filterMap.mp hk
  exact keepGroup_ne_nil (groupByKey_ne_nil group hgroup) hkeep

theorem drainChunks_groups (env : DrainEnv) (levels : LevelTables) (level : Nat)
    (iters : List (List Entry)) : ∃ chunks : List (List (List Entry)),
      chunks.flatten = keptGroups env levels level iters ∧ (∀ c ∈ chunks, c.flatten ≠ []) ∧
      drainChunks env levels level iters = chunks.map List.flatten := by
  obtain ⟨chunks, hc, hne, heq⟩ := chunksFrom_groups (keptGroups env levels level iters) [] (by
    simpa using keptGroups_ne_nil)
  exact ⟨chunks, by simpa using hc, hne, heq⟩

/-- **The output of a drain is its kept groups, in order, cut into chunks between groups.** -/
theorem drain_eq_buildTables (env : DrainEnv) (levels : LevelTables) (level seq : Nat)
    (iters : List (List Entry)) :
    ∃ chunks : List (List (List Entry)),
      chunks.flatten = keptGroups env levels level iters ∧ (∀ c ∈ chunks, c.flatten ≠ []) ∧
      drainMergedIterator xxhash env levels level seq iters =
        (buildTables xxhash env.now level seq (chunks.map List.flatten), seq + chunks.length) := by
  obtain ⟨chunks, hc, hne, heq⟩ := drainChunks_groups env levels level iters
  refine ⟨chunks, hc, hne, ?_⟩
  rw [drainMergedIterator, drainBy_eq, buildTables, heq, List.length_map]

end AkwaDB
