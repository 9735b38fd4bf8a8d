import AkwaDB.Compaction.Output

/-!
# AkwaDB.Compaction.Kept

What a compaction hands to its `sstLevelWriter`, and what becomes of it.

- `newestAt_handed`: a reader at or above `minReadTs` gets from the handed entries what it gets from
  the inputs.
- `vanishes_of_absent`: a key of the inputs is missing only where its one kept version is dead and
  nothing can come to depend on it.
- `lands_iff`: a handed entry is in a table exactly when the table of its buffer could be created.
- `keeps_iff`: all that together, exactly when no key that is too long for the index comes to stand
  first in a block.
-/

namespace AkwaDB

def handed (env : DrainEnv) (levels : LevelTables) (level : Nat) (iters : List (List Entry)) :
    List Entry := (keptGroups env levels level iters).flatten

def VersionsDistinct (es : List Entry) : Prop := es.Pairwise fun x y => x.key = y.key → x.version ≠ y.version

def newestAt (key : Bytes) (r : Nat) (es : List Entry) : Option Entry :=
  newest Entry.version (seen Entry.key Entry.version key r) es

/-- Why a drain may leave out a key altogether. -/
structure Vanishes (env : DrainEnv) (levels : LevelTables) (level : Nat) (iters : List (List Entry))
    (key : Bytes) : Prop where
  bottom : level = maxLevels - 1
  settled : env.nextTs ≤ env.minReadTs
  uncollected : env.gcDiscardTs = 0
  below : keyMayExistBelow levels level key = false
  /-- Its sole kept version is dead: the others are older, and no reader goes back behind it. -/
  sole : ∃ z ∈ iters.flatten, z.key = key ∧ z.dead env.now = true ∧
    ∀ x ∈ iters.flatten, x.key = key → x ≠ z → x.version < z.version ∧ z.version ≤ env.minReadTs

structure Keeps (xxhash : Bytes → UInt64) (env : DrainEnv) (levels : LevelTables) (level seq : Nat)
    (iters : List (List Entry)) : Prop where
  sorted : VersionSorted (handed env levels level iters)
  /-- All that is handed over of a key is in one table, and in no other is anything of it. -/
  together : ∀ y ∈ handed env levels level iters,
    ∃ t ∈ (drainMergedIterator xxhash env levels level seq iters).1,
      (∀ z ∈ handed env levels level iters, z.key = y.key → z.stored ∈ t.entries) ∧
      ∀ u ∈ (drainMergedIterator xxhash env levels level seq iters).1,
        (∃ z ∈ u.entries, z.key = y.key) → u = t
  reads : ∀ key r, env.minReadTs ≤ r →
    (newestAt key r (handed env levels level iters)).bind (Entry.answer env.now) =
      (newestAt key r iters.flatten).bind (Entry.answer env.now)
  absent : ∀ key, (∃ x ∈ iters.flatten, x.key = key) →
    (∀ y ∈ handed env levels level iters, y.key ≠ key) → Vanishes env levels level iters key

/-- The first key of every block that a table of this drain would have fits the index. -/
def FirstKeysFit (env : DrainEnv) (levels : LevelTables) (level : Nat) (iters : List (List Entry)) : Prop :=
  ∀ buf ∈ drainChunks env levels level iters, ∀ b ∈ splitBlocks (buf.map Entry.stored), ∀ x ∈ b.head?,
    x.key.length ≤ maxIndexKey

section
variable {env : DrainEnv} {levels : LevelTables} {level : Nat} {iters : List (List Entry)}

theorem VersionsDistinct.eq {es : List Entry} (h : VersionsDistinct es) {x y : Entry} (hx : x ∈ es)
    (hy : y ∈ es) (hk : x.key = y.key) (hv : x.version = y.version) : x = y := by
  have : Std.Symm fun x y : Entry => x.key = y.key → x.version ≠ y.version :=
    ⟨fun _ _ hab hk hv => hab hk.symm hv.symm⟩
  by_contra hne
  exact List.Pairwise.forall h hx hy hne hk hv

theorem handed_sound {y : Entry} (hy : y ∈ handed env levels level iters) :
    ∃ x ∈ iters.flatten, y = x.compacted env.now := by
  obtain ⟨kept, hk, hyk⟩ := List.mem_flatten.mp hy
  exact keptGroups_sound hk hyk

theorem handed_sorted (hs : ∀ l ∈ iters, VersionSorted l) : VersionSorted (handed env levels level iters) := by
  refine List.pairwise_flatten.mpr ⟨fun g hg => (keptGroups_sorted hg).1, ?_⟩
  refine (keptGroups_apart hs).imp fun hlt x hx y hy => ?_
  have := hlt x hx y hy
  exact Entry.le_iff.mpr ⟨this.le, fun he => absurd he this.ne'⟩

theorem handed_eq (hd : VersionsDistinct iters.flatten) {x y : Entry}
    (hx : x ∈ handed env levels level iters) (hy : y ∈ handed env levels level iters)
    (hk : x.key = y.key) (hv : x.version = y.version) : x = y := by
  obtain ⟨x', hx', rfl⟩ := handed_sound hx
  obtain ⟨y', hy', rfl⟩ := handed_sound hy
  rw [hd.eq hx' hy' hk hv]

theorem compacted_answer_now (now : Int) (x : Entry) : (x.compacted now).answer now = x.answer now := by
  rw [← Entry.stored_answer, Entry.compacted_answer x (le_refl now)]

theorem newestAt_handed (hs : ∀ l ∈ iters, VersionSorted l) (hd : VersionsDistinct iters.flatten)
    (key : Bytes) {r : Nat} (hr : env.minReadTs ≤ r) :
    (newestAt key r (handed env levels level iters)).bind (Entry.answer env.now) =
      (newestAt key r iters.flatten).bind (Entry.answer env.now) := by
  cases hn : newestAt key r iters.flatten with
  | none =>
    have hnone : newestAt key r (handed env levels level iters) = none := by
      refine newest_eq_none.mpr fun y hy => ?_
      obtain ⟨x, hx, rfl⟩ := handed_sound hy
      exact newest_eq_none.mp hn x hx
    rw [hnone]
  | some x =>
    have hx := newest_spec hn
    obtain ⟨hxk, hxr⟩ := seen_iff.mp hx.pass
    obtain ⟨z, hz, hzk, hzv, hkept⟩ :=
      @keptGroup_of_visible env levels level iters hs x hx.mem (hx.visible hr)
    obtain rfl := hd.eq hz hx.mem hzk hzv
    rcases hkept with ⟨kept, hkept, hmem⟩ | ⟨hdead, _, hdrop⟩
    · -- it was handed over, and everything else that was is an input too
      have hsome : newestAt key r (handed env levels level iters) = some (z.compacted env.now) := by
        refine (newest_eq_some_iff ?_).mpr ⟨List.mem_flatten.mpr ⟨kept, hkept, hmem⟩, hx.pass, ?_⟩
        · intro a ha b hb hpa hpb hab
          exact handed_eq hd ha hb ((seen_iff.mp hpa).1.trans (seen_iff.mp hpb).1.symm) hab
        · intro y hy hpy
          obtain ⟨y', hy', rfl⟩ := handed_sound hy
          exact hx.max y' hy' hpy
      rw [hsome]
      exact compacted_answer_now env.now z
    · have hnone : newestAt key r (handed env levels level iters) = none := by
        refine newest_eq_none.mpr fun y hy => ?_
        obtain ⟨kept, hk, hyk⟩ := List.mem_flatten.mp hy
        have := hdrop kept hk y hyk
        simp [seen, ← hxk, this]
      simp [hnone, Entry.answer, hdead]

/-! ## Keys that go -/

theorem sole_of_keepVersions {m : Nat} {l : List Entry} {z : Entry}
    (h : keepVersions m none false l = [z]) (hs : l.Pairwise fun a b => b.version ≤ a.version) {x : Entry}
    (hx : x ∈ l) (hne : x.version ≠ z.version) : x.version < z.version ∧ z.version ≤ m := by
  obtain ⟨y, ys, rfl⟩ := List.exists_cons_of_ne_nil (List.ne_nil_of_mem hx)
  obtain ⟨rest, hrest⟩ := keepVersions_head m y ys
  rw [h] at hrest
  cases hrest
  have hlt : x.version < z.version := by
    rcases List.mem_cons.mp hx with rfl | hx
    · exact absurd rfl hne
    · exact lt_of_le_of_ne ((List.pairwise_cons.mp hs).1 x hx) hne
  refine ⟨hlt, ?_⟩
  -- a reader just below `z` would find `x`, but not among what is kept
  by_contra hm
  have hfind := keepVersions_find (m := m) (r := z.version - 1) (by omega) (z :: ys) none (by simp)
  rw [h, List.find?_cons_of_neg (by simp; omega), List.find?_nil] at hfind
  have := List.find?_eq_none.mp hfind.symm x hx
  simp only [decide_eq_true_eq] at this
  omega

theorem vanishes_of_absent (hs : ∀ l ∈ iters, VersionSorted l) (hd : VersionsDistinct iters.flatten)
    {key : Bytes} (hin : ∃ x ∈ iters.flatten, x.key = key)
    (hout : ∀ y ∈ handed env levels level iters, y.key ≠ key) : Vanishes env levels level iters key := by
  obtain ⟨x, hx, rfl⟩ := hin
  obtain ⟨group, hg, hxg, hkey⟩ := exists_group hx
  cases hkeep : keepGroup env levels level group with
  | some kept =>
    -- a kept group is not empty
    obtain ⟨y, hy⟩ := List.exists_mem_of_ne_nil kept (keepGroup_ne_nil (List.ne_nil_of_mem hxg) hkeep)
    obtain ⟨y', hy', rfl⟩ := mem_keptGroup hkeep hy
    have hk : kept ∈ keptGroups env levels level iters := List.mem_filterMap.mpr ⟨group, hg, hkeep⟩
    exact absurd (hkey y' hy') (hout (y'.compacted env.now) (List.mem_flatten.mpr ⟨kept, hk, hy⟩))
  | none =>
    have hdrop : dropsGroup env levels level
        (keepVersions env.minReadTs none false (byVersion group)) = true := by
      by_contra hno
      rw [byVersion] at hno
      rw [keepGroup, if_neg hno] at hkeep
      cases hkeep
    obtain ⟨z, hz, hdead, hlev, hts, hgc, hbelow⟩ := dropsGroup_eq_true hdrop
    have hzg : z ∈ group :=
      mem_byVersion.mp ((keepVersions_sublist _ _ _ _).subset (by rw [hz]; simp))
    rw [hkey z hzg] at hbelow
    refine ⟨hlev, hts, hgc, hbelow, z, mem_of_mem_group hg hzg, hkey z hzg, hdead, ?_⟩
    intro y hy hyk hne
    refine sole_of_keepVersions hz (byVersion_pairwise group) (mem_byVersion.mpr (mem_group_of_key hs hg hxg hy hyk)) ?_
    intro hv
    exact hne (hd.eq hy (mem_of_mem_group hg hzg) (hyk.trans (hkey z hzg).symm) hv)

variable {xxhash : Bytes → UInt64} {seq : Nat}

theorem createAtLevel_isSome_iff {now : Int} {es : List Entry} :
    (Table.createAtLevel xxhash now seq level es).isSome = true ↔
      ∀ b ∈ splitBlocks (es.map Entry.stored), ∀ x ∈ b.head?, x.key.length ≤ maxIndexKey := by
  simp only [Table.createAtLevel]
  split
  · rename_i hlong
    obtain ⟨b, hb, hx⟩ := List.any_eq_true.mp hlong
    simp only [Option.isSome_none, Bool.false_eq_true, false_iff, not_forall]
    cases hh : b.head? with
    | none => simp [hh] at hx
    | some x =>
      refine ⟨b, hb, x, hh, ?_⟩
      simpa [hh] using hx
  · rename_i hshort
    simp only [Option.isSome_some, true_iff]
    intro b hb x hx
    have hfit : ¬ maxIndexKey < ((b.head?.map Entry.key).getD []).length := by
      intro hlt
      exact hshort (List.any_eq_true.mpr ⟨b, hb, decide_eq_true hlt⟩)
    rw [Option.mem_def.mp hx] at hfit
    simpa using hfit

section
variable (hs : ∀ l ∈ iters, VersionSorted l)
include hs

theorem drainChunks_spec :
    (drainChunks env levels level iters).flatten = handed env levels level iters ∧
      BlocksApart (drainChunks env levels level iters) ∧
      ∀ buf ∈ drainChunks env levels level iters, VersionSorted buf ∧ buf ≠ [] := by
  obtain ⟨chunks, hc, hne, heq⟩ := drainChunks_groups env levels level iters
  rw [heq]
  refine ⟨?_, chunks_apart hs hc, ?_⟩
  · rw [handed, ← hc, List.flatten_flatten]
  · intro buf hbuf
    obtain ⟨c, hcm, rfl⟩ := List.mem_map.mp hbuf
    exact ⟨chunk_sorted hs hc hcm, hne c hcm⟩

theorem table_of_buffer {t : Table}
    (ht : t ∈ (drainMergedIterator xxhash env levels level seq iters).1) :
    ∃ n, ∃ buf ∈ drainChunks env levels level iters,
      Table.createAtLevel xxhash env.now n level buf = some t ∧ t.entries = buf.map Entry.stored := by
  rw [drainMergedIterator, drainBy_eq, mem_buildBy] at ht
  obtain ⟨i, buf, hi, hcreate⟩ := ht
  have hbuf := List.mem_of_getElem? hi
  obtain ⟨hsort, hne⟩ := (drainChunks_spec hs).2.2 buf hbuf
  exact ⟨_, buf, hbuf, hcreate, (Table.createAtLevel_wf hsort hne hcreate).2.1⟩

theorem buffer_written {buf : List Entry} (hbuf : buf ∈ drainChunks env levels level iters)
    (hfit : ∀ b ∈ splitBlocks (buf.map Entry.stored), ∀ x ∈ b.head?, x.key.length ≤ maxIndexKey) :
    ∃ t ∈ (drainMergedIterator xxhash env levels level seq iters).1, t.entries = buf.map Entry.stored := by
  obtain ⟨i, hi⟩ := List.getElem?_of_mem hbuf
  obtain ⟨t, ht⟩ := Option.isSome_iff_exists.mp
    ((@createAtLevel_isSome_iff level xxhash (seq + i + 1) env.now buf).mpr hfit)
  obtain ⟨hsort, hne⟩ := (drainChunks_spec hs).2.2 buf hbuf
  refine ⟨t, ?_, (Table.createAtLevel_wf hsort hne ht).2.1⟩
  rw [drainMergedIterator, drainBy_eq, mem_buildBy]
  exact ⟨i, buf, hi, ht⟩

theorem buffer_of_key {t : Table}
    (ht : t ∈ (drainMergedIterator xxhash env levels level seq iters).1) {buf : List Entry}
    (hbuf : buf ∈ drainChunks env levels level iters) {y z : Entry} (hy : y ∈ buf)
    (hz : z ∈ t.entries) (hk : z.key = y.key) :
    ∃ n, Table.createAtLevel xxhash env.now n level buf = some t := by
  obtain ⟨n, buf', hbuf', hcreate, hent⟩ := table_of_buffer hs ht
  rw [hent] at hz
  obtain ⟨w, hw, rfl⟩ := List.mem_map.mp hz
  rw [Entry.stored_key] at hk
  obtain rfl := (drainChunks_spec hs).2.1.eq_of_key hbuf' hbuf hw hy hk
  exact ⟨n, hcreate⟩

theorem lands_iff {buf : List Entry} (hbuf : buf ∈ drainChunks env levels level iters) {y : Entry}
    (hy : y ∈ buf) :
    (∃ t ∈ (drainMergedIterator xxhash env levels level seq iters).1, y.stored ∈ t.entries) ↔
      ∀ b ∈ splitBlocks (buf.map Entry.stored), ∀ x ∈ b.head?, x.key.length ≤ maxIndexKey := by
  constructor
  · rintro ⟨t, ht, hyt⟩
    obtain ⟨n, hcreate⟩ := buffer_of_key hs ht hbuf hy hyt (Entry.stored_key y)
    exact (@createAtLevel_isSome_iff level xxhash n env.now buf).mp (by rw [hcreate]; rfl)
  · intro hfit
    obtain ⟨t, ht, hent⟩ := @buffer_written env levels level iters xxhash seq hs buf hbuf hfit
    exact ⟨t, ht, by rw [hent]; exact List.mem_map_of_mem hy⟩

theorem mem_buffer {buf : List Entry} (hbuf : buf ∈ drainChunks env levels level iters)
    {y z : Entry} (hy : y ∈ buf) (hz : z ∈ handed env levels level iters) (hk : z.key = y.key) :
    z ∈ buf := by
  rw [← (drainChunks_spec hs).1] at hz
  obtain ⟨buf', hbuf', hz'⟩ := List.mem_flatten.mp hz
  rwa [(drainChunks_spec hs).2.1.eq_of_key hbuf' hbuf hz' hy hk] at hz'

theorem table_unique {t u : Table}
    (ht : t ∈ (drainMergedIterator xxhash env levels level seq iters).1)
    (hu : u ∈ (drainMergedIterator xxhash env levels level seq iters).1) {x y : Entry}
    (hx : x ∈ t.entries) (hy : y ∈ u.entries) (hk : x.key = y.key) : t = u := by
  obtain ⟨i, hi, rfl⟩ := List.mem_iff_getElem.mp ht
  obtain ⟨j, hj, rfl⟩ := List.mem_iff_getElem.mp hu
  have hap := List.pairwise_iff_getElem.mp (@drain_pairwise env levels level iters xxhash seq hs)
  rcases Nat.lt_trichotomy i j with hij | rfl | hij
  · exact absurd hk ((hap i j hi hj hij).2 x hx y hy).ne
  · rfl
  · exact absurd hk ((hap j i hj hi hij).2 y hy x hx).ne'

theorem firstKeysFit_of_keeps (h : Keeps xxhash env levels level seq iters) :
    FirstKeysFit env levels level iters := by
  intro buf hbuf
  obtain ⟨y, hy⟩ := List.exists_mem_of_ne_nil buf ((drainChunks_spec hs).2.2 buf hbuf).2
  have hyh : y ∈ handed env levels level iters := by
    rw [← (drainChunks_spec hs).1]
    exact List.mem_flatten.mpr ⟨buf, hbuf, hy⟩
  obtain ⟨t, ht, hall, _⟩ := h.together y hyh
  exact (lands_iff hs hbuf hy).mp ⟨t, ht, hall y hyh rfl⟩

end

/-- **A compaction keeps what readers need exactly when every first key of a block fits the index.** -/
theorem keeps_iff (hs : ∀ l ∈ iters, VersionSorted l) (hd : VersionsDistinct iters.flatten) :
    Keeps xxhash env levels level seq iters ↔ FirstKeysFit env levels level iters := by
  refine ⟨firstKeysFit_of_keeps hs, ?_⟩
  intro hfit
  refine ⟨handed_sorted hs, ?_, fun key r hr => newestAt_handed hs hd key hr,
    fun key hin hout => vanishes_of_absent hs hd hin hout⟩
  intro y hyh
  have hyb := hyh
  rw [← (drainChunks_spec hs).1] at hyb
  obtain ⟨buf, hbuf, hy⟩ := List.mem_flatten.mp hyb
  obtain ⟨t, ht, hent⟩ := @buffer_written env levels level iters xxhash seq hs buf hbuf (hfit buf hbuf)
  have hin : ∀ z ∈ handed env levels level iters, z.key = y.key → z.stored ∈ t.entries := by
    intro z hz hk
    rw [hent]
    exact List.mem_map_of_mem (mem_buffer hs hbuf hy hz hk)
  refine ⟨t, ht, hin, ?_⟩
  rintro u hu ⟨z, hz, hk⟩
  exact table_unique hs hu ht hz (hin y hyh rfl) (hk.trans (Entry.stored_key y).symm)

end

/-- An overwritten key and a tombstone, in two tables. -/
def twoInputs : List (List Entry) :=
  [[⟨[97], [118], false, 0, 6⟩, ⟨[107], [], true, 0, 5⟩], [⟨[107], [119], false, 0, 4⟩, ⟨[107], [118], false, 0, 2⟩]]

theorem keeps_overwritten : Keeps (fun _ => 0) ⟨0, 3, 3, 0⟩ (fun _ => []) 1 0 twoInputs :=
  (keeps_iff (by decide +kernel) (by unfold VersionsDistinct; decide)).mpr (by unfold FirstKeysFit; decide +kernel)

/-! ## A key that is too long for the index -/

def longKey : Bytes := List.replicate 65536 107

def longEntry : Entry := ⟨longKey, [118], false, 0, 2⟩

/-- A tombstone in front of an entry with a long key: only the first key goes into the index. -/
def longInput : List Entry := [⟨[97], [], true, 0, 1⟩, longEntry]

def quietEnv : DrainEnv := ⟨0, 9, 9, 0⟩

theorem longKey_length : longKey.length = 65536 := List.length_replicate

theorem longKey_above : [97] < longKey := by
  rw [longKey, List.replicate_succ]
  exact List.Lex.rel (by decide)

theorem longInput_sorted : VersionSorted longInput := by
  refine List.pairwise_pair.mpr (Entry.le_iff.mpr ⟨longKey_above.le, ?_⟩)
  intro heq
  exact absurd heq longKey_above.ne'

theorem longInput_distinct : VersionsDistinct longInput := List.pairwise_pair.mpr fun _ => by decide

theorem longInput_created :
    ∃ t, Table.createAtLevel (fun _ => 0) 0 1 3 longInput = some t ∧ t.entries = longInput := by
  have hblocks : splitBlocks (longInput.map Entry.stored) = [longInput] := by
    simp [splitBlocks, splitFrom, longInput, longEntry, Entry.stored, recordSize, targetBlockSize]
  obtain ⟨t, ht⟩ := Option.isSome_iff_exists.mp ((@createAtLevel_isSome_iff 3 (fun _ => 0) 1 0 longInput).mpr (by
    rw [hblocks]
    simp [longInput, maxIndexKey]))
  refine ⟨t, ht, (Table.createAtLevel_wf longInput_sorted (by simp [longInput]) ht).2.1.trans ?_⟩
  rw [← splitBlocks_flatten (longInput.map Entry.stored), hblocks]
  simp

theorem longInput_kept : keptGroups quietEnv (fun _ => []) 4 [longInput] = [[longEntry]] := by
  have hm : kmerge Entry.before [longInput] = longInput := by
    simp [kmerge, kmergeFuel, longInput, popLeast]
  have hg : groupByKey longInput = [[⟨[97], [], true, 0, 1⟩], [longEntry]] := by
    simp [longInput, longEntry, groupByKey, longKey_above.ne]
  rw [keptGroups, hm, hg]
  rfl

theorem longInput_chunks : drainChunks quietEnv (fun _ => []) 4 [longInput] = [[longEntry]] := by
  rw [drainChunks, longInput_kept, chunksFrom]
  split
  · rfl
  · rfl

theorem longEntry_unfit : ¬ ∀ b ∈ splitBlocks ([longEntry].map Entry.stored), ∀ x ∈ b.head?,
    x.key.length ≤ maxIndexKey := by
  intro h
  have := h [longEntry] (by simp [splitBlocks, splitFrom, longEntry, Entry.stored]) longEntry rfl
  rw [show longEntry.key = longKey from rfl, longKey_length] at this
  exact absurd this (by decide)

theorem longInput_written :
    (drainMergedIterator (fun _ => 0) quietEnv (fun _ => []) 4 1 [longInput]).1 = [] := by
  have hnone : Table.createAtLevel (fun _ => 0) quietEnv.now (1 + 1) 4 [longEntry] = none := by
    rw [← Option.not_isSome_iff_eq_none, createAtLevel_isSome_iff]
    exact longEntry_unfit
  rw [drainMergedIterator, drainBy_eq, longInput_chunks]
  simp [buildBy, hnone]

/-- **A live key of the inputs is in no output**: without the tombstone its block cannot be indexed. -/
theorem longKey_lost :
    (∃ t, Table.createAtLevel (fun _ => 0) 0 1 3 longInput = some t ∧ t.entries = longInput) ∧
    (∀ l ∈ [longInput], VersionSorted l) ∧ VersionsDistinct [longInput].flatten ∧
    handed quietEnv (fun _ => []) 4 [longInput] = [longEntry] ∧
    (drainMergedIterator (fun _ => 0) quietEnv (fun _ => []) 4 1 [longInput]).1 = [] ∧
    ¬ Keeps (fun _ => 0) quietEnv (fun _ => []) 4 1 [longInput] := by
  have hs : ∀ l ∈ [longInput], VersionSorted l := by simpa using longInput_sorted
  refine ⟨longInput_created, hs, by simpa using longInput_distinct, by simp [handed, longInput_kept],
    longInput_written, ?_⟩
  intro h
  have hfit := firstKeysFit_of_keeps hs h [longEntry] (by rw [longInput_chunks]; simp)
  exact longEntry_unfit hfit

end AkwaDB
