import AkwaDB.Engine.Failure
import AkwaDB.Engine.Order
import AkwaDB.Lib.Reach

/-!
# AkwaDB.Engine.Ingest

`Ingest`: tables built elsewhere become tables of the deepest level that nothing above or in it
overlaps.

The tables of a level from 1 on share no keys. Their ranges may overlap all the same: a compaction of
level 0 leaves a table of the base level alone when none of the tables of level 0 overlaps it, and
what it writes reaches over them all.

- `levels_apart`: flushes, compactions and ingestions of files without the empty key keep the tables
  of a level apart by key, whether or not their files can be written.
- `empty_key_twice`: the first key of a file with the empty key is not what it is opened with, and two
  such files come to lie in one level.
-/

namespace AkwaDB

/-! ## Tables that are in order -/

namespace Table

variable {t : Table}

theorem minKey_le_maxKey (hs : VersionSorted t.entries) : t.minKey ≤ t.maxKey := by
  cases he : t.entries with
  | nil => simp [minKey, maxKey, he]
  | cons x xs =>
    have hx : x ∈ t.entries := by rw [he]; exact List.mem_cons_self
    exact le_trans (minKey_le hs hx) (le_maxKey hs hx)

/-- The first key as `OpenWithRegistry` reads it. An empty one is not read, and the key that the first block is indexed
under stays: the table writer takes the first that is not empty. -/
def openedMinKey (t : Table) : Bytes := (t.entries.find? fun x => decide (x.key ≠ [])).elim [] Entry.key

def NoEmptyKey (t : Table) : Prop := ∀ x ∈ t.entries, x.key ≠ []

theorem openedMinKey_eq (h : t.NoEmptyKey) : t.openedMinKey = t.minKey := by
  unfold openedMinKey minKey
  cases he : t.entries with
  | nil => rfl
  | cons x xs =>
    have hx : x.key ≠ [] := h x (he ▸ List.mem_cons_self)
    simp [hx]

theorem keysApart_of_lt {u : Table} (ht : VersionSorted t.entries) (hu : VersionSorted u.entries)
    (h : t.maxKey < u.minKey) : KeysApart t u := by
  intro x hx y hy hk
  have hlt : x.key < y.key := lt_of_le_of_lt (le_maxKey ht hx) (lt_of_lt_of_le h (minKey_le hu hy))
  exact absurd hk hlt.ne

theorem keysApart_of_not_overlap {u : Table} (ht : VersionSorted t.entries)
    (hu : VersionSorted u.entries) (h : rangesOverlap t u = false) : KeysApart t u := by
  intro x hx y hy hk
  rw [rangesOverlap_of_key ht hu hx hy hk] at h
  cases h

end Table

structure Staged where
  path : String
  table : Table
  sorted : VersionSorted table.entries

inductive IngestError where
  | valuePointer (path : String)
  | selfOverlap

namespace Engine

open Vlog (isValuePointer)

variable (cfg : Config)

/-- `rangesOverlap`, of a table that was opened with one that has the first key `minKey`. -/
def openedOverlap (t u : Table) (minKey : Bytes) : Bool :=
  decide (t.openedMinKey ≤ u.maxKey) && decide (minKey ≤ t.maxKey)

/-- A table that is there already counts with its first key. (One that was itself ingested counts with the key read
when it was opened, which is the same unless it has the empty key.) -/
def levelOverlapsAny (levels : LevelTables) (lvl : Nat) (tables : List Table) : Bool :=
  (levels lvl).any fun existing => tables.any fun t => openedOverlap t existing existing.minKey

def selfOverlaps : List Table → Bool
  | t :: u :: rest => openedOverlap t u u.openedMinKey || selfOverlaps (u :: rest)
  | _ => false

def deepestFrom (levels : LevelTables) (tables : List Table) : List Nat → Nat → Nat
  | [], targetLevel => targetLevel
  | lvl :: rest, targetLevel =>
    if levelOverlapsAny levels lvl tables then targetLevel else deepestFrom levels tables rest lvl

def ingestLevel (levels : LevelTables) (tables : List Table) : Nat :=
  if levelOverlapsAny levels 0 tables then 0 else deepestFrom levels tables [1, 2, 3, 4] 0

def renumber (level : Nat) : Nat → List Table → List Table
  | _, [] => []
  | seq, t :: ts => { t with seq := seq + 1, level } :: renumber level (seq + 1) ts

/-- `forceFlush` of the memtable, unless it is empty; it waits for a flush under way. -/
def forceFlush (fails : Bool) (e : Engine) : Option Engine :=
  match e.imm with
  | some _ => none
  | none => if e.mem.nodes = [] then some e else e.flush cfg fails

/-- `submitFlush`: the writer takes a version for it, as for a write. -/
def submitFlush (fails : Bool) (e : Engine) : Option Engine := (e.dispatch fun _ => none).forceFlush cfg fails

/-- The check is made once more when the lock of the level is held. -/
def targetLevel (levels : LevelTables) (tables : List Table) : Nat :=
  let target := ingestLevel levels tables
  if 0 < target ∧ levelOverlapsAny levels target tables = true then 0 else target

def install (e : Engine) (tables : List Table) : Engine :=
  let target := targetLevel e.levels tables
  let joined := e.levels target ++ renumber target e.nextSeq tables
  let joined := if 0 < target then joined.insertionSort fun t u => t.minKey ≤ u.minKey else joined
  { e with levels := setLevel e.levels target joined, nextSeq := e.nextSeq + tables.length }

def ingestTables (e : Engine) (staged : List Staged) : Except IngestError Engine :=
  match staged.find? fun s => s.table.entries.any fun x => !x.deleted && isValuePointer x.value with
  | some s => .error (.valuePointer s.path)
  | none =>
    let tables := (staged.map Staged.table).insertionSort fun t u => t.openedMinKey ≤ u.openedMinKey
    if selfOverlaps tables then .error .selfOverlap else .ok (e.install tables)

/-- `Ingest`, for files that can be opened and moved; `none` where it has to wait. -/
def ingest (fails : Bool) (e : Engine) (staged : List Staged) : Option (Except IngestError Engine) :=
  if staged.isEmpty then some (.ok e)
  else (e.submitFlush cfg fails).map fun e => e.ingestTables staged

variable {cfg} {fails : Nat → Bool} {e e' : Engine}

/-! ## Levels whose tables share no keys -/

structure LevelsApart (levels : LevelTables) : Prop where
  sorted : ∀ t ∈ allTables levels, VersionSorted t.entries
  apart : ∀ l, 1 ≤ l → l < maxLevels → (levels l).Pairwise KeysApart

theorem levelsApart_nil : LevelsApart fun _ => [] :=
  ⟨fun t ht => by simp [mem_allTables] at ht, fun _ _ _ => List.Pairwise.nil⟩

variable {levels : LevelTables} {ts tables : List Table}

theorem LevelsApart.flush (h : LevelsApart levels) {t : Table} (ht : VersionSorted t.entries) :
    LevelsApart (setLevel levels 0 (levels 0 ++ [t])) := by
  refine ⟨?_, ?_⟩
  · intro u hu
    rcases mem_allTables_flush.mp hu with hu | rfl
    · exact h.sorted u hu
    · exact ht
  · intro l h1 hl
    rw [setLevel_other (by omega : l ≠ 0)]
    exact h.apart l h1 hl

theorem LevelsApart.executeFlush (h : LevelsApart e.levels) (hf : e.executeFlush cfg = some e') :
    LevelsApart e'.levels := by
  obtain ⟨m, seq, _, ⟨rfl, _⟩ | ⟨t, hwf, _, _, rfl⟩⟩ := executeFlush_spec hf
  · exact h
  · exact h.flush hwf.sorted

theorem LevelsApart.executeFlushFailing (h : LevelsApart e.levels) {fails : Bool}
    (hf : e.executeFlushFailing cfg fails = some e') : LevelsApart e'.levels := by
  unfold Engine.executeFlushFailing at hf
  split at hf
  · obtain ⟨_, _, rfl⟩ := Option.map_eq_some_iff.mp hf
    exact h
  · exact h.executeFlush hf

theorem rotate_levels (hr : e.rotate = some e') : e'.levels = e.levels := by
  unfold rotate at hr
  split at hr <;> cases hr
  rfl

theorem LevelsApart.forceFlush (h : LevelsApart e.levels) {fails : Bool}
    (hf : e.forceFlush cfg fails = some e') : LevelsApart e'.levels := by
  unfold Engine.forceFlush at hf
  split at hf
  · cases hf
  · split at hf
    · cases hf
      exact h
    · obtain ⟨e₁, hr, hf⟩ := Option.bind_eq_some_iff.mp hf
      exact LevelsApart.executeFlushFailing (rotate_levels hr ▸ h) hf

theorem restLevels_sublist (e : Engine) (source target : Nat) (picked : List Table) (l : Nat) :
    (e.restLevels source target picked l).Sublist (e.levels l) := by
  unfold restLevels
  by_cases hl : l = source
  · subst hl
    rw [setLevel_same]
    exact List.filter_sublist
  · rw [setLevel_other hl]
    by_cases hlt : l = target
    · subst hlt
      rw [setLevel_same]
      exact List.filter_sublist
    · rw [setLevel_other hlt]

section Move

variable {source target : Nat} {picked : List Table} {t : Table}

theorem restLevels_target (hne : source ≠ target)
    (ht : t ∈ e.restLevels source target picked target) :
    t ∈ e.levels target ∧ t ∉ overlapping e.levels target picked := by
  rw [restLevels, setLevel_other hne.symm, setLevel_same] at ht
  simpa using ht

theorem mergeInputs_sorted (h : LevelsApart e.levels) (hlt : source < target) (ht : target < maxLevels)
    (hp : ∀ p ∈ picked, p ∈ e.levels source) :
    ∀ l ∈ e.mergeInputs target picked, VersionSorted l := by
  intro l hl
  obtain ⟨u, hu, rfl⟩ := List.mem_map.mp hl
  cases List.mem_append.mp hu with
  | inl hu => exact h.sorted u (mem_allTables.mpr ⟨target, ht, List.mem_of_mem_filter hu⟩)
  | inr hu => exact h.sorted u (mem_allTables.mpr ⟨source, hlt.trans ht, hp u hu⟩)

theorem mem_writtenFailing (hs : ∀ l ∈ e.mergeInputs target picked, VersionSorted l)
    (h : t ∈ (e.writtenFailing cfg fails target picked).1) :
    ∃ i c, (e.buffers target picked)[i]? = some c ∧ VersionSorted t.entries ∧
      t.entries = c.map Entry.stored ∧ t.seq = e.nextSeq + i + 1 := by
  rw [writtenFailing, drainBy_eq] at h
  obtain ⟨i, c, hi, hc⟩ := mem_buildBy.mp h
  obtain ⟨hsorted, hne⟩ := (e.buffers_spec hs).2.1 c (List.mem_of_getElem? hi)
  rw [createTable] at hc
  split at hc
  · cases hc
  · obtain ⟨hwf, hent, hseq, _⟩ := Table.createAtLevel_wf hsorted hne hc
    exact ⟨i, c, hi, hwf.sorted, hent, hseq⟩

theorem writtenFailing_key (hs : ∀ l ∈ e.mergeInputs target picked, VersionSorted l)
    (h : t ∈ (e.writtenFailing cfg fails target picked).1) {y : Entry} (hy : y ∈ t.entries) :
    ∃ u ∈ overlapping e.levels target picked ++ picked, ∃ x ∈ u.entries, x.key = y.key := by
  obtain ⟨i, c, hi, _, hent, _⟩ := mem_writtenFailing hs h
  rw [hent] at hy
  obtain ⟨z, hz, rfl⟩ := List.mem_map.mp hy
  have hchosen : z ∈ e.chosen target picked := by
    rw [← (e.buffers_spec hs).1]
    exact List.mem_flatten.mpr ⟨c, List.mem_of_getElem? hi, hz⟩
  obtain ⟨kept, hk, hz⟩ := List.mem_flatten.mp hchosen
  obtain ⟨x, hx, rfl⟩ := keptGroups_sound hk hz
  obtain ⟨l, hl, hx⟩ := List.mem_flatten.mp hx
  obtain ⟨u, hu, rfl⟩ := List.mem_map.mp hl
  exact ⟨u, hu, x, hx, by simp⟩

theorem buildBy_pairwise {create : Nat → List Entry → Option Table} {R : Table → Table → Prop}
    {cs : List (List Entry)} (hcs : cs.Pairwise fun c d => ∀ m n t u, create m c = some t →
      create n d = some u → R t u) : ∀ seq, (buildBy create seq cs).Pairwise R := by
  induction cs with
  | nil => exact fun _ => List.Pairwise.nil
  | cons c cs ih =>
    intro seq
    obtain ⟨hc, hrest⟩ := List.pairwise_cons.mp hcs
    rw [buildBy]
    refine List.pairwise_append.mpr ⟨?_, ih hrest _, ?_⟩
    · cases create (seq + 1) c with
      | none => exact List.Pairwise.nil
      | some t => exact List.pairwise_singleton _ _
    · intro t ht u hu
      obtain ⟨i, d, hi, hd⟩ := mem_buildBy.mp hu
      exact hc d (List.mem_of_getElem? hi) _ _ t u (Option.mem_toList.mp ht) hd

theorem writtenFailing_apart (hs : ∀ l ∈ e.mergeInputs target picked, VersionSorted l) :
    (e.writtenFailing cfg fails target picked).1.Pairwise KeysApart := by
  obtain ⟨_, hsorted, hapart⟩ := e.buffers_spec hs
  have hmade : ∀ c ∈ e.buffers target picked, ∀ n t, createTable cfg fails e.now target n c = some t →
      t.entries = c.map Entry.stored := by
    intro c hc n t ht
    rw [createTable] at ht
    split at ht
    · cases ht
    · exact (Table.createAtLevel_wf (hsorted c hc).1 (hsorted c hc).2 ht).2.1
  rw [writtenFailing, drainBy_eq]
  refine buildBy_pairwise (hapart.imp_of_mem ?_) _
  intro c d hc hd hcd m n t u ht hu x hx y hy
  rw [hmade c hc m t ht] at hx
  rw [hmade d hd n u hu] at hy
  obtain ⟨x', hx', rfl⟩ := List.mem_map.mp hx
  obtain ⟨y', hy', rfl⟩ := List.mem_map.mp hy
  simpa using (hcd x' hx' y' hy').ne

theorem LevelsApart.move (h : LevelsApart e.levels) (hlt : source < target) (ht : target < maxLevels)
    (hp : ∀ p ∈ picked, p ∈ e.levels source) :
    LevelsApart (e.moveTablesFailing cfg fails source target picked).levels := by
  have hs := mergeInputs_sorted h hlt ht hp
  have hsorted : ∀ l, l < maxLevels → ∀ u ∈ e.levels l, VersionSorted u.entries := fun l hl u hu =>
    h.sorted u (mem_allTables.mpr ⟨l, hl, hu⟩)
  refine ⟨?_, ?_⟩
  · intro t hmem
    rcases (mem_moveTablesFailing hlt.ne ht).mp hmem with hrest | hnew
    · obtain ⟨l, hl, hrest⟩ := mem_allTables.mp hrest
      exact hsorted l hl t ((restLevels_sublist e source target picked l).subset hrest)
    · obtain ⟨_, _, _, hsort, _⟩ := mem_writtenFailing hs hnew
      exact hsort
  · intro l h1 hl
    have hrest := (h.apart l h1 hl).sublist (restLevels_sublist e source target picked l)
    refine ((e.moveTablesFailing_perm picked hlt.ne l).pairwise_iff KeysApart.symm).mpr ?_
    split
    · rename_i heq
      subst heq
      refine List.pairwise_append.mpr ⟨hrest, writtenFailing_apart hs, ?_⟩
      intro t hstay u hnew x hx y hy hk
      obtain ⟨htl, hnot⟩ := restLevels_target hlt.ne hstay
      obtain ⟨v, hv, z, hz, hzy⟩ := writtenFailing_key hs hnew hy
      rcases List.mem_append.mp hv with hv | hv
      · have hne : t ≠ v := by
          rintro rfl
          exact hnot hv
        exact (h.apart l h1 hl).forall htl (List.mem_of_mem_filter hv) hne x hx z hz (hk.trans hzy.symm)
      · refine hnot (List.mem_filter.mpr ⟨htl, List.any_eq_true.mpr ⟨v, hv, ?_⟩⟩)
        exact rangesOverlap_of_key (hsorted source (hlt.trans ht) v (hp v hv)) (hsorted l hl t htl) hz hx
          (hzy.trans hk.symm)
    · rw [List.append_nil]
      exact hrest

end Move

theorem mem_renumber {level : Nat} {u : Table} {seq : Nat} (h : u ∈ renumber level seq ts) :
    ∃ t ∈ ts, ∃ n, u = { t with seq := n, level } := by
  induction ts generalizing seq with
  | nil => cases h
  | cons t ts ih =>
    rcases List.mem_cons.mp h with rfl | h
    · exact ⟨t, List.mem_cons_self, _, rfl⟩
    · obtain ⟨t', ht', hu⟩ := ih h
      exact ⟨t', List.mem_cons_of_mem _ ht', hu⟩

theorem renumber_apart {level : Nat} (h : ts.Pairwise KeysApart) :
    ∀ seq, (renumber level seq ts).Pairwise KeysApart := by
  induction h with
  | nil => exact fun _ => List.Pairwise.nil
  | cons hhead _ ih =>
    intro seq
    refine List.pairwise_cons.mpr ⟨fun u hu => ?_, ih _⟩
    obtain ⟨t, ht, _, rfl⟩ := mem_renumber hu
    exact hhead t ht

theorem openedOverlap_eq {t u : Table} (ht : t.NoEmptyKey) : openedOverlap t u u.minKey = rangesOverlap t u := by
  rw [openedOverlap, Table.openedMinKey_eq ht, rangesOverlap]

theorem apart_of_not_selfOverlaps (hs : ∀ t ∈ ts, VersionSorted t.entries) (hne : ∀ t ∈ ts, t.NoEmptyKey)
    (hmin : ts.Pairwise fun t u => t.openedMinKey ≤ u.openedMinKey) (h : selfOverlaps ts = false) :
    ts.Pairwise fun t u => t.maxKey < u.minKey := by
  induction ts with
  | nil => exact List.Pairwise.nil
  | cons t ts ih =>
    cases ts with
    | nil => exact List.pairwise_singleton _ _
    | cons u rest =>
      obtain ⟨hhere, hrest⟩ := Bool.or_eq_false_iff.mp h
      obtain ⟨hle, hmin⟩ := List.pairwise_cons.mp hmin
      have htail := ih (fun v hv => hs v (List.mem_cons_of_mem _ hv)) (fun v hv => hne v (List.mem_cons_of_mem _ hv))
        hmin hrest
      have hu := Table.minKey_le_maxKey (hs u (by simp))
      have hlt : t.maxKey < u.minKey := by
        have htu := hle u List.mem_cons_self
        rw [Table.openedMinKey_eq (hne u (by simp))] at hhere htu
        rw [openedOverlap_eq (hne t (by simp))] at hhere
        rw [Table.openedMinKey_eq (hne t (by simp))] at htu
        simp only [rangesOverlap, Bool.and_eq_false_iff, decide_eq_false_iff_not, not_le] at hhere
        exact hhere.resolve_left (not_lt_of_ge (le_trans htu hu))
      refine List.pairwise_cons.mpr ⟨fun v hv => ?_, htail⟩
      rcases List.mem_cons.mp hv with rfl | hv
      · exact hlt
      · exact lt_trans hlt (lt_of_le_of_lt hu ((List.pairwise_cons.mp htail).1 v hv))

theorem not_overlap_of_level {lvl : Nat} (h : levelOverlapsAny levels lvl tables = false)
    {t v : Table} (ht : t ∈ levels lvl) (hv : v ∈ tables) (hne : v.NoEmptyKey) : rangesOverlap v t = false := by
  have hnone := List.any_eq_false.mp h t ht
  rw [← openedOverlap_eq hne]
  simpa using fun hyes => hnone (List.any_eq_true.mpr ⟨v, hv, hyes⟩)

theorem targetLevel_not_overlaps (h : 0 < targetLevel levels tables) :
    levelOverlapsAny levels (targetLevel levels tables) tables = false := by
  unfold targetLevel at h ⊢
  dsimp only at h ⊢
  split
  · rename_i hover
    rw [if_pos hover] at h
    exact absurd h (Nat.lt_irrefl 0)
  · rename_i hover
    rw [if_neg hover] at h
    exact Bool.not_eq_true _ ▸ fun hyes => hover ⟨h, hyes⟩

theorem install_perm (e : Engine) (tables : List Table) :
    ((e.install tables).levels (targetLevel e.levels tables)).Perm
      (e.levels (targetLevel e.levels tables) ++ renumber (targetLevel e.levels tables) e.nextSeq tables) := by
  simp only [install, setLevel_same]
  split
  · exact List.perm_insertionSort _ _
  · exact List.Perm.refl _

theorem install_other {l : Nat} (hl : l ≠ targetLevel e.levels tables) :
    (e.install tables).levels l = e.levels l := setLevel_other hl

theorem mem_install {l : Nat} {u : Table} :
    u ∈ (e.install tables).levels l ↔ u ∈ e.levels l ∨
      l = targetLevel e.levels tables ∧ u ∈ renumber (targetLevel e.levels tables) e.nextSeq tables := by
  by_cases hl : l = targetLevel e.levels tables
  · rw [hl, (install_perm e tables).mem_iff, List.mem_append]
    simp
  · rw [install_other hl]
    simp [hl]

theorem LevelsApart.install (h : LevelsApart e.levels) (hs : ∀ t ∈ tables, VersionSorted t.entries)
    (hne : ∀ t ∈ tables, t.NoEmptyKey) (hap : tables.Pairwise KeysApart) : LevelsApart (e.install tables).levels := by
  refine ⟨?_, ?_⟩
  · intro u hu
    obtain ⟨l, hl, hu⟩ := mem_allTables.mp hu
    rcases mem_install.mp hu with hu | ⟨_, hu⟩
    · exact h.sorted u (mem_allTables.mpr ⟨l, hl, hu⟩)
    · obtain ⟨t, ht, _, rfl⟩ := mem_renumber hu
      exact hs t ht
  · intro l h1 hl
    by_cases heq : l = targetLevel e.levels tables
    · have hnot : levelOverlapsAny e.levels l tables = false := by
        rw [heq]
        exact targetLevel_not_overlaps (heq ▸ h1)
      rw [heq, (install_perm e tables).pairwise_iff KeysApart.symm, ← heq]
      refine List.pairwise_append.mpr ⟨h.apart l h1 hl, renumber_apart hap _, ?_⟩
      intro t ht u hu
      obtain ⟨v, hv, _, rfl⟩ := mem_renumber hu
      have hno := not_overlap_of_level hnot ht hv (hne v hv)
      exact (Table.keysApart_of_not_overlap (hs v hv) (h.sorted t (mem_allTables.mpr ⟨l, hl, ht⟩)) hno).symm
    · rw [install_other heq]
      exact h.apart l h1 hl

theorem ingestTables_ok {staged : List Staged} (hne : ∀ s ∈ staged, s.table.NoEmptyKey)
    (hi : e.ingestTables staged = .ok e') :
    ∃ tables : List Table, tables.Perm (staged.map Staged.table) ∧
      (∀ t ∈ tables, VersionSorted t.entries ∧ t.NoEmptyKey) ∧ tables.Pairwise KeysApart ∧ e' = e.install tables := by
  unfold Engine.ingestTables at hi
  split at hi
  · cases hi
  · dsimp only at hi
    split at hi
    · cases hi
    · rename_i hself
      cases hi
      have hperm := List.perm_insertionSort (fun t u : Table => t.openedMinKey ≤ u.openedMinKey)
        (staged.map Staged.table)
      have hfrom : ∀ t ∈ (staged.map Staged.table).insertionSort fun t u => t.openedMinKey ≤ u.openedMinKey,
          VersionSorted t.entries ∧ t.NoEmptyKey := by
        intro t ht
        obtain ⟨s, hs, rfl⟩ := List.mem_map.mp (hperm.mem_iff.mp ht)
        exact ⟨s.sorted, hne s hs⟩
      have : Std.Total fun t u : Table => t.openedMinKey ≤ u.openedMinKey := ⟨fun _ _ => le_total _ _⟩
      have : IsTrans Table fun t u => t.openedMinKey ≤ u.openedMinKey := ⟨fun _ _ _ => le_trans⟩
      have hlt := apart_of_not_selfOverlaps (fun t ht => (hfrom t ht).1) (fun t ht => (hfrom t ht).2)
        (List.pairwise_insertionSort _ _) (by simpa using hself)
      exact ⟨_, hperm, hfrom, hlt.imp_of_mem fun ht hu => Table.keysApart_of_lt (hfrom _ ht).1 (hfrom _ hu).1, rfl⟩

theorem LevelsApart.ingestTables (h : LevelsApart e.levels) {staged : List Staged}
    (hne : ∀ s ∈ staged, s.table.NoEmptyKey) (hi : e.ingestTables staged = .ok e') : LevelsApart e'.levels := by
  obtain ⟨tables, _, hs, hap, rfl⟩ := ingestTables_ok hne hi
  exact h.install (fun t ht => (hs t ht).1) (fun t ht => (hs t ht).2) hap

inductive Call where
  | write (entries : List Entry)
  | rotate
  | flush (fails : Bool)
  | compact (fails : Nat → Bool)
  | ingest (fails : Bool) (staged : List Staged)
  | advance (oracle : Oracle) (now : Int) (gcDiscardTs : Nat)

/-- No file that is ingested has the empty key. -/
def Call.Keyed : Call → Prop
  | .ingest _ staged => ∀ s ∈ staged, s.table.NoEmptyKey
  | _ => True

variable (cfg) in
def call (e : Engine) : Call → Option Engine
  | .write entries => some { e with mem := entries.foldl SkipList.insertNode e.mem }
  | .rotate => e.rotate
  | .flush fails => e.executeFlushFailing cfg fails
  | .compact fails => some (e.compactFailing cfg fails)
  | .ingest fails staged => (e.ingest cfg fails staged).bind Except.toOption
  | .advance oracle now gcDiscardTs => some { e with oracle, now, gcDiscardTs }

theorem LevelsApart.call {a : Call} (h : LevelsApart e.levels) (ha : a.Keyed) (hc : e.call cfg a = some e') :
    LevelsApart e'.levels := by
  cases a with
  | write entries =>
    cases hc
    exact h
  | rotate => exact rotate_levels hc ▸ h
  | flush fails => exact h.executeFlushFailing hc
  | compact fails =>
    cases hc
    rcases compactFailing_moves cfg fails e with heq | ⟨source, target, picked, hlt, ht, hp, heq⟩
    · rw [heq]
      exact h
    · rw [heq]
      exact h.move hlt ht hp
  | ingest fails staged =>
    obtain ⟨r, hi, hr⟩ := Option.bind_eq_some_iff.mp hc
    unfold Engine.ingest at hi
    split at hi
    · cases hi
      cases hr
      exact h
    · obtain ⟨e₁, hf, rfl⟩ := Option.map_eq_some_iff.mp hi
      cases hok : e₁.ingestTables staged with
      | error err =>
        rw [hok] at hr
        cases hr
      | ok e₂ =>
        rw [hok] at hr
        cases hr
        exact (LevelsApart.forceFlush (e := e.dispatch fun _ => none) h hf).ingestTables ha hok
  | advance oracle now gcDiscardTs =>
    cases hc
    exact h

theorem levelsApart_run {as : List Call} (h : LevelsApart e.levels) (ha : ∀ a ∈ as, a.Keyed)
    (hr : run (call cfg) e as = some e') :
    LevelsApart e'.levels := by
  refine @run_invariant _ _ _ (fun e : Engine => LevelsApart e.levels) (fun _ a => a.Keyed) ?_ _ _ _ h
    (guarded_of_forall (fun _ => ha) _) hr
  intro e a e' h ha hc
  exact h.call ha hc

def eager : Config := { Config.plain with compactionThreshold := 1 }

def flushed (key : Bytes) (version : Nat) : List Call :=
  [.write [⟨key, [0, 1], false, 0, version⟩], .rotate, .flush false]

def builtElsewhere : Staged where
  path := "bulk.sst"
  table := ⟨0, 0, [[⟨[122, 122], [0, 2], false, 0, 9⟩]], Filter.newFilter (fun _ => 0) [[122, 122]], 0⟩
  sorted := by decide +kernel

def aroundM : List Call :=
  flushed [109] 2 ++ [.compact fun _ => false] ++ flushed [97] 3 ++ flushed [122] 4 ++
    [.compact fun _ => false, .ingest false [builtElsewhere]]

def withEmptyKey (key : UInt8) : Table :=
  ⟨0, 0, [[⟨[], [0, 1], false, 0, 2⟩, ⟨[key], [0, 2], false, 0, 3⟩]], Filter.newFilter (fun _ => 0) [[], [key]], 0⟩

/-- The files are opened as ranges from `a` to `a` and from `m` to `m`. -/
def emptyKeys : List Call :=
  [.ingest false [⟨"a.sst", withEmptyKey 97, by decide +kernel⟩],
    .ingest false [⟨"m.sst", withEmptyKey 109, by decide +kernel⟩]]

end Engine
end AkwaDB
