import AkwaDB.Engine.Compact
import AkwaDB.Engine.Flush

/-!
# AkwaDB.Engine.Failure

Compactions whose output tables cannot all be created.

`sstLevelWriter.flush` logs the error and goes on, and `compactLevel0` and `compactLevelTable` retire
their inputs whatever came of the outputs. A table is not created when its file cannot be written, or
when one of its blocks starts with a key too long for the index.

`compaction_keeps_iff`: what was chosen to be kept stays readable exactly if tables that were not
compacted have all of each buffer that failed.
-/

namespace AkwaDB

/-- `CreateAtLevelWithRegistry`; `fails` has the numbers of tables that cannot be written. -/
def createTable (cfg : Config) (fails : Nat → Bool) (now : Int) (level seq : Nat) (es : List Entry) :
    Option Table :=
  if fails seq then none else Table.createAtLevel cfg.xxhash now seq level es

def Readable (tables : List Table) (x : Entry) : Prop :=
  ∃ t ∈ tables, ∃ y ∈ t.seek x.key, y.key = x.key ∧ y.version = x.version

theorem BlocksApart.index_eq {bs : List (List Entry)} (h : BlocksApart bs) {i j : Nat}
    {c d : List Entry} (hi : bs[i]? = some c) (hj : bs[j]? = some d) {x y : Entry} (hx : x ∈ c)
    (hy : y ∈ d) (hkey : x.key = y.key) : i = j := by
  obtain ⟨hil, rfl⟩ := List.getElem?_eq_some_iff.mp hi
  obtain ⟨hjl, rfl⟩ := List.getElem?_eq_some_iff.mp hj
  have hlt := List.pairwise_iff_getElem.mp h
  rcases Nat.lt_trichotomy i j with hij | hij | hij
  · exact absurd hkey (hlt i j hil hjl hij x hx y hy).ne
  · exact hij
  · exact absurd hkey (hlt j i hjl hil hij y hy x hx).ne'

namespace Engine

variable (cfg : Config) (fails : Nat → Bool)

def mergeInputs (e : Engine) (target : Nat) (picked : List Table) : List (List Entry) :=
  (overlapping e.levels target picked ++ picked).map Table.entries

def writtenFailing (e : Engine) (target : Nat) (picked : List Table) : List Table × Nat :=
  drainBy (createTable cfg fails e.now target) e.drainEnv e.levels target e.nextSeq
    (e.mergeInputs target picked)

def moveTablesFailing (e : Engine) (source target : Nat) (picked : List Table) : Engine :=
  let overlaps := overlapping e.levels target picked
  let (newTables, nextSeq) := e.writtenFailing cfg fails target picked
  let remaining := (e.levels target).filter fun t => decide (t ∉ overlaps)
  let sorted := (remaining ++ newTables).insertionSort fun t u => t.minKey ≤ u.minKey
  let levels := setLevel e.levels target sorted
  { e with levels := setLevel levels source ((levels source).filter fun t => decide (t ∉ picked)), nextSeq }

def compactLevel0Failing (e : Engine) : Engine :=
  if e.levels 0 = [] then e
  else e.moveTablesFailing cfg fails 0 (findBaseLevel cfg e.levels) (e.levels 0)

def compactLevelTableFailing (e : Engine) (fromLevel : Nat) (pick : Table) : Engine :=
  if maxLevels - 1 ≤ fromLevel then e else e.moveTablesFailing cfg fails fromLevel (fromLevel + 1) [pick]

def compactFailing (e : Engine) : Engine :=
  match compactPlan cfg e.levels with
  | .nothing => e
  | .level0 => e.compactLevel0Failing cfg fails
  | .table lvl pick => e.compactLevelTableFailing cfg fails lvl pick

def chosen (e : Engine) (target : Nat) (picked : List Table) : List Entry :=
  (keptGroups e.drainEnv e.levels target (e.mergeInputs target picked)).flatten

def buffers (e : Engine) (target : Nat) (picked : List Table) : List (List Entry) :=
  drainChunks e.drainEnv e.levels target (e.mergeInputs target picked)

def restLevels (e : Engine) (source target : Nat) (picked : List Table) : LevelTables :=
  setLevel (setLevel e.levels target
    ((e.levels target).filter fun t => decide (t ∉ overlapping e.levels target picked)))
    source ((e.levels source).filter fun t => decide (t ∉ picked))

def KeepsChosen (e e' : Engine) (target : Nat) (picked : List Table) : Prop :=
  ∀ x ∈ e.chosen target picked, Readable (allTables e'.levels) x

/-- Untouched tables have all of each buffer that failed. -/
def Covered (e : Engine) (source target : Nat) (picked : List Table) : Prop :=
  ∀ i c, (e.buffers target picked)[i]? = some c →
    createTable cfg fails e.now target (e.nextSeq + i + 1) c = none →
    ∀ x ∈ c, Readable (allTables (e.restLevels source target picked)) x

variable {cfg fails}

/-! ## The tables afterwards -/

def replaced (e : Engine) (source target : Nat) (picked newTables : List Table) (nextSeq : Nat) : Engine :=
  let overlaps := overlapping e.levels target picked
  let remaining := (e.levels target).filter fun t => decide (t ∉ overlaps)
  let sorted := (remaining ++ newTables).insertionSort fun t u => t.minKey ≤ u.minKey
  let levels := setLevel e.levels target sorted
  { e with levels := setLevel levels source ((levels source).filter fun t => decide (t ∉ picked)), nextSeq }

section Replaced

variable {e : Engine} {source target : Nat} {picked newTables : List Table} {nextSeq : Nat}

theorem replaced_perm (hne : source ≠ target) (l : Nat) :
    ((e.replaced source target picked newTables nextSeq).levels l).Perm
      (e.restLevels source target picked l ++ if l = target then newTables else []) := by
  simp only [replaced, restLevels, setLevel_other hne]
  by_cases hl : l = source
  · subst hl
    simp [hne]
  · rw [setLevel_other hl, setLevel_other hl]
    by_cases hlt : l = target
    · subst hlt
      rw [setLevel_same, setLevel_same, if_pos rfl]
      exact List.perm_insertionSort _ _
    · rw [setLevel_other hlt, setLevel_other hlt, if_neg hlt, List.append_nil]

theorem mem_replaced (hne : source ≠ target) (ht : target < maxLevels) {t : Table} :
    t ∈ allTables (e.replaced source target picked newTables nextSeq).levels ↔
      t ∈ allTables (e.restLevels source target picked) ∨ t ∈ newTables := by
  have hlevel : ∀ l, t ∈ (e.replaced source target picked newTables nextSeq).levels l ↔
      t ∈ e.restLevels source target picked l ∨ l = target ∧ t ∈ newTables := by
    intro l
    rw [(replaced_perm hne l).mem_iff, List.mem_append]
    split <;> simp [*]
  simp only [mem_allTables, hlevel]
  constructor
  · rintro ⟨l, hl, h | ⟨_, h⟩⟩
    · exact Or.inl ⟨l, hl, h⟩
    · exact Or.inr h
  · rintro (⟨l, hl, h⟩ | h)
    · exact ⟨l, hl, Or.inl h⟩
    · exact ⟨target, ht, Or.inr ⟨rfl, h⟩⟩

end Replaced

theorem moveTablesFailing_perm (e : Engine) {source target : Nat} (picked : List Table)
    (hne : source ≠ target) (l : Nat) :
    ((e.moveTablesFailing cfg fails source target picked).levels l).Perm
      (e.restLevels source target picked l ++
        if l = target then (e.writtenFailing cfg fails target picked).1 else []) :=
  @replaced_perm e source target picked _ (e.writtenFailing cfg fails target picked).2 hne l

theorem mem_moveTablesFailing {e : Engine} {source target : Nat} {picked : List Table}
    (hne : source ≠ target) (ht : target < maxLevels) {t : Table} :
    t ∈ allTables (e.moveTablesFailing cfg fails source target picked).levels ↔
      t ∈ allTables (e.restLevels source target picked) ∨
        t ∈ (e.writtenFailing cfg fails target picked).1 :=
  @mem_replaced e source target picked _ (e.writtenFailing cfg fails target picked).2 hne ht t

theorem readable_or {s t u : List Table} {x : Entry} (h : ∀ v, v ∈ u ↔ v ∈ s ∨ v ∈ t) :
    Readable u x ↔ Readable s x ∨ Readable t x := by
  simp only [Readable, h, or_and_right, exists_or]

theorem seek_created {level seq : Nat} {now : Int} {es : List Entry} {t : Table}
    (hs : VersionSorted es) (hne : es ≠ [])
    (h : createTable cfg fails now level seq es = some t) {k : Bytes} {y : Entry} :
    y ∈ t.seek k ↔ y ∈ es.map Entry.stored ∧ k ≤ y.key := by
  rw [createTable] at h
  split at h
  · cases h
  · obtain ⟨hwf, hent, _⟩ := Table.createAtLevel_wf hs hne h
    rw [Table.seek_eq hwf, mem_dropWhile_keys (table_keys hwf), hent]

theorem buffers_spec (e : Engine) {target : Nat} {picked : List Table}
    (hs : ∀ l ∈ e.mergeInputs target picked, VersionSorted l) :
    (e.buffers target picked).flatten = e.chosen target picked ∧
      (∀ c ∈ e.buffers target picked, VersionSorted c ∧ c ≠ []) ∧
      BlocksApart (e.buffers target picked) := by
  obtain ⟨chunks, hc, hne, heq⟩ :=
    drainChunks_groups e.drainEnv e.levels target (e.mergeInputs target picked)
  rw [buffers, heq]
  refine ⟨?_, ?_, chunks_apart hs hc⟩
  · rw [chosen, ← hc, List.flatten_flatten]
  · intro c hcm
    obtain ⟨d, hd, rfl⟩ := List.mem_map.mp hcm
    exact ⟨chunk_sorted hs hc hd, hne d hd⟩

theorem moveTablesFailing_keeps_iff {e : Engine} (hwf : ∀ t ∈ allTables e.levels, t.WF cfg.xxhash)
    {source target : Nat} {picked : List Table} (hlt : source < target) (ht : target < maxLevels)
    (hp : ∀ p ∈ picked, p ∈ e.levels source) :
    KeepsChosen e (e.moveTablesFailing cfg fails source target picked) target picked ↔
      Covered cfg fails e source target picked := by
  have hs : ∀ l ∈ e.mergeInputs target picked, VersionSorted l := by
    intro l hl
    obtain ⟨u, hu, rfl⟩ := List.mem_map.mp hl
    cases List.mem_append.mp hu with
    | inl hu => exact (hwf u (mem_allTables.mpr ⟨target, ht, List.mem_of_mem_filter hu⟩)).sorted
    | inr hu => exact (hwf u (mem_allTables.mpr ⟨source, hlt.trans ht, hp u hu⟩)).sorted
  obtain ⟨hflat, hsorted, hapart⟩ := e.buffers_spec hs
  have hafter : ∀ x, Readable (allTables (e.moveTablesFailing cfg fails source target picked).levels) x ↔
      Readable (allTables (e.restLevels source target picked)) x ∨
        Readable (e.writtenFailing cfg fails target picked).1 x :=
    fun x => readable_or fun v => mem_moveTablesFailing hlt.ne ht
  have hwritten : ∀ t, t ∈ (e.writtenFailing cfg fails target picked).1 ↔ ∃ i c,
      (e.buffers target picked)[i]? = some c ∧
        createTable cfg fails e.now target (e.nextSeq + i + 1) c = some t := by
    intro t
    rw [writtenFailing, drainBy_eq]
    exact mem_buildBy
  constructor
  · intro hkeep i c hi hfail x hx
    have hmem := List.mem_of_getElem? hi
    have hread := hkeep x (by rw [← hflat]; exact List.mem_flatten.mpr ⟨c, hmem, hx⟩)
    refine ((hafter x).mp hread).resolve_right ?_
    rintro ⟨t, htw, y, hy, hkey, _⟩
    obtain ⟨j, d, hj, hd⟩ := (hwritten t).mp htw
    have hdm := List.mem_of_getElem? hj
    obtain ⟨z, hz, rfl⟩ := List.mem_map.mp
      ((seek_created (hsorted d hdm).1 (hsorted d hdm).2 hd).mp hy).1
    -- the key is in one buffer only, and that one failed
    have hij : i = j := hapart.index_eq hi hj hx hz (by rw [← hkey, Entry.stored_key])
    subst hij
    rw [hi] at hj
    cases hj
    rw [hfail] at hd
    cases hd
  · intro hcov x hx
    rw [hafter]
    rw [← hflat] at hx
    obtain ⟨c, hc, hxc⟩ := List.mem_flatten.mp hx
    obtain ⟨i, hi⟩ := List.getElem?_of_mem hc
    cases hmade : createTable cfg fails e.now target (e.nextSeq + i + 1) c with
    | none => exact Or.inl (hcov i c hi hmade x hxc)
    | some t =>
      refine Or.inr ⟨t, (hwritten t).mpr ⟨i, c, hi, hmade⟩, x.stored, ?_, x.stored_key,
        x.stored_version⟩
      rw [seek_created (hsorted c hc).1 (hsorted c hc).2 hmade]
      exact ⟨List.mem_map_of_mem hxc, by simp⟩

theorem chosen_nil (e : Engine) (target : Nat) : e.chosen target [] = [] ∧ e.buffers target [] = [] := by
  have hin : e.mergeInputs target [] = [] := by simp [mergeInputs, overlapping]
  rw [chosen, buffers, hin]
  exact ⟨rfl, rfl⟩

theorem compactFailing_moves (cfg : Config) (fails : Nat → Bool) (e : Engine) :
    e.compactFailing cfg fails = e ∨ ∃ source target picked, source < target ∧ target < maxLevels ∧
      (∀ p ∈ picked, p ∈ e.levels source) ∧
      e.compactFailing cfg fails = e.moveTablesFailing cfg fails source target picked := by
  unfold compactFailing
  cases hp : compactPlan cfg e.levels with
  | nothing => exact Or.inl rfl
  | level0 =>
    dsimp only
    rw [compactLevel0Failing]
    split
    · exact Or.inl rfl
    · obtain ⟨hlow, hhigh⟩ := @findBaseLevel_bounds cfg e.levels
      exact Or.inr ⟨0, _, e.levels 0, hlow, hhigh, fun p hp => hp, rfl⟩
  | table lvl pick =>
    obtain ⟨_, hlt, hmem⟩ := compactPlan_table hp
    dsimp only
    rw [compactLevelTableFailing, if_neg (by omega)]
    exact Or.inr ⟨lvl, lvl + 1, [pick], Nat.lt_succ_self lvl, by omega, by simpa using hmem, rfl⟩

/-- **What is readable after a compaction with failures.** -/
theorem compaction_keeps_iff (cfg : Config) (fails : Nat → Bool) {e : Engine}
    (hwf : ∀ t ∈ allTables e.levels, t.WF cfg.xxhash) :
    (KeepsChosen e (e.compactLevel0Failing cfg fails) (findBaseLevel cfg e.levels) (e.levels 0) ↔
      Covered cfg fails e 0 (findBaseLevel cfg e.levels) (e.levels 0)) ∧
    ∀ fromLevel pick, fromLevel + 1 < maxLevels → pick ∈ e.levels fromLevel →
      (KeepsChosen e (e.compactLevelTableFailing cfg fails fromLevel pick) (fromLevel + 1) [pick] ↔
        Covered cfg fails e fromLevel (fromLevel + 1) [pick]) := by
  constructor
  · rw [compactLevel0Failing]
    split
    · rename_i hempty
      simp [KeepsChosen, Covered, hempty, chosen_nil]
    · obtain ⟨hlow, hhigh⟩ := @findBaseLevel_bounds cfg e.levels
      exact moveTablesFailing_keeps_iff hwf hlow hhigh fun p hp => hp
  · intro fromLevel pick hlt hpick
    rw [compactLevelTableFailing, if_neg (by omega)]
    exact moveTablesFailing_keeps_iff hwf (Nat.lt_succ_self _) hlt (by simpa using hpick)

def oneTable : Engine := (onePut.flush Config.plain false).getD onePut

def twoTables : List Table :=
  [⟨1, 0, [[⟨[97], [0, 1], false, 0, 2⟩]], Filter.newFilter (fun _ => 0) [[97]], 0⟩,
    ⟨2, 0, [[⟨[97], [0, 2], false, 0, 3⟩, ⟨[98], [0, 3], false, 0, 4⟩]], Filter.newFilter (fun _ => 0) [[97], [98]], 0⟩]

def overwrittenOnce : Engine := { fresh 0 with levels := setLevel (fun _ => []) 0 twoTables, nextSeq := 4 }

theorem compaction_keeps_overwritten :
    KeepsChosen overwrittenOnce (overwrittenOnce.compactLevel0Failing Config.plain fun n => decide (n = 7))
      (findBaseLevel Config.plain overwrittenOnce.levels) (overwrittenOnce.levels 0) := by
  have hwf : ∀ t ∈ allTables overwrittenOnce.levels, t.WF Config.plain.xxhash := by
    have hall : allTables overwrittenOnce.levels = twoTables := rfl
    intro t ht
    rw [hall] at ht
    rcases List.mem_cons.mp ht with rfl | ht
    · exact ⟨by decide, by decide +kernel, by decide, by unfold BlocksApart; decide +kernel, by decide +kernel⟩
    · cases List.mem_singleton.mp ht
      exact ⟨by decide, by decide +kernel, by decide, by unfold BlocksApart; decide +kernel, by decide +kernel⟩
  refine (compaction_keeps_iff Config.plain (fun n => decide (n = 7)) hwf).1.mpr ?_
  have hmade : ∀ c ∈ overwrittenOnce.buffers (findBaseLevel Config.plain overwrittenOnce.levels)
      (overwrittenOnce.levels 0), (createTable Config.plain (fun n => decide (n = 7)) 0
        (findBaseLevel Config.plain overwrittenOnce.levels) 5 c).isSome = true := by decide +kernel
  have hlen : (overwrittenOnce.buffers (findBaseLevel Config.plain overwrittenOnce.levels)
      (overwrittenOnce.levels 0)).length = 1 := by decide +kernel
  intro i c hi hfail
  have hlt := (List.getElem?_eq_some_iff.mp hi).1
  obtain rfl : i = 0 := by omega
  exact absurd (Option.isSome_iff_ne_none.mp (hmade c (List.mem_of_getElem? hi))) (not_not.mpr hfail)

/-- The table cannot be created, its input is retired, and the key is gone. -/
theorem failed_output_lost :
    oneTable.get Config.plain noLog [97] = .ok [1] ∧
    ¬ KeepsChosen oneTable (oneTable.compactLevel0Failing Config.plain fun _ => true)
      (findBaseLevel Config.plain oneTable.levels) (oneTable.levels 0) ∧
    (oneTable.compactLevel0Failing Config.plain fun _ => true).get Config.plain noLog [97] =
      .error .keyNotFound := by
  have hchosen : oneTable.chosen (findBaseLevel Config.plain oneTable.levels) (oneTable.levels 0) =
      [⟨[97], [0, 1], false, 0, 2⟩] := by decide +kernel
  have hgone : allTables (oneTable.compactLevel0Failing Config.plain fun _ => true).levels = [] := by
    decide +kernel
  refine ⟨rfl, ?_, rfl⟩
  intro hkeep
  obtain ⟨t, ht, _⟩ := hkeep ⟨[97], [0, 1], false, 0, 2⟩ (by rw [hchosen]; simp)
  rw [hgone] at ht
  cases ht

end Engine
end AkwaDB
