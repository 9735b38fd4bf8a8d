import AkwaDB.Engine.State

/-!
# AkwaDB.Engine.Compact

`Compact`: which tables to compact, and what it makes of the levels.

`calcLevelLimits` starts from the size of the last level and divides upwards, so the base level,
where level 0 is compacted to, moves up as the last level grows and down again as it shrinks. What
a compaction does to the levels is the same whichever level it starts from (`moveTables`), and
`compact_cases` lists the three things a call can come to.
-/

namespace AkwaDB

def KeysApart (t u : Table) : Prop := ∀ x ∈ t.entries, ∀ y ∈ u.entries, x.key ≠ y.key

namespace Engine

variable (cfg : Config)

def totalLevelSize (levels : LevelTables) (lvl : Nat) : Nat :=
  ((levels lvl).map cfg.fileSize).sum

def levelRatio : Nat := if 0 < cfg.levelSizeRatio then cfg.levelSizeRatio else 10

/-- A level that would be no larger than a memtable gets no limit and is not the base level. -/
def limitStep (st : (Nat → Nat) × Nat) (lvl : Nat) : (Nat → Nat) × Nat :=
  let target := st.1 (lvl + 1) / levelRatio cfg
  if target ≤ cfg.memTableSize then st
  else (fun l => if l = lvl then target else st.1 l, lvl)

def calcLevelLimits (levels : LevelTables) : (Nat → Nat) × Nat :=
  let lmaxSize :=
    max (totalLevelSize cfg levels (maxLevels - 1)) (cfg.memTableSize * levelRatio cfg)
  let bottom : Nat → Nat := fun lvl => if lvl = maxLevels - 1 then lmaxSize else 0
  [3, 2, 1].foldl (limitStep cfg) (bottom, maxLevels - 1)

def findBaseLevel (levels : LevelTables) : Nat := (calcLevelLimits cfg levels).2

/-- The first table with many tombstones, from the deepest level but one upwards. -/
def tombstoneVictim (levels : LevelTables) : Option (Nat × Table) :=
  [3, 2, 1, 0].findSome? fun lvl => ((levels lvl).find? Table.manyTombstones).map fun t => (lvl, t)

def scoreStep (levels : LevelTables) (limits : Nat → Nat) (best : Option Nat × Rat) (lvl : Nat) :
    Option Nat × Rat :=
  let score := cfg.quotient (totalLevelSize cfg levels lvl) (limits lvl)
  if limits lvl = 0 then best
  else if best.2 < score then (some lvl, score)
  else best

def bestLevel (levels : LevelTables) : Option Nat :=
  let threshold := max 1 cfg.compactionThreshold
  let l0Count := (levels 0).length
  let start : Option Nat × Rat :=
    if threshold ≤ l0Count then (some 0, cfg.quotient l0Count threshold) else (none, 1)
  ([1, 2, 3].foldl (scoreStep cfg levels (calcLevelLimits cfg levels).1) start).1

inductive Plan where
  | nothing
  | level0
  | table (lvl : Nat) (pick : Table)

def compactPlan (levels : LevelTables) : Plan :=
  match tombstoneVictim levels with
  | some (lvl, victim) => if lvl = 0 then .level0 else .table lvl victim
  | none =>
    match bestLevel cfg levels with
    | none => .nothing
    | some lvl =>
      if lvl = 0 then .level0
      else
        match levels lvl with
        | [] => .nothing
        | pick :: _ => .table lvl pick

def drainEnv (e : Engine) : DrainEnv :=
  ⟨e.now, e.oracle.minReadTs, e.oracle.nextTs, e.gcDiscardTs⟩

def written (e : Engine) (target : Nat) (picked : List Table) : List Table × Nat :=
  drainMergedIterator cfg.xxhash e.drainEnv e.levels target e.nextSeq
    ((overlapping e.levels target picked ++ picked).map Table.entries)

/-- The common part of `compactLevel0` and `compactLevelTable`. -/
def moveTables (e : Engine) (source target : Nat) (picked : List Table) : Engine :=
  let overlaps := overlapping e.levels target picked
  let (newTables, nextSeq) := e.written cfg target picked
  let remaining := (e.levels target).filter fun t => decide (t ∉ overlaps)
  let sorted := (remaining ++ newTables).insertionSort fun t u => t.minKey ≤ u.minKey
  let levels := setLevel e.levels target sorted
  { e with levels := setLevel levels source ((levels source).filter fun t => decide (t ∉ picked)), nextSeq }

def compactLevel0 (e : Engine) : Engine :=
  if e.levels 0 = [] then e
  else e.moveTables cfg 0 (findBaseLevel cfg e.levels) (e.levels 0)

def compactLevelTable (e : Engine) (fromLevel : Nat) (pick : Table) : Engine :=
  if maxLevels - 1 ≤ fromLevel then e else e.moveTables cfg fromLevel (fromLevel + 1) [pick]

def compact (e : Engine) : Engine :=
  match compactPlan cfg e.levels with
  | .nothing => e
  | .level0 => e.compactLevel0 cfg
  | .table lvl pick => e.compactLevelTable cfg lvl pick

/-! ## What a call comes to -/

variable {cfg}

theorem limitStep_base (st : (Nat → Nat) × Nat) (lvl : Nat) :
    (limitStep cfg st lvl).2 = st.2 ∨ (limitStep cfg st lvl).2 = lvl := by
  unfold limitStep
  dsimp only
  split
  · exact Or.inl rfl
  · exact Or.inr rfl

theorem findBaseLevel_bounds (levels : LevelTables) :
    1 ≤ findBaseLevel cfg levels ∧ findBaseLevel cfg levels < maxLevels := by
  unfold findBaseLevel calcLevelLimits
  have hbottom : 1 ≤ maxLevels - 1 ∧ maxLevels - 1 < maxLevels := by decide
  refine List.foldlRecOn (motive := fun st : (Nat → Nat) × Nat => 1 ≤ st.2 ∧ st.2 < maxLevels) _ _
    hbottom ?_
  intro st hst lvl hlvl
  have hl : 1 ≤ lvl ∧ lvl < maxLevels := by
    simp only [List.mem_cons, List.not_mem_nil, or_false] at hlvl
    simp only [maxLevels]
    omega
  rcases limitStep_base st lvl with h | h
  · rw [h]
    exact hst
  · rw [h]
    exact hl

theorem scoreStep_level (levels : LevelTables) (limits : Nat → Nat) (best : Option Nat × Rat)
    (lvl : Nat) : (scoreStep cfg levels limits best lvl).1 = best.1 ∨
      (scoreStep cfg levels limits best lvl).1 = some lvl := by
  unfold scoreStep
  dsimp only
  split
  · exact Or.inl rfl
  · split
    · exact Or.inr rfl
    · exact Or.inl rfl

theorem bestLevel_lt {levels : LevelTables} {lvl : Nat} (h : bestLevel cfg levels = some lvl) :
    lvl < maxLevels - 1 := by
  have hall : ∀ l, bestLevel cfg levels = some l → l < maxLevels - 1 := by
    unfold bestLevel
    refine List.foldlRecOn
      (motive := fun best : Option Nat × Rat => ∀ l, best.1 = some l → l < maxLevels - 1) _ _ ?_ ?_
    · intro l hl
      split at hl
      · cases hl
        decide
      · cases hl
    · intro best hbest l hl m hm
      have hlt : l < maxLevels - 1 := by
        simp only [List.mem_cons, List.not_mem_nil, or_false] at hl
        simp only [maxLevels]
        omega
      rcases scoreStep_level levels _ best l with h | h
      · exact hbest m (h.symm.trans hm)
      · rw [h] at hm
        cases hm
        exact hlt
  exact hall lvl h

theorem tombstoneVictim_mem {levels : LevelTables} {lvl : Nat} {t : Table}
    (h : tombstoneVictim levels = some (lvl, t)) : lvl < maxLevels - 1 ∧ t ∈ levels lvl := by
  obtain ⟨l, hl, hfind⟩ := List.exists_of_findSome?_eq_some h
  obtain ⟨u, hu, heq⟩ := Option.map_eq_some_iff.mp hfind
  cases heq
  refine ⟨?_, List.mem_of_find?_eq_some hu⟩
  simp only [List.mem_cons, List.not_mem_nil, or_false] at hl
  simp only [maxLevels]
  omega

theorem compactPlan_table {levels : LevelTables} {lvl : Nat} {t : Table}
    (h : compactPlan cfg levels = .table lvl t) :
    1 ≤ lvl ∧ lvl < maxLevels - 1 ∧ t ∈ levels lvl := by
  unfold compactPlan at h
  split at h
  · rename_i l victim hv
    split at h
    · cases h
    · cases h
      obtain ⟨h1, h2⟩ := tombstoneVictim_mem hv
      exact ⟨by omega, h1, h2⟩
  · split at h
    · cases h
    · rename_i l hbest
      split at h
      · cases h
      · split at h
        · cases h
        · rename_i pick rest hpick
          cases h
          exact ⟨by omega, bestLevel_lt hbest, by rw [hpick]; simp⟩

theorem compact_cases (e : Engine) :
    e.compact cfg = e ∨
      (compactPlan cfg e.levels = .level0 ∧
        e.compact cfg = e.moveTables cfg 0 (findBaseLevel cfg e.levels) (e.levels 0)) ∨
      ∃ lvl pick, 1 ≤ lvl ∧ lvl + 1 < maxLevels ∧ pick ∈ e.levels lvl ∧
        e.compact cfg = e.moveTables cfg lvl (lvl + 1) [pick] := by
  unfold compact
  cases hp : compactPlan cfg e.levels with
  | nothing => exact Or.inl rfl
  | level0 =>
    dsimp only
    unfold compactLevel0
    split
    · exact Or.inl rfl
    · exact Or.inr (Or.inl ⟨rfl, rfl⟩)
  | table lvl pick =>
    obtain ⟨h1, h2, h3⟩ := compactPlan_table hp
    refine Or.inr (Or.inr ⟨lvl, pick, h1, by omega, h3, ?_⟩)
    dsimp only
    rw [compactLevelTable, if_neg (by omega)]

theorem compact_moves (e : Engine) :
    e.compact cfg = e ∨ ∃ source target picked, source < target ∧ target < maxLevels ∧
      (∀ p ∈ picked, p ∈ e.levels source) ∧ e.compact cfg = e.moveTables cfg source target picked := by
  rcases compact_cases e with h | ⟨_, h⟩ | ⟨lvl, pick, _, hlt, hp, h⟩
  · exact Or.inl h
  · obtain ⟨h1, h2⟩ := @findBaseLevel_bounds cfg e.levels
    exact Or.inr ⟨0, _, e.levels 0, h1, h2, fun p hp => hp, h⟩
  · exact Or.inr ⟨lvl, lvl + 1, [pick], Nat.lt_succ_self lvl, hlt, by simpa using hp, h⟩

theorem mem_allTables_of_move {e : Engine} {source target : Nat} {picked : List Table}
    (ht : target < maxLevels) {t : Table}
    (h : t ∈ allTables (e.moveTables cfg source target picked).levels) :
    t ∈ allTables e.levels ∨ t ∈ (e.written cfg target picked).1 := by
  obtain ⟨l, hl, h⟩ := mem_allTables.mp h
  have hlevel : t ∈ setLevel e.levels target
      (((e.levels target).filter (fun t => decide (t ∉ overlapping e.levels target picked)) ++
        (e.written cfg target picked).1).insertionSort fun t u => t.minKey ≤ u.minKey) l := by
    cases mem_setLevel h with
    | inl h =>
      obtain ⟨rfl, h⟩ := h
      exact List.mem_of_mem_filter h
    | inr h => exact h.2
  cases mem_setLevel hlevel with
  | inl h =>
    have hmem := (List.perm_insertionSort _ _).mem_iff.mp h.2
    exact (List.mem_append.mp hmem).imp_left fun h =>
      mem_allTables.mpr ⟨target, ht, List.mem_of_mem_filter h⟩
  | inr h => exact Or.inl (mem_allTables.mpr ⟨l, hl, h.2⟩)

theorem mem_written {e : Engine} (hwf : ∀ t ∈ allTables e.levels, t.WF cfg.xxhash)
    {source target : Nat} {picked : List Table} (hlt : source < target) (ht : target < maxLevels)
    (hp : ∀ p ∈ picked, p ∈ e.levels source) {t : Table} (h : t ∈ (e.written cfg target picked).1) :
    t.WF cfg.xxhash ∧ e.nextSeq < t.seq ∧ t.seq ≤ (e.written cfg target picked).2 ∧
      ∀ y ∈ t.entries, ∃ u ∈ allTables e.levels, ∃ x ∈ u.entries, y.version = x.version := by
  have hin : ∀ u ∈ overlapping e.levels target picked ++ picked, u ∈ allTables e.levels := by
    intro u hu
    cases List.mem_append.mp hu with
    | inl hu => exact mem_allTables.mpr ⟨target, ht, List.mem_of_mem_filter hu⟩
    | inr hu => exact mem_allTables.mpr ⟨source, Nat.lt_trans hlt ht, hp u hu⟩
  have hs : ∀ l ∈ (overlapping e.levels target picked ++ picked).map Table.entries,
      VersionSorted l := by
    intro l hl
    obtain ⟨u, hu, rfl⟩ := List.mem_map.mp hl
    exact (hwf u (hin u hu)).sorted
  obtain ⟨h1, _, h2, h3⟩ := drain_wf hs h
  refine ⟨h1, h2, h3, ?_⟩
  intro y hy
  obtain ⟨x, hx, rfl⟩ := drain_sound hs h hy
  obtain ⟨l, hl, hxl⟩ := List.mem_flatten.mp hx
  obtain ⟨u, hu, rfl⟩ := List.mem_map.mp hl
  exact ⟨u, hin u hu, x, hxl, by simp⟩

theorem nextSeq_le_written (e : Engine) (target : Nat) (picked : List Table) :
    e.nextSeq ≤ (e.written cfg target picked).2 := by
  obtain ⟨chunks, _, _, heq⟩ := @drain_eq_buildTables cfg.xxhash e.drainEnv e.levels target e.nextSeq
    ((overlapping e.levels target picked ++ picked).map Table.entries)
  rw [written, heq]
  exact Nat.le_add_right _ _

end Engine
end AkwaDB
