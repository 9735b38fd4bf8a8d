import AkwaDB.Engine.Compact
import Mathlib.Algebra.GroupWithZero.Nat
import Mathlib.Algebra.Order.BigOperators.Group.List
import Mathlib.Data.Rat.Cast.Order
import Mathlib.Tactic.IntervalCases

/-!
# AkwaDB.Engine.Settle

`Compact` called again and again, with no writes in between.

A call that does anything takes tables of one level, and all that they hold goes to a deeper level or away. So the
entries, weighed by how far they are from the last level, get less with each such call (`weight_move`), and after as
many calls as they weighed nothing moves any more, however the clock, the transactions and the limits go
meanwhile.

`compaction_settles_iff`: the levels are then as they should be, and the worker's loop has ended, if the threshold of
level 0 is positive. `Compact` takes a threshold below one as one; the worker does not.
-/

namespace AkwaDB
namespace Engine

variable (cfg : Config)

structure Surroundings where
  now : Int
  oracle : Oracle
  gcDiscardTs : Nat

def compactions (env : Nat → Surroundings) (e : Engine) : Nat → Engine
  | 0 => e
  | n + 1 =>
    let e' := compactions env e n
    compact cfg { e' with now := (env n).now, oracle := (env n).oracle, gcDiscardTs := (env n).gcDiscardTs }

/-- Level 0 is below its threshold, no table above the last level has many tombstones, and no level is over its
limit. -/
structure WithinLimits (levels : LevelTables) : Prop where
  level0 : (levels 0).length < cfg.compactionThreshold
  tombstones : ∀ lvl < maxLevels - 1, ∀ t ∈ levels lvl, t.manyTombstones = false
  sizes : ∀ lvl, 1 ≤ lvl → lvl < maxLevels - 1 → 0 < (calcLevelLimits cfg levels).1 lvl →
    totalLevelSize cfg levels lvl ≤ (calcLevelLimits cfg levels).1 lvl

/-- The levels stop changing and are tidy then, and the inner loop of `compactionWorker` ends. -/
def Settles (env : Nat → Surroundings) (e : Engine) : Prop :=
  (∃ n, (∀ m, n ≤ m → (compactions cfg env e m).levels = (compactions cfg env e n).levels) ∧
    WithinLimits cfg (compactions cfg env e n).levels) ∧
  ∃ n, 1 ≤ n ∧ ((compactions cfg env e n).levels 0).length < cfg.compactionThreshold

/-- What is used of the division of floating point numbers: rounding does not cross 1, and a quotient of whole
numbers below 2^53 that is above 1 stays above it. -/
structure Rounded (quotient : Nat → Nat → Rat) : Prop where
  le_one : ∀ a b, 0 < b → a ≤ b → quotient a b ≤ 1
  one_le : ∀ a b, 0 < b → b ≤ a → 1 ≤ quotient a b
  one_lt : ∀ a b, 0 < b → b < a → a < 2 ^ 53 → 1 < quotient a b

/-- A measure of entries that neither a compaction nor the writer of a table raises. -/
structure Measure where
  of : Entry → Nat
  stored : ∀ x, of x.stored ≤ of x
  compacted : ∀ now x, of (x.compacted now) ≤ of x

def Measure.count : Measure := ⟨fun _ => 1, fun _ => le_rfl, fun _ _ => le_rfl⟩

def mass (c : Measure) (ts : List Table) : Nat := (ts.map fun t => (t.entries.map c.of).sum).sum

def weight (levels : LevelTables) : Nat :=
  4 * mass .count (levels 0) + 3 * mass .count (levels 1) + 2 * mass .count (levels 2) + mass .count (levels 3)

/-- A file is not longer than `c` allows for its entries, and all of them together are below 2^53 bytes. -/
structure Fits (c : Measure) (levels : LevelTables) : Prop where
  file : ∀ t : Table, t.entries ≠ [] → cfg.fileSize t ≤ (t.entries.map c.of).sum
  total : mass c (allTables levels) < 2 ^ 53

/-! ## Entries get fewer -/

section
variable {c : Measure} {ts us : List Table}

theorem mass_append (ts us : List Table) : mass c (ts ++ us) = mass c ts + mass c us := by
  simp [mass]

theorem mass_perm (h : ts.Perm us) : mass c ts = mass c us := (h.map _).sum_eq

theorem mass_filter (p : Table → Bool) (ts : List Table) :
    mass c (ts.filter p) + mass c (ts.filter fun t => !p t) = mass c ts := by
  rw [← mass_append]
  exact mass_perm (List.filter_append_perm p ts)

theorem mass_sublist (h : ts.Sublist us) : mass c ts ≤ mass c us := (h.map _).sum_le_sum fun _ _ => Nat.zero_le _

theorem mass_allTables (levels : LevelTables) : mass c (allTables levels) = mass c (levels 0) + mass c (levels 1) +
    mass c (levels 2) + mass c (levels 3) + mass c (levels 4) := by
  simp [allTables, maxLevels, List.range_succ, mass_append, Nat.add_assoc]

theorem sum_createAtLevel {xxhash : Bytes → UInt64} {now : Int} {seq level : Nat} {es : List Entry} {t : Table}
    (h : Table.createAtLevel xxhash now seq level es = some t) : (t.entries.map c.of).sum ≤ (es.map c.of).sum := by
  simp only [Table.createAtLevel] at h
  split at h
  · cases h
  · cases h
    simp only [Table.entries, splitBlocks_flatten, List.map_map]
    exact List.sum_le_sum fun x _ => c.stored x

theorem mass_buildTables {xxhash : Bytes → UInt64} {now : Int} {level : Nat} (cs : List (List Entry)) (seq : Nat) :
    mass c (buildTables xxhash now level seq cs) ≤ (cs.flatten.map c.of).sum := by
  induction cs generalizing seq with
  | nil => exact Nat.le_refl _
  | cons d cs ih =>
    rw [buildTables_cons, mass_append, List.flatten_cons, List.map_append, List.sum_append]
    refine Nat.add_le_add ?_ (ih _)
    cases hd : Table.createAtLevel xxhash now (seq + 1) level d with
    | none => exact Nat.zero_le _
    | some t => simpa [mass] using sum_createAtLevel hd

end

variable {cfg}

section
variable {c : Measure} {e : Engine} {source target : Nat} {picked : List Table}

theorem mass_written (e : Engine) (target : Nat) (picked : List Table) :
    mass c (e.written cfg target picked).1 ≤ mass c (overlapping e.levels target picked) + mass c picked := by
  generalize hiters : (overlapping e.levels target picked ++ picked).map Table.entries = iters
  obtain ⟨chunks, hchunks, -, heq⟩ := @drain_eq_buildTables cfg.xxhash e.drainEnv e.levels target e.nextSeq iters
  have hkept : ∀ groups : List (List Entry),
      ((groups.filterMap (keepGroup e.drainEnv e.levels target)).flatten.map c.of).sum ≤
        (groups.flatten.map c.of).sum := by
    intro groups
    induction groups with
    | nil => exact Nat.le_refl _
    | cons g groups ih =>
      rw [List.filterMap_cons, List.flatten_cons, List.map_append, List.sum_append]
      split
      · omega
      · rename_i kept hkeep
        have hsub := ((keepVersions_sublist e.drainEnv.minReadTs (byVersion g) none false).map c.of).sum_le_sum
          fun _ _ => Nat.zero_le _
        rw [byVersion, ((List.perm_insertionSort _ g).map c.of).sum_eq] at hsub
        have hcompacted : (kept.map c.of).sum ≤ (g.map c.of).sum := by
          rw [keepGroup_eq_some hkeep, List.map_map]
          exact (List.sum_le_sum fun x _ => c.compacted _ x).trans hsub
        rw [List.flatten_cons, List.map_append, List.sum_append]
        omega
  have hbuilt := @mass_buildTables c cfg.xxhash e.drainEnv.now target (chunks.map List.flatten) e.nextSeq
  have hgroups := hkept (groupByKey (kmerge Entry.before iters))
  have hall : (iters.flatten.map c.of).sum = mass c (overlapping e.levels target picked ++ picked) := by
    rw [← hiters, List.map_flatten, List.sum_flatten, List.map_map, List.map_map, mass]
    rfl
  rw [groupByKey_flatten, ((kmerge_perm iters).map c.of).sum_eq, hall, mass_append] at hgroups
  rw [← List.flatten_flatten, hchunks, keptGroups] at hbuilt
  rw [written, hiters, heq]
  exact hbuilt.trans hgroups

/-- A compaction takes what it picked from one level, and the other gets no more than that. -/
theorem mass_move (hne : source ≠ target) (hsub : picked.Sublist (e.levels source)) :
    mass c ((e.moveTables cfg source target picked).levels target) ≤ mass c (e.levels target) + mass c picked ∧
      mass c ((e.moveTables cfg source target picked).levels source) + mass c picked ≤ mass c (e.levels source) ∧
      ∀ lvl, lvl ≠ source → lvl ≠ target →
        (e.moveTables cfg source target picked).levels lvl = e.levels lvl := by
  refine ⟨?_, ?_, fun lvl h1 h2 => by simp only [moveTables, setLevel_other h1, setLevel_other h2]⟩
  · have hwritten := @mass_written cfg c e target picked
    have hsplit : mass c ((e.levels target).filter fun t => decide (t ∉ overlapping e.levels target picked)) +
        mass c (overlapping e.levels target picked) = mass c (e.levels target) := by
      rw [Nat.add_comm, ← mass_filter (fun t => picked.any fun p => rangesOverlap p t) (e.levels target)]
      refine congrArg₂ _ rfl (congrArg (mass c) (List.filter_congr fun t ht => ?_))
      have hmem : t ∉ overlapping e.levels target picked ↔ ¬ (picked.any fun p => rangesOverlap p t) = true :=
        not_congr (List.mem_filter.trans (and_iff_right ht))
      by_cases hany : (picked.any fun p => rangesOverlap p t) = true
      · rw [hany]
        exact decide_eq_false fun h => hmem.mp h hany
      · rw [Bool.eq_false_iff.mpr hany]
        exact decide_eq_true (hmem.mpr hany)
    simp only [moveTables, setLevel_other hne.symm, setLevel_same]
    rw [mass_perm (List.perm_insertionSort _ _), mass_append]
    omega
  · simp only [moveTables, setLevel_same, setLevel_other hne]
    have hmem := @mass_filter c (fun t => decide (t ∉ picked)) (e.levels source)
    have hpicked : picked.Sublist ((e.levels source).filter fun t => !decide (t ∉ picked)) := by
      have := hsub.filter fun t => !decide (t ∉ picked)
      rwa [List.filter_eq_self.mpr fun t ht => by simpa using ht] at this
    have := @mass_sublist c _ _ hpicked
    omega

theorem weight_move (hlt : source < target) (ht : target < maxLevels) (hsub : picked.Sublist (e.levels source))
    (hpos : 0 < mass .count picked) : weight (e.moveTables cfg source target picked).levels < weight e.levels := by
  obtain ⟨htarget, hsource, hother⟩ := @mass_move cfg .count e source target picked hlt.ne hsub
  generalize (e.moveTables cfg source target picked).levels = after at *
  have hmax : target < 5 := ht
  unfold weight
  have h0 := hother 0
  have h1 := hother 1
  have h2 := hother 2
  have h3 := hother 3
  interval_cases target <;> interval_cases source <;> simp_all <;> omega

theorem mass_allTables_move (hlt : source < target) (ht : target < maxLevels)
    (hsub : picked.Sublist (e.levels source)) :
    mass c (allTables (e.moveTables cfg source target picked).levels) ≤ mass c (allTables e.levels) := by
  obtain ⟨htarget, hsource, hother⟩ := @mass_move cfg c e source target picked hlt.ne hsub
  generalize (e.moveTables cfg source target picked).levels = after at *
  have hmax : target < 5 := ht
  rw [mass_allTables, mass_allTables]
  have h0 := hother 0
  have h1 := hother 1
  have h2 := hother 2
  have h3 := hother 3
  have h4 := hother 4
  interval_cases target <;> interval_cases source <;> simp_all <;> omega

end

/-! ## What a call comes to -/

theorem scoreStep_none {levels : LevelTables} {limits : Nat → Nat} {best : Option Nat × Rat} {lvl : Nat}
    (h : (scoreStep cfg levels limits best lvl).1 = none) : scoreStep cfg levels limits best lvl = best ∧
      (0 < limits lvl → cfg.quotient (totalLevelSize cfg levels lvl) (limits lvl) ≤ best.2) := by
  unfold scoreStep at *
  dsimp only at *
  split at h
  · rename_i hzero
    rw [if_pos hzero]
    exact ⟨rfl, fun hpos => absurd hzero (by omega)⟩
  · rename_i hzero
    split at h
    · cases h
    · rename_i hscore
      rw [if_neg hzero, if_neg hscore]
      exact ⟨rfl, fun _ => not_lt.mp hscore⟩

theorem bestLevel_none {levels : LevelTables} (h : bestLevel cfg levels = none) :
    (levels 0).length < max 1 cfg.compactionThreshold ∧
      ∀ lvl, 1 ≤ lvl → lvl < maxLevels - 1 → 0 < (calcLevelLimits cfg levels).1 lvl →
        cfg.quotient (totalLevelSize cfg levels lvl) ((calcLevelLimits cfg levels).1 lvl) ≤ 1 := by
  unfold bestLevel at h
  simp only [List.foldl_cons, List.foldl_nil] at h
  obtain ⟨h3, hs3⟩ := scoreStep_none h
  rw [h3] at h
  obtain ⟨h2, hs2⟩ := scoreStep_none h
  rw [h2] at h hs3
  obtain ⟨h1, hs1⟩ := scoreStep_none h
  rw [h1] at h hs3 hs2
  split at h
  · cases h
  · rename_i hl0
    rw [if_neg hl0] at hs1 hs2 hs3
    refine ⟨Nat.lt_of_not_le hl0, fun lvl hlo hhi => ?_⟩
    have hhi : lvl < 4 := hhi
    interval_cases lvl
    · exact hs1
    · exact hs2
    · exact hs3

theorem bestLevel_some (hround : Rounded cfg.quotient) {levels : LevelTables} {lvl : Nat}
    (h : bestLevel cfg levels = some lvl) : levels lvl ≠ [] := by
  have hall : ∀ l, bestLevel cfg levels = some l → levels l ≠ [] := by
    unfold bestLevel
    refine (List.foldlRecOn (motive := fun best : Option Nat × Rat => 1 ≤ best.2 ∧
      ∀ l, best.1 = some l → levels l ≠ []) _ _ ?_ ?_).2
    · split
      · rename_i hdue
        refine ⟨hround.one_le _ _ (by omega) hdue, fun l hl hnil => ?_⟩
        cases hl
        rw [hnil, List.length_nil] at hdue
        omega
      · exact ⟨le_refl _, fun l hl => by cases hl⟩
    · intro best ⟨hone, hbest⟩ l _
      unfold scoreStep
      dsimp only
      split
      · exact ⟨hone, hbest⟩
      · split
        · rename_i hzero hscore
          refine ⟨(hone.trans_lt hscore).le, fun m hm hnil => ?_⟩
          cases hm
          have hsize : totalLevelSize cfg levels l = 0 := by
            rw [totalLevelSize, hnil]
            rfl
          have hle := hround.le_one (totalLevelSize cfg levels l) ((calcLevelLimits cfg levels).1 l) (by omega)
            (by omega)
          exact absurd (hone.trans_lt hscore) (not_lt.mpr hle)
        · exact ⟨hone, hbest⟩
  exact hall lvl h

theorem tombstoneVictim_none {levels : LevelTables} (h : tombstoneVictim levels = none) :
    ∀ lvl < maxLevels - 1, ∀ t ∈ levels lvl, t.manyTombstones = false := by
  intro lvl hlvl t ht
  have hlvl : lvl < 4 := hlvl
  have hmem : lvl ∈ [3, 2, 1, 0] := by
    simp only [List.mem_cons, List.not_mem_nil, or_false]
    omega
  have hnone := List.findSome?_eq_none_iff.mp h lvl hmem
  rw [Option.map_eq_none_iff, List.find?_eq_none] at hnone
  exact Bool.eq_false_iff.mpr (hnone t ht)

theorem compactPlan_nothing (hround : Rounded cfg.quotient) {levels : LevelTables}
    (h : compactPlan cfg levels = .nothing) : tombstoneVictim levels = none ∧ bestLevel cfg levels = none := by
  unfold compactPlan at h
  split at h
  · split at h <;> cases h
  · rename_i hvictim
    refine ⟨hvictim, ?_⟩
    split at h
    · assumption
    · rename_i lvl hbest
      split at h
      · cases h
      · split at h
        · rename_i hnil
          exact absurd hnil (bestLevel_some hround hbest)
        · cases h

theorem compactPlan_level0 (hround : Rounded cfg.quotient) {levels : LevelTables}
    (h : compactPlan cfg levels = .level0) : levels 0 ≠ [] := by
  unfold compactPlan at h
  split at h
  · rename_i lvl victim hvictim
    split at h
    · rename_i hzero
      subst hzero
      exact List.ne_nil_of_mem (tombstoneVictim_mem hvictim).2
    · cases h
  · split at h
    · cases h
    · rename_i lvl hbest
      split at h
      · rename_i hzero
        subst hzero
        exact bestLevel_some hround hbest
      · split at h <;> cases h

theorem mass_count_pos {ts : List Table} (hne : ∀ t ∈ ts, t.entries ≠ []) (hts : ts ≠ []) : 0 < mass .count ts := by
  obtain ⟨t, rest, rfl⟩ := List.exists_cons_of_ne_nil hts
  have := List.length_pos_iff.mpr (hne t List.mem_cons_self)
  simp only [mass, Measure.count, List.map_cons, List.map_const', List.sum_replicate_nat, List.sum_cons]
  omega

theorem compact_wf {e : Engine} (hwf : ∀ t ∈ allTables e.levels, t.WF cfg.xxhash) :
    ∀ t ∈ allTables (e.compact cfg).levels, t.WF cfg.xxhash := by
  intro t ht
  rcases @compact_moves cfg e with h | ⟨source, target, picked, hlt, hmax, hpicked, h⟩
  · rw [h] at ht
    exact hwf t ht
  · rw [h] at ht
    rcases mem_allTables_of_move hmax ht with ht | ht
    · exact hwf t ht
    · exact (mem_written hwf hlt hmax hpicked ht).1

theorem compact_weight (hround : Rounded cfg.quotient) {e : Engine} (hwf : ∀ t ∈ allTables e.levels, t.WF cfg.xxhash) :
    compactPlan cfg e.levels = .nothing ∨ weight (e.compact cfg).levels < weight e.levels := by
  have hne : ∀ lvl < maxLevels, ∀ t ∈ e.levels lvl, t.entries ≠ [] := fun lvl hlvl t ht =>
    (hwf t (mem_allTables.mpr ⟨lvl, hlvl, ht⟩)).ne_nil
  unfold compact
  cases hplan : compactPlan cfg e.levels with
  | nothing => exact Or.inl rfl
  | level0 =>
    have hsome := compactPlan_level0 hround hplan
    obtain ⟨h1, h2⟩ := @findBaseLevel_bounds cfg e.levels
    dsimp only
    rw [compactLevel0, if_neg hsome]
    exact Or.inr (weight_move h1 h2 (List.Sublist.refl _) (mass_count_pos (hne 0 (by decide)) hsome))
  | table lvl pick =>
    obtain ⟨_, hlvl, hmem⟩ := compactPlan_table hplan
    dsimp only
    rw [compactLevelTable, if_neg (by omega)]
    refine Or.inr (weight_move (Nat.lt_succ_self lvl) (by omega) (List.singleton_sublist.mpr hmem) ?_)
    exact mass_count_pos (by simpa using hne lvl (by omega) pick hmem) (by simp)

section
variable {env : Nat → Surroundings} {e : Engine}

theorem compactions_nothing {n : Nat} (h : compactPlan cfg (compactions cfg env e n).levels = .nothing) :
    (compactions cfg env e (n + 1)).levels = (compactions cfg env e n).levels := by
  rw [compactions, compact]
  dsimp only
  rw [h]

theorem compactions_wf (hwf : ∀ t ∈ allTables e.levels, t.WF cfg.xxhash) (n : Nat) :
    ∀ t ∈ allTables (compactions cfg env e n).levels, t.WF cfg.xxhash := by
  induction n with
  | zero => exact hwf
  | succ n ih => exact compact_wf ih

theorem Fits.compact {c : Measure} (h : Fits cfg c e.levels) : Fits cfg c (e.compact cfg).levels := by
  refine ⟨h.file, lt_of_le_of_lt ?_ h.total⟩
  rcases compact_cases e with heq | ⟨_, heq⟩ | ⟨lvl, pick, _, hlt, hp, heq⟩
  · rw [heq]
  · obtain ⟨h1, h2⟩ := @findBaseLevel_bounds cfg e.levels
    rw [heq]
    exact mass_allTables_move h1 h2 (List.Sublist.refl _)
  · rw [heq]
    exact mass_allTables_move (Nat.lt_succ_self lvl) hlt (List.singleton_sublist.mpr hp)

theorem Fits.compactions {c : Measure} (h : Fits cfg c e.levels) (n : Nat) :
    Fits cfg c (compactions cfg env e n).levels := by
  induction n with
  | zero => exact h
  | succ n ih => exact Fits.compact ih

theorem Fits.size_lt {c : Measure} {levels : LevelTables} (h : Fits cfg c levels)
    (hwf : ∀ t ∈ allTables levels, t.WF cfg.xxhash) {lvl : Nat} (hlvl : lvl < maxLevels) :
    totalLevelSize cfg levels lvl < 2 ^ 53 := by
  have hfiles : totalLevelSize cfg levels lvl ≤ mass c (levels lvl) := List.sum_le_sum fun t ht =>
    h.file t (hwf t (mem_allTables.mpr ⟨lvl, hlvl, ht⟩)).ne_nil
  have htotal := h.total
  have hlvl : lvl < 5 := hlvl
  rw [mass_allTables] at htotal
  interval_cases lvl <;> omega

theorem compactions_settled (hround : Rounded cfg.quotient) (hwf : ∀ t ∈ allTables e.levels, t.WF cfg.xxhash) {n : Nat}
    (hn : weight e.levels ≤ n) : compactPlan cfg (compactions cfg env e n).levels = .nothing := by
  have hstep : ∀ m, compactPlan cfg (compactions cfg env e m).levels = .nothing ∨
      weight (compactions cfg env e (m + 1)).levels < weight (compactions cfg env e m).levels := fun m =>
    compact_weight (e := { compactions cfg env e m with
      now := (env m).now, oracle := (env m).oracle, gcDiscardTs := (env m).gcDiscardTs }) hround (compactions_wf hwf m)
  have hall : ∀ m, compactPlan cfg (compactions cfg env e m).levels = .nothing ∨
      weight (compactions cfg env e m).levels + m ≤ weight e.levels := by
    intro m
    induction m with
    | zero => exact Or.inr (Nat.le_refl _)
    | succ m ih =>
      rcases ih with hdone | hle
      · rw [compactions_nothing hdone]
        exact Or.inl hdone
      · rcases hstep m with hdone | hlt
        · rw [compactions_nothing hdone]
          exact Or.inl hdone
        · exact Or.inr (by omega)
  rcases hall n with hdone | hle
  · exact hdone
  · exact (hstep n).resolve_right fun hlt => by omega

theorem compactions_same (hround : Rounded cfg.quotient) (hwf : ∀ t ∈ allTables e.levels, t.WF cfg.xxhash) {n : Nat}
    (hn : weight e.levels ≤ n) :
    (compactions cfg env e n).levels = (compactions cfg env e (weight e.levels)).levels := by
  induction n, hn using Nat.le_induction with
  | base => rfl
  | succ n hn ih => rw [compactions_nothing (compactions_settled hround hwf hn), ih]

/-- **Compaction settles iff the threshold of level 0 is positive.** -/
theorem compaction_settles_iff {c : Measure} (hround : Rounded cfg.quotient)
    (hwf : ∀ t ∈ allTables e.levels, t.WF cfg.xxhash) (hfit : Fits cfg c e.levels) :
    Settles cfg env e ↔ 0 < cfg.compactionThreshold := by
  constructor
  · rintro ⟨⟨n, -, htidy⟩, -⟩
    exact Nat.zero_lt_of_lt htidy.level0
  · intro hthreshold
    obtain ⟨hvictim, hbest⟩ := compactPlan_nothing hround
      (@compactions_settled cfg env e hround hwf _ (Nat.le_refl (weight e.levels)))
    obtain ⟨hl0, hscores⟩ := bestLevel_none hbest
    have hl0' : ((compactions cfg env e (weight e.levels)).levels 0).length < cfg.compactionThreshold := by omega
    refine ⟨⟨_, fun m hm => compactions_same hround hwf hm, hl0', tombstoneVictim_none hvictim,
      fun lvl hlo hhi hpos => ?_⟩, weight e.levels + 1, by omega, ?_⟩
    · -- a level over its limit would score above 1
      by_contra hover
      have hsize := (@Fits.compactions cfg env e c hfit (weight e.levels)).size_lt (compactions_wf hwf _)
        (hhi.trans (by decide))
      exact absurd (hround.one_lt _ _ hpos (Nat.lt_of_not_le hover) hsize) (not_lt.mpr (hscores lvl hlo hhi hpos))
    · rw [compactions_same hround hwf (Nat.le_succ _)]
      exact hl0'

end

def quietSurroundings : Nat → Surroundings := fun n => ⟨n, Oracle.newOracle, 0⟩

/-- A hundred bytes for each entry, and levels that are full soon. -/
def smallTables : Config :=
  { Config.plain with memTableSize := 300, fileSize := fun t => (t.entries.map fun _ => 100).sum }

theorem small_rounded : Rounded smallTables.quotient where
  le_one _ _ hb h := (div_le_one (Nat.cast_pos.mpr hb)).mpr (Nat.cast_le.mpr h)
  one_le _ _ hb h := (one_le_div (Nat.cast_pos.mpr hb)).mpr (Nat.cast_le.mpr h)
  one_lt _ _ hb h _ := (one_lt_div (Nat.cast_pos.mpr hb)).mpr (Nat.cast_lt.mpr h)

def letter (seq : Nat) (key : UInt8) : Table :=
  ⟨seq, 0, [[⟨[key], [0, 1], false, 0, seq⟩]], Filter.newFilter (fun _ => 0) [[key]], 0⟩

theorem letter_wf (seq : Nat) (key : UInt8) : (letter seq key).WF smallTables.xxhash :=
  (@Table.createAtLevel_wf smallTables.xxhash _ 0 seq 0 [⟨[key], [0, 1], false, 0, seq⟩] (List.pairwise_singleton _ _)
    (List.cons_ne_nil _ _) rfl).1

def fiveTables : Engine :=
  let tables := [(1, 97), (2, 98), (3, 97), (4, 99), (5, 100)].map fun p => letter p.1 p.2
  { Engine.fresh 0 with levels := setLevel (fun _ => []) 0 tables }

theorem compaction_settles_fiveTables : Settles smallTables quietSurroundings fiveTables := by
  refine (compaction_settles_iff (c := ⟨fun _ => 100, fun _ => le_rfl, fun _ _ => le_rfl⟩) small_rounded ?_
    ⟨fun _ _ => le_rfl, ?_⟩).mpr (by decide)
  · intro t ht
    obtain ⟨l, _, ht⟩ := mem_allTables.mp ht
    dsimp only [fiveTables] at ht
    rcases mem_setLevel ht with ⟨-, ht⟩ | ⟨-, ht⟩
    · obtain ⟨p, -, rfl⟩ := List.mem_map.mp ht
      exact letter_wf _ _
    · cases ht
  · rw [mass_allTables]
    exact (by decide : 500 < 2 ^ 53)

/-- With a threshold of zero the worker goes on although there is nothing to compact. -/
theorem worker_never_ends :
    ¬ Settles { Config.plain with compactionThreshold := 0 } quietSurroundings (fresh 0) := by
  rintro ⟨-, n, -, hlt⟩
  exact Nat.not_lt_zero _ hlt

end Engine
end AkwaDB
