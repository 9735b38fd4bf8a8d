import AkwaDB.Engine.Compact

/-!
# AkwaDB.Engine.Order

The order of the layers: memtable, immutable memtable, level 0 from its last table to its first,
then the deeper levels, each newer than what comes after it on every key they share.

`Ordered.sink`: tables that go down a level or more, with those they meet there, leave the order as it is
where they are older than what stays above. `Ordered.move`: a compaction keeps the order if `Movable`
holds of it. That is so of one table going to the next level (`movable_table`), and of level 0 going to
the base level when the levels skipped hold none of its keys (`movable_level0`).
-/

namespace AkwaDB

theorem KeysApart.symm {t u : Table} (h : KeysApart t u) : KeysApart u t :=
  fun x hx y hy hk => h y hy x hx hk.symm

instance : Std.Symm KeysApart := ⟨fun _ _ h => h.symm⟩

abbrev Newer (a b : List Entry) : Prop := NewerThan Entry.key Entry.version a b

theorem KeysApart.newer {t u : Table} (h : KeysApart t u) : Newer t.entries u.entries :=
  fun x hx y hy hk => absurd hk (h x hx y hy)

namespace Engine

structure Ordered (cfg : Config) (e : Engine) : Prop where
  wf : ∀ t ∈ allTables e.levels, t.WF cfg.xxhash
  memImm : Newer e.mem.nodes e.immNodes
  memTable : ∀ t ∈ allTables e.levels, Newer e.mem.nodes t.entries
  immTable : ∀ t ∈ allTables e.levels, Newer e.immNodes t.entries
  level0 : (e.levels 0).Pairwise fun t u => Newer u.entries t.entries
  across : ∀ l m, l < m → m < maxLevels → ∀ t ∈ e.levels l, ∀ u ∈ e.levels m,
    Newer t.entries u.entries
  apart : ∀ l, 1 ≤ l → l < maxLevels → (e.levels l).Pairwise KeysApart

variable {cfg : Config} {e e' : Engine} {t : Table}

section
variable (h : Ordered cfg e)
include h

theorem Ordered.tableOrder :
    (tableOrder e.levels).Pairwise fun t u => Newer t.entries u.entries := by
  rw [Engine.tableOrder, List.flatMap_def]
  refine List.pairwise_flatten.mpr ⟨?_, ?_⟩
  · intro l hl
    obtain ⟨lvl, hlvl, rfl⟩ := List.mem_map.mp hl
    rw [List.pairwise_reverse]
    rcases Nat.eq_zero_or_pos lvl with rfl | hpos
    · exact h.level0
    · exact (h.apart lvl hpos (List.mem_range.mp hlvl)).imp fun hap => hap.symm.newer
  · rw [List.pairwise_map]
    refine List.Pairwise.imp_of_mem ?_ List.pairwise_lt_range
    intro l m _ hm hlt t ht u hu
    exact h.across l m hlt (List.mem_range.mp hm) t (List.mem_reverse.mp ht) u
      (List.mem_reverse.mp hu)

theorem Ordered.descends : Descends Entry.key Entry.version e.layers := by
  have htab : ∀ l ∈ (Engine.tableOrder e.levels).map Table.entries,
      ∃ t ∈ allTables e.levels, t.entries = l := by
    intro l hl
    obtain ⟨t, ht, rfl⟩ := List.mem_map.mp hl
    exact ⟨t, mem_tableOrder.mp ht, rfl⟩
  refine List.pairwise_cons.mpr ⟨?_, List.pairwise_cons.mpr ⟨?_, ?_⟩⟩
  · intro l hl
    rcases List.mem_cons.mp hl with rfl | hl
    · exact h.memImm
    · obtain ⟨t, ht, rfl⟩ := htab l hl
      exact h.memTable t ht
  · intro l hl
    obtain ⟨t, ht, rfl⟩ := htab l hl
    exact h.immTable t ht
  · exact List.pairwise_map.mpr h.tableOrder

theorem Ordered.lookup_eq_newest {k : Bytes} (ha : ∀ t ∈ allTables e.levels, t.Aligned k)
    (ok : Nat → Bool) :
    e.lookup cfg k ok = newest Entry.version (Entry.hits k ok) e.layers.flatten := by
  rw [lookup_eq_layered ok h.wf ha]
  exact layered_eq_newest_flatten (h.descends.imp fun hnewer x hx y hy hpx hpy =>
    hnewer x hx y hy (Entry.key_eq_of_hits hpx hpy))

theorem Ordered.level_unique {l m : Nat} (hl : l < maxLevels) (hm : m < maxLevels)
    (htl : t ∈ e.levels l) (htm : t ∈ e.levels m) : l = m := by
  have hself : ∀ a b, a < b → b < maxLevels → t ∈ e.levels a → t ∈ e.levels b → False := by
    intro a b hab hb hta htb
    obtain ⟨x, hx⟩ := List.exists_mem_of_ne_nil _ (h.wf t (mem_allTables.mpr ⟨b, hb, htb⟩)).ne_nil
    exact Nat.lt_irrefl _ (h.across a b hab hb t hta t htb x hx x hx rfl)
  rcases Nat.lt_trichotomy l m with hlt | heq | hlt
  · exact (hself l m hlt hm htl htm).elim
  · exact heq
  · exact (hself m l hlt hl htm htl).elim

theorem Ordered.apart_of_ne {l : Nat} (h1 : 1 ≤ l) (hl : l < maxLevels) {u : Table}
    (ht : t ∈ e.levels l) (hu : u ∈ e.levels l) (hne : t ≠ u) : KeysApart t u :=
  (h.apart l h1 hl).forall ht hu hne

end

theorem allTables_fresh (now : Int) (t : Table) : t ∉ allTables (Engine.fresh now).levels := by
  simp [allTables, Engine.fresh]

theorem layers_fresh (now : Int) (x : Entry) : x ∉ (Engine.fresh now).layers.flatten := by
  intro hx
  rcases mem_layers.mp hx with hx | hx | ⟨t, ht, _⟩
  · cases hx
  · cases hx
  · exact allTables_fresh now t ht

theorem ordered_fresh (now : Int) : Ordered cfg (Engine.fresh now) := by
  refine ⟨fun t ht => absurd ht (allTables_fresh now t), ?_,
    fun t ht => absurd ht (allTables_fresh now t), fun t ht => absurd ht (allTables_fresh now t),
    List.Pairwise.nil, ?_, fun _ _ _ => List.Pairwise.nil⟩
  · intro x hx
    cases hx
  · intro l m _ _ t ht
    cases ht

/-! ## Writes, rotations and flushes -/

theorem Ordered.insertAll (h : Ordered cfg e) {es : List Entry} (himm : Newer es e.immNodes)
    (htab : ∀ t ∈ allTables e.levels, Newer es t.entries) :
    Ordered cfg { e with mem := es.foldl SkipList.insertNode e.mem } := by
  have hmem : ∀ l : List Entry, Newer e.mem.nodes l → Newer es l →
      Newer (es.foldl SkipList.insertNode e.mem).nodes l := by
    intro l hl hes z hz
    rcases SkipList.mem_insertAll.mp hz with hz | hz
    · exact hes z hz
    · exact hl z hz
  exact ⟨h.wf, hmem _ h.memImm himm, fun t ht => hmem _ (h.memTable t ht) (htab t ht), h.immTable,
    h.level0, h.across, h.apart⟩

theorem Ordered.rotate (h : Ordered cfg e) (hr : e.rotate = some e') : Ordered cfg e' := by
  unfold Engine.rotate at hr
  split at hr
  · cases hr
  · cases hr
    refine ⟨h.wf, ?_, ?_, h.memTable, h.level0, h.across, h.apart⟩
    · intro x hx
      cases hx
    · intro t _ x hx
      cases hx

theorem mem_rotate (hr : e.rotate = some e') {x : Entry} :
    x ∈ e'.layers.flatten ↔ x ∈ e.layers.flatten := by
  unfold Engine.rotate at hr
  split at hr
  · cases hr
  · rename_i himm
    cases hr
    rw [mem_layers, mem_layers]
    simp only [immNodes, himm, SkipList.newSkipList, SkipList.seedVersion, List.not_mem_nil,
      false_or]

theorem executeFlush_cases (hf : e.executeFlush cfg = some e')
    (hshort : ∀ x ∈ e.immNodes, x.key.length ≤ maxIndexKey) :
    (e.immNodes = [] ∧ e' = { e with imm := none }) ∨
      ∃ t, t.WF cfg.xxhash ∧ (∀ y, y ∈ t.entries ↔ ∃ x ∈ e.immNodes, y = x.stored) ∧
        e' = { e with imm := none, levels := setLevel e.levels 0 (e.levels 0 ++ [t]) } := by
  obtain ⟨m, seq, himm, hcases⟩ := executeFlush_spec hf
  have hnodes : e.immNodes = m.nodes := by rw [immNodes, himm]
  rw [hnodes] at hshort ⊢
  rcases hcases with ⟨heq, hempty | hfails⟩ | ⟨t, hwf, _, hent, heq⟩
  · exact Or.inl ⟨hempty, heq⟩
  · -- a table of short keys is always created
    obtain ⟨t, ht⟩ := @Table.createAtLevel_isSome cfg.xxhash e.now seq 0 m.allVersions
      fun x hx => hshort x (SkipList.mem_allVersions.mp hx)
    rw [hfails] at ht
    cases ht
  · exact Or.inr ⟨t, hwf, fun y => mem_flushed hent, heq⟩

theorem Ordered.dropImm (h : Ordered cfg e) : Ordered cfg { e with imm := none } := by
  refine ⟨h.wf, ?_, h.memTable, ?_, h.level0, h.across, h.apart⟩
  · intro x _ y hy
    cases hy
  · intro t _ x hx
    cases hx

theorem Ordered.flush (h : Ordered cfg e) (hwf : t.WF cfg.xxhash)
    (hent : ∀ y, y ∈ t.entries ↔ ∃ x ∈ e.immNodes, y = x.stored) :
    Ordered cfg { e with imm := none, levels := setLevel e.levels 0 (e.levels 0 ++ [t]) } := by
  have habove : ∀ l : List Entry, Newer l e.immNodes → Newer l t.entries := by
    intro l hl x hx y hy hk
    obtain ⟨z, hz, rfl⟩ := (hent y).mp hy
    simpa using hl x hx z hz (by simpa using hk)
  have hbelow : ∀ l : List Entry, Newer e.immNodes l → Newer t.entries l := by
    intro l hl y hy x hx hk
    obtain ⟨z, hz, rfl⟩ := (hent y).mp hy
    simpa using hl z hz x hx (by simpa using hk)
  refine ⟨?_, ?_, ?_, ?_, ?_, ?_, ?_⟩
  · intro u hu
    rcases mem_allTables_flush.mp hu with hu | rfl
    · exact h.wf u hu
    · exact hwf
  · intro x _ y hy
    cases hy
  · intro u hu
    rcases mem_allTables_flush.mp hu with hu | rfl
    · exact h.memTable u hu
    · exact habove _ h.memImm
  · intro u _ x hx
    cases hx
  · show List.Pairwise _ (setLevel e.levels 0 (e.levels 0 ++ [t]) 0)
    rw [setLevel_same]
    refine List.pairwise_append.mpr ⟨h.level0, List.pairwise_singleton _ _, ?_⟩
    intro u hu v hv
    rw [List.mem_singleton.mp hv]
    exact hbelow _ (h.immTable u (mem_allTables.mpr ⟨0, by decide, hu⟩))
  · intro l k hlk hk u hu v hv
    have hvk : v ∈ e.levels k := by
      rcases mem_setLevel hv with ⟨h0, _⟩ | ⟨_, hv⟩
      · omega
      · exact hv
    rcases mem_setLevel hu with ⟨_, hu⟩ | ⟨_, hu⟩
    · rcases List.mem_append.mp hu with hu | hu
      · exact h.across 0 k (by omega) hk u hu v hvk
      · rw [List.mem_singleton.mp hu]
        exact hbelow _ (h.immTable v (mem_allTables.mpr ⟨k, hk, hvk⟩))
    · exact h.across l k hlk hk u hu v hvk
  · intro l h1 hl
    show List.Pairwise _ (setLevel e.levels 0 (e.levels 0 ++ [t]) l)
    rw [setLevel_other (by omega : l ≠ 0)]
    exact h.apart l h1 hl

theorem covers_flush {m : Nat} {gone : Entry → Prop} {log : List Entry} {now : Int}
    (hc : Covers Entry.key Entry.version (Entry.ReadsAs now) gone m log e.layers.flatten)
    (hent : ∀ y, y ∈ t.entries ↔ ∃ x ∈ e.immNodes, y = x.stored) :
    Covers Entry.key Entry.version (Entry.ReadsAs now) gone m log (layers
      { e with imm := none, levels := setLevel e.levels 0 (e.levels 0 ++ [t]) }).flatten := by
  refine hc.rewrite e.immNodes t.entries
    (e.mem.nodes ++ ((allTables e.levels).map Table.entries).flatten) ?_ ?_ ?_ ?_
  · intro x
    rw [mem_layers]
    simp only [List.mem_append, List.mem_flatten, List.mem_map, exists_exists_and_eq_and]
    exact or_left_comm
  · intro x
    rw [mem_layers]
    simp only [immNodes, mem_allTables_flush, List.not_mem_nil, false_or, List.mem_append,
      List.mem_flatten, List.mem_map, exists_exists_and_eq_and]
    constructor
    · rintro (hx | ⟨u, hu | rfl, hx⟩)
      · exact Or.inr (Or.inl hx)
      · exact Or.inr (Or.inr ⟨u, hu, hx⟩)
      · exact Or.inl hx
    · rintro (hx | hx | ⟨u, hu, hx⟩)
      · exact Or.inr ⟨t, Or.inr rfl, hx⟩
      · exact Or.inl hx
      · exact Or.inr ⟨u, Or.inl hu, hx⟩
  · intro y hy
    obtain ⟨x, hx, rfl⟩ := (hent y).mp hy
    refine ⟨x, hx, Entry.stored_key x, Entry.stored_version x, ?_⟩
    intro g hg t ht
    rw [Entry.stored_answer, hg t ht]
  · intro x hx _
    exact Or.inl ⟨x.stored, (hent _).mpr ⟨x, hx, rfl⟩, Entry.stored_key x, Entry.stored_version x⟩

/-- What of the other tables above the target shares no key with the picked ones. -/
structure Movable (e : Engine) (source target : Nat) (picked : List Table) : Prop where
  lt : source < target
  target_lt : target < maxLevels
  sub : ∀ p ∈ picked, p ∈ e.levels source
  rest : ∀ t ∈ e.levels source, t ∉ picked → ∀ p ∈ picked, KeysApart t p
  between : ∀ l, source < l → l < target → ∀ t ∈ e.levels l, ∀ p ∈ picked, KeysApart t p

theorem movable_table (h : Ordered cfg e) {lvl : Nat} {pick : Table} (h1 : 1 ≤ lvl)
    (hlt : lvl + 1 < maxLevels) (hp : pick ∈ e.levels lvl) : Movable e lvl (lvl + 1) [pick] where
  lt := Nat.lt_succ_self lvl
  target_lt := hlt
  sub := by simpa using hp
  rest := by
    intro t ht hnot p hp'
    rw [List.mem_singleton] at hnot hp'
    rw [hp']
    exact h.apart_of_ne h1 (by omega) ht hp hnot
  between := by
    intro l h1 h2
    omega

theorem movable_level0
    (hclear : ∀ l, 1 ≤ l → l < findBaseLevel cfg e.levels → ∀ t ∈ e.levels l, ∀ p ∈ e.levels 0,
      KeysApart t p) : Movable e 0 (findBaseLevel cfg e.levels) (e.levels 0) where
  lt := (findBaseLevel_bounds e.levels).1
  target_lt := (findBaseLevel_bounds e.levels).2
  sub := fun _ hp => hp
  rest := fun _ ht hnot => absurd ht hnot
  between := fun l h0 hlt => hclear l h0 hlt

section
variable {source target : Nat} {picked : List Table}

def inputs (e : Engine) (target : Nat) (picked : List Table) : List Table :=
  overlapping e.levels target picked ++ picked

variable {t : Table} {l : Nat}

theorem mem_inputs : t ∈ e.inputs target picked ↔
    (t ∈ e.levels target ∧ ∃ p ∈ picked, rangesOverlap p t = true) ∨ t ∈ picked := by
  simp [inputs, overlapping]

theorem input_level (hsub : ∀ p ∈ picked, p ∈ e.levels source) (ht : t ∈ e.inputs target picked) :
    t ∈ e.levels target ∨ t ∈ e.levels source := by
  rcases mem_inputs.mp ht with ht | ht
  · exact Or.inl ht.1
  · exact Or.inr (hsub t ht)

theorem input_allTables (hlt : source < target) (htl : target < maxLevels)
    (hsub : ∀ p ∈ picked, p ∈ e.levels source) (ht : t ∈ e.inputs target picked) :
    t ∈ allTables e.levels := by
  rcases input_level hsub ht with h | h
  · exact mem_allTables.mpr ⟨target, htl, h⟩
  · exact mem_allTables.mpr ⟨source, Nat.lt_trans hlt htl, h⟩

theorem Movable.input_table (hm : Movable e source target picked) (ht : t ∈ e.inputs target picked) :
    t ∈ allTables e.levels :=
  input_allTables hm.lt hm.target_lt hm.sub ht

/-! ### The tables afterwards -/

theorem moveTables_source (h : source ≠ target) :
    (e.moveTables cfg source target picked).levels source =
      (e.levels source).filter fun t => decide (t ∉ picked) := by
  simp only [moveTables, setLevel_same, setLevel_other h]

theorem moveTables_target (h : source ≠ target) :
    ((e.moveTables cfg source target picked).levels target).Perm
      ((e.levels target).filter (fun t => decide (t ∉ overlapping e.levels target picked)) ++
        (e.written cfg target picked).1) := by
  simp only [moveTables, setLevel_other h.symm, setLevel_same]
  exact List.perm_insertionSort _ _

theorem moveTables_other (hs : l ≠ source) (ht : l ≠ target) :
    (e.moveTables cfg source target picked).levels l = e.levels l := by
  simp only [moveTables, setLevel_other hs, setLevel_other ht]

section
variable (hm : Movable e source target picked)
include hm

theorem mem_moveTables (h : Ordered cfg e) (hl : l < maxLevels) :
    t ∈ (e.moveTables cfg source target picked).levels l ↔
      t ∈ e.levels l ∧ t ∉ e.inputs target picked ∨
        l = target ∧ t ∈ (e.written cfg target picked).1 := by
  have hne : source ≠ target := Nat.ne_of_lt hm.lt
  have hsl : source < maxLevels := Nat.lt_trans hm.lt hm.target_lt
  -- which inputs can be in level `l`
  have hpick : t ∈ e.levels l → t ∈ picked → l = source :=
    fun h1 h2 => h.level_unique hl hsl h1 (hm.sub t h2)
  have hover : t ∈ e.levels l → t ∈ overlapping e.levels target picked → l = target :=
    fun h1 h2 => h.level_unique hl hm.target_lt h1 (List.mem_of_mem_filter h2)
  have hin : t ∈ e.inputs target picked ↔ t ∈ overlapping e.levels target picked ∨ t ∈ picked :=
    List.mem_append
  by_cases hls : l = source
  · subst hls
    rw [moveTables_source hne, List.mem_filter, decide_eq_true_eq, hin]
    constructor
    · rintro ⟨h1, h2⟩
      exact Or.inl ⟨h1, fun h3 => h3.elim (fun h3 => hne (hover h1 h3)) h2⟩
    · rintro (⟨h1, h2⟩ | ⟨h1, _⟩)
      · exact ⟨h1, fun h3 => h2 (Or.inr h3)⟩
      · exact absurd h1 hne
  · by_cases hlt : l = target
    · subst hlt
      rw [(moveTables_target hne).mem_iff, List.mem_append, List.mem_filter, decide_eq_true_eq, hin]
      refine or_congr (and_congr_right fun h1 => ?_) (by simp)
      constructor
      · exact fun h2 h3 => h3.elim h2 fun h3 => hls (hpick h1 h3)
      · exact fun h2 h3 => h2 (Or.inl h3)
    · rw [moveTables_other hls hlt, hin]
      constructor
      · exact fun h1 => Or.inl ⟨h1, fun h3 => h3.elim (fun h3 => hlt (hover h1 h3))
          fun h3 => hls (hpick h1 h3)⟩
      · rintro (⟨h1, _⟩ | ⟨h1, _⟩)
        · exact h1
        · exact absurd h1 hlt

theorem mem_allTables_move (h : Ordered cfg e) :
    t ∈ allTables (e.moveTables cfg source target picked).levels ↔
      t ∈ allTables e.levels ∧ t ∉ e.inputs target picked ∨
        t ∈ (e.written cfg target picked).1 := by
  constructor
  · intro ht
    obtain ⟨l, hl, htl⟩ := mem_allTables.mp ht
    rcases (mem_moveTables hm h hl).mp htl with ⟨h1, h2⟩ | ⟨_, h2⟩
    · exact Or.inl ⟨mem_allTables.mpr ⟨l, hl, h1⟩, h2⟩
    · exact Or.inr h2
  · rintro (⟨h1, h2⟩ | h1)
    · obtain ⟨l, hl, htl⟩ := mem_allTables.mp h1
      exact mem_allTables.mpr ⟨l, hl, (mem_moveTables hm h hl).mpr (Or.inl ⟨htl, h2⟩)⟩
    · exact mem_allTables.mpr
        ⟨target, hm.target_lt, (mem_moveTables hm h hm.target_lt).mpr (Or.inr ⟨rfl, h1⟩)⟩

theorem Movable.iters_sorted (h : Ordered cfg e) :
    ∀ l ∈ (e.inputs target picked).map Table.entries, VersionSorted l := by
  intro l hl
  obtain ⟨t, ht, rfl⟩ := List.mem_map.mp hl
  exact (h.wf t (hm.input_table ht)).sorted

end

theorem mem_iters {x : Entry} : x ∈ ((e.inputs target picked).map Table.entries).flatten ↔
    ∃ t ∈ e.inputs target picked, x ∈ t.entries := by
  simp only [List.mem_flatten, List.mem_map, exists_exists_and_eq_and]

theorem Movable.written_entry (hm : Movable e source target picked) (h : Ordered cfg e)
    (ht : t ∈ (e.written cfg target picked).1) {y : Entry} (hy : y ∈ t.entries) :
    ∃ u ∈ e.inputs target picked, ∃ x ∈ u.entries, y = (x.compacted e.now).stored := by
  obtain ⟨x, hx, heq⟩ := drain_sound (hm.iters_sorted h) ht hy
  obtain ⟨u, hu, hxu⟩ := mem_iters.mp hx
  exact ⟨u, hu, x, hxu, heq⟩

/-- Tables that go down from `source` to `target`, where those they meet give way with them to `outs`: what is
read before the target and stays is newer than what goes, and nothing new is written. -/
structure Sinks (cfg : Config) (e : Engine) (source target : Nat) (picked outs : List Table) : Prop where
  lt : source < target
  target_lt : target < maxLevels
  sub : ∀ p ∈ picked, p ∈ e.levels source
  above : ∀ l, source ≤ l → l < target → ∀ t ∈ e.levels l, t ∉ picked → ∀ p ∈ picked, Newer t.entries p.entries
  outs_wf : ∀ t ∈ outs, t.WF cfg.xxhash
  outs_apart : outs.Pairwise KeysApart
  origin : ∀ t ∈ outs, ∀ y ∈ t.entries, ∃ u ∈ e.inputs target picked, ∃ x ∈ u.entries,
    y.key = x.key ∧ y.version = x.version

namespace Sinks

variable {outs : List Table} (hm : Sinks cfg e source target picked outs)
include hm

variable {u t : Table}

theorem input_table (hu : u ∈ e.inputs target picked) : u ∈ allTables e.levels :=
  input_allTables hm.lt hm.target_lt hm.sub hu

theorem newer_outs {l : List Entry} (hl : ∀ u ∈ e.inputs target picked, Newer l u.entries)
    (ht : t ∈ outs) : Newer l t.entries := by
  intro x hx y hy hk
  obtain ⟨u, hu, z, hz, hzk, hzv⟩ := hm.origin t ht y hy
  rw [hzv]
  exact hl u hu x hx z hz (hk.trans hzk)

theorem outs_newer {l : List Entry} (hl : ∀ u ∈ e.inputs target picked, Newer u.entries l)
    (ht : t ∈ outs) : Newer t.entries l := by
  intro y hy x hx hk
  obtain ⟨u, hu, z, hz, hzk, hzv⟩ := hm.origin t ht y hy
  rw [hzv]
  exact hl u hu z hz x hx (hzk.symm.trans hk)

theorem stays_newer (h : Ordered cfg e) {l : Nat} (hl : l < target) (ht : t ∈ e.levels l)
    (hnot : l = source → t ∉ picked) (hu : u ∈ e.inputs target picked) :
    Newer t.entries u.entries := by
  have hsl := Nat.lt_trans hm.lt hm.target_lt
  rcases mem_inputs.mp hu with ⟨hu, _⟩ | hu
  · exact h.across l target hl hm.target_lt t ht u hu
  · rcases Nat.lt_or_ge l source with hls | hls
    · exact h.across l source hls hsl t ht u (hm.sub u hu)
    · refine hm.above l hls hl t ht (fun hp => ?_) u hu
      exact hnot (h.level_unique (Nat.lt_trans hl hm.target_lt) hsl ht (hm.sub t hp)) hp

theorem stays_apart (h : Ordered cfg e) (ht : t ∈ e.levels target)
    (hnot : t ∉ overlapping e.levels target picked) (hu : u ∈ e.inputs target picked) :
    KeysApart t u := by
  have hlt := hm.lt
  rcases List.mem_append.mp hu with hu | hup
  · refine h.apart_of_ne (by omega) hm.target_lt ht (List.mem_of_mem_filter hu) ?_
    rintro rfl
    exact hnot hu
  · intro x hx y hy hk
    refine hnot (List.mem_filter.mpr ⟨ht, List.any_eq_true.mpr ⟨u, hup, ?_⟩⟩)
    exact rangesOverlap_of_key (h.wf u (hm.input_table hu)).sorted
      (h.wf t (mem_allTables.mpr ⟨target, hm.target_lt, ht⟩)).sorted hy hx hk.symm

theorem target_apart (h : Ordered cfg e) : ((e.levels target).filter (fun t =>
    decide (t ∉ overlapping e.levels target picked)) ++ outs).Pairwise KeysApart := by
  have hpos : 1 ≤ target := Nat.lt_of_le_of_lt (Nat.zero_le _) hm.lt
  refine List.pairwise_append.mpr
    ⟨(h.apart target hpos hm.target_lt).sublist List.filter_sublist, hm.outs_apart, ?_⟩
  intro t ht u hu x hx y hy hk
  obtain ⟨ht, hnot⟩ := List.mem_filter.mp ht
  obtain ⟨v, hv, z, hz, hzk, _⟩ := hm.origin u hu y hy
  exact hm.stays_apart h ht (of_decide_eq_true hnot) hv x hx z hz (hk.trans hzk)

end Sinks

theorem Ordered.sink (h : Ordered cfg e) {outs : List Table} (hm : Sinks cfg e source target picked outs)
    {e' : Engine} (hmem : e'.mem = e.mem) (himm : e'.immNodes = e.immNodes)
    (hs : e'.levels source = (e.levels source).filter fun t => decide (t ∉ picked))
    (ht : (e'.levels target).Perm
      ((e.levels target).filter (fun t => decide (t ∉ overlapping e.levels target picked)) ++ outs))
    (ho : ∀ l, l ≠ source → l ≠ target → e'.levels l = e.levels l) : Ordered cfg e' := by
  have hlt := hm.lt
  -- a table of level `l` was there before and stayed, or it was written to the target
  have hcases : ∀ l t, t ∈ e'.levels l →
      t ∈ e.levels l ∧ (l = source → t ∉ picked) ∨ l = target ∧ t ∈ outs := by
    intro l t hin
    by_cases hls : l = source
    · subst hls
      rw [hs] at hin
      obtain ⟨h1, h2⟩ := List.mem_filter.mp hin
      exact Or.inl ⟨h1, fun _ => of_decide_eq_true h2⟩
    · by_cases hlt' : l = target
      · subst hlt'
        rcases List.mem_append.mp (ht.mem_iff.mp hin) with hin | hin
        · exact Or.inl ⟨List.mem_of_mem_filter hin, fun heq => absurd heq hls⟩
        · exact Or.inr ⟨rfl, hin⟩
      · rw [ho l hls hlt'] at hin
        exact Or.inl ⟨hin, fun heq => absurd heq hls⟩
  have htab : ∀ t ∈ allTables e'.levels, t ∈ allTables e.levels ∨ t ∈ outs := by
    intro t hin
    obtain ⟨l, hl, htl⟩ := mem_allTables.mp hin
    exact (hcases l t htl).imp (fun hx => mem_allTables.mpr ⟨l, hl, hx.1⟩) And.right
  refine ⟨?_, ?_, ?_, ?_, ?_, ?_, ?_⟩
  · exact fun t hin => (htab t hin).elim (h.wf t) (hm.outs_wf t)
  · rw [hmem, himm]
    exact h.memImm
  · intro t hin
    rw [hmem]
    exact (htab t hin).elim (h.memTable t) fun hout =>
      hm.newer_outs (fun u hu => h.memTable u (hm.input_table hu)) hout
  · intro t hin
    rw [himm]
    exact (htab t hin).elim (h.immTable t) fun hout =>
      hm.newer_outs (fun u hu => h.immTable u (hm.input_table hu)) hout
  · by_cases h0 : 0 = source
    · subst h0
      rw [hs]
      exact h.level0.sublist List.filter_sublist
    · rw [ho 0 h0 (by omega)]
      exact h.level0
  · intro l m hlm hmax t hin u hiu
    rcases hcases l t hin with ⟨htl, hnot⟩ | ⟨rfl, hout⟩
    · rcases hcases m u hiu with ⟨hum, _⟩ | ⟨rfl, hout⟩
      · exact h.across l m hlm hmax t htl u hum
      · exact hm.newer_outs (fun v hv => hm.stays_newer h hlm htl hnot hv) hout
    · rcases hcases m u hiu with ⟨hum, _⟩ | ⟨rfl, _⟩
      · refine hm.outs_newer (fun v hv => ?_) hout
        rcases input_level hm.sub hv with hv | hv
        · exact h.across l m hlm hmax v hv u hum
        · exact h.across source m (Nat.lt_trans hlt hlm) hmax v hv u hum
      · exact absurd hlm (Nat.lt_irrefl _)
  · intro l h1 hl
    by_cases hlt' : l = target
    · subst hlt'
      rw [ht.pairwise_iff (fun hab => hab.symm)]
      exact hm.target_apart h
    · by_cases hls : l = source
      · subst hls
        rw [hs]
        exact (h.apart l h1 hl).sublist List.filter_sublist
      · rw [ho l hls hlt']
        exact h.apart l h1 hl

section
variable (hm : Movable e source target picked)
include hm

theorem Movable.sinks (h : Ordered cfg e) :
    Sinks cfg e source target picked (e.written cfg target picked).1 where
  lt := hm.lt
  target_lt := hm.target_lt
  sub := hm.sub
  above := by
    intro l hl hlt t ht hnot p hp
    rcases Nat.eq_or_lt_of_le hl with rfl | hl
    · exact (hm.rest t ht hnot p hp).newer
    · exact (hm.between l hl hlt t ht p hp).newer
  outs_wf := fun _ ht => (drain_wf (hm.iters_sorted h) ht).1
  outs_apart := (drain_pairwise (hm.iters_sorted h)).imp fun htu x hx y hy => (htu.2 x hx y hy).ne
  origin := by
    intro t ht y hy
    obtain ⟨u, hu, x, hx, rfl⟩ := hm.written_entry h ht hy
    exact ⟨u, hu, x, hx, by simp, by simp⟩

theorem Movable.rest_newer (h : Ordered cfg e) (hl : l < target) (ht : t ∈ e.levels l)
    (hnot : t ∉ picked) {u : Table} (hu : u ∈ e.inputs target picked) : Newer t.entries u.entries :=
  (hm.sinks h).stays_newer h hl ht (fun _ => hnot) hu

theorem Movable.rest_apart (h : Ordered cfg e) (ht : t ∈ e.levels target)
    (hnot : t ∉ e.inputs target picked) {u : Table} (hu : u ∈ e.inputs target picked) :
    KeysApart t u :=
  (hm.sinks h).stays_apart h ht (fun hin => hnot (List.mem_append_left _ hin)) hu

end

theorem Ordered.move (h : Ordered cfg e) (hm : Movable e source target picked) :
    Ordered cfg (e.moveTables cfg source target picked) :=
  have hne : source ≠ target := Nat.ne_of_lt hm.lt
  h.sink (hm.sinks h) rfl rfl (moveTables_source hne) (moveTables_target hne) fun _ => moveTables_other

end

end Engine
end AkwaDB
