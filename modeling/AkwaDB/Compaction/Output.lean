import AkwaDB.Compaction.Drain
import AkwaDB.Lib.Layers

/-!
# AkwaDB.Compaction.Output

What the tables written by a compaction hold, for input tables in version order.

- `drain_wf`, `drain_pairwise`: they are well formed, on the target level, freshly numbered, and
  apart from each other by key.
- `drain_group`: a table that holds one version of a key holds all that were kept of it.
- `drain_visible`: every version some reader at or above `minReadTs` sees is written again, unless
  the key is dropped as dead.
-/

namespace AkwaDB

namespace Entry

@[simp] theorem compacted_key (now : Int) (x : Entry) : (x.compacted now).key = x.key := rfl

@[simp] theorem compacted_version (now : Int) (x : Entry) :
    (x.compacted now).version = x.version := rfl

theorem compacted_of_live {now : Int} {x : Entry} (h : x.dead now = false) :
    (x.compacted now).stored = x := by
  have hd : x.deleted = false := by
    simp only [dead, Bool.or_eq_false_iff] at h
    exact h.1
  have : x.compacted now = x := by
    cases x
    simp_all [compacted]
  rw [this, stored_of_live hd]

theorem compacted_dead {now t : Int} (x : Entry) (h : now ≤ t) :
    (x.compacted now).stored.dead t = x.dead t := by
  rw [stored_dead]
  change (x.dead now || x.expired t) = (x.deleted || x.expired t)
  by_cases hd : x.dead now = true
  · have := dead_mono h hd
    rw [hd, Bool.true_or]
    exact this.symm
  · have hd' : x.dead now = false := by simpa using hd
    have hx : x.deleted = false := by
      simp only [dead, Bool.or_eq_false_iff] at hd'
      exact hd'.1
    rw [hd', hx]

def ReadsAs (now : Int) (x h : Entry) : Prop := ∀ t, now ≤ t → x.answer t = h.answer t

theorem stored_answer (x : Entry) (t : Int) : x.stored.answer t = x.answer t := by
  unfold answer
  rw [stored_dead]
  split
  · rfl
  · rename_i h
    have hd : x.deleted = false := by
      simp only [dead, Bool.or_eq_true, not_or, Bool.not_eq_true] at h
      exact h.1
    rw [stored_of_live hd]

theorem compacted_answer {now t : Int} (x : Entry) (h : now ≤ t) :
    (x.compacted now).stored.answer t = x.answer t := by
  unfold answer
  rw [compacted_dead x h]
  split
  · rfl
  · rename_i hd
    have hnow : x.dead now = false := by
      by_contra hne
      exact hd (dead_mono h (by simpa using hne))
    rw [compacted_of_live hnow]

theorem readsAs_gone {now : Int} {x h : Entry} (hr : ReadsAs now x h) (hx : x.dead now = true) :
    h.dead now = true := by
  have := hr now (le_refl now)
  unfold answer at this
  rw [if_pos hx] at this
  split at this
  · assumption
  · cases this

end Entry

section
variable {env : DrainEnv} {levels : LevelTables} {level : Nat} {iters : List (List Entry)}

def byVersion (group : List Entry) : List Entry :=
  group.insertionSort fun a b => b.version ≤ a.version

theorem mem_byVersion {group : List Entry} {x : Entry} : x ∈ byVersion group ↔ x ∈ group :=
  (List.perm_insertionSort _ group).mem_iff

theorem byVersion_pairwise (group : List Entry) :
    (byVersion group).Pairwise fun a b => b.version ≤ a.version := by
  have : Std.Total fun a b : Entry => b.version ≤ a.version := ⟨fun a b => Nat.le_total _ _⟩
  have : IsTrans Entry fun a b => b.version ≤ a.version := ⟨fun _ _ _ h1 h2 => Nat.le_trans h2 h1⟩
  exact List.pairwise_insertionSort _ group

theorem keepGroup_eq_some {group kept : List Entry}
    (h : keepGroup env levels level group = some kept) :
    kept = (keepVersions env.minReadTs none false (byVersion group)).map
      (Entry.compacted env.now) := by
  simp only [keepGroup] at h
  split at h
  · cases h
  · exact (Option.some.inj h).symm

theorem dropsGroup_eq_true {kept : List Entry} (h : dropsGroup env levels level kept = true) :
    ∃ z, kept = [z] ∧ z.dead env.now = true ∧ level = maxLevels - 1 ∧ env.nextTs ≤ env.minReadTs ∧
      env.gcDiscardTs = 0 ∧ keyMayExistBelow levels level z.key = false := by
  unfold dropsGroup at h
  split at h
  · rename_i z
    simp only [Bool.and_eq_true, decide_eq_true_eq, Bool.not_eq_true', decide_eq_false_iff_not,
      Nat.not_lt] at h
    obtain ⟨⟨⟨⟨hdead, hlev⟩, hts⟩, hgc⟩, hbelow⟩ := h
    exact ⟨z, rfl, hdead, hlev, hts, hgc, hbelow⟩
  · cases h

theorem keepGroup_eq_none {group : List Entry} (h : keepGroup env levels level group = none) :
    level = maxLevels - 1 ∧ ∃ x, keepVersions env.minReadTs none false (byVersion group) = [x] ∧
      x.dead env.now = true := by
  simp only [keepGroup] at h
  split at h
  · rename_i hd
    obtain ⟨x, hx, hdead, hlev, _⟩ := dropsGroup_eq_true hd
    exact ⟨hlev, x, hx, hdead⟩
  · cases h

theorem mem_keptGroup {group kept : List Entry} (h : keepGroup env levels level group = some kept)
    {y : Entry} (hy : y ∈ kept) : ∃ x ∈ group, y = x.compacted env.now := by
  rw [keepGroup_eq_some h] at hy
  obtain ⟨x, hx, rfl⟩ := List.mem_map.mp hy
  exact ⟨x, mem_byVersion.mp ((keepVersions_sublist _ _ _ _).subset hx), rfl⟩

theorem mem_merged {x : Entry} : x ∈ kmerge Entry.before iters ↔ x ∈ iters.flatten :=
  (kmerge_perm iters).mem_iff

theorem mem_of_mem_group {group : List Entry} (hg : group ∈ groupByKey (kmerge Entry.before iters))
    {x : Entry} (hx : x ∈ group) : x ∈ iters.flatten := by
  rw [← mem_merged, ← groupByKey_flatten (kmerge Entry.before iters)]
  exact List.mem_flatten.mpr ⟨group, hg, hx⟩

theorem exists_group {x : Entry} (hx : x ∈ iters.flatten) :
    ∃ group ∈ groupByKey (kmerge Entry.before iters), x ∈ group ∧ ∀ y ∈ group, y.key = x.key := by
  rw [← mem_merged, ← groupByKey_flatten (kmerge Entry.before iters)] at hx
  obtain ⟨group, hg, hxg⟩ := List.mem_flatten.mp hx
  exact ⟨group, hg, hxg, fun y hy => groupByKey_key group hg y hy x hxg⟩

theorem keptGroups_sound {kept : List Entry} (hk : kept ∈ keptGroups env levels level iters)
    {y : Entry} (hy : y ∈ kept) : ∃ x ∈ iters.flatten, y = x.compacted env.now := by
  obtain ⟨group, hg, hkeep⟩ := List.mem_filterMap.mp hk
  obtain ⟨x, hx, rfl⟩ := mem_keptGroup hkeep hy
  exact ⟨x, mem_of_mem_group hg hx, rfl⟩

theorem keptGroups_sorted {kept : List Entry} (hk : kept ∈ keptGroups env levels level iters) :
    VersionSorted kept ∧ ∀ x ∈ kept, ∀ y ∈ kept, x.key = y.key := by
  obtain ⟨group, hg, hkeep⟩ := List.mem_filterMap.mp hk
  have hkey : ∀ x ∈ kept, ∀ y ∈ kept, x.key = y.key := by
    intro x hx y hy
    obtain ⟨x', hx', rfl⟩ := mem_keptGroup hkeep hx
    obtain ⟨y', hy', rfl⟩ := mem_keptGroup hkeep hy
    exact groupByKey_key group hg x' hx' y' hy'
  have hver : kept.Pairwise fun a b => b.version ≤ a.version := by
    rw [keepGroup_eq_some hkeep]
    exact List.pairwise_map.mpr
      ((byVersion_pairwise group).sublist (keepVersions_sublist _ _ _ _))
  refine ⟨hver.imp_of_mem ?_, hkey⟩
  intro a b ha hb hab
  exact Entry.le_iff.mpr ⟨(hkey a ha b hb).le, fun _ => hab⟩

variable {xxhash : Bytes → UInt64} {seq : Nat} {t : Table} (hs : ∀ l ∈ iters, VersionSorted l)
include hs

theorem mem_group_of_key {group : List Entry} (hg : group ∈ groupByKey (kmerge Entry.before iters))
    {x y : Entry} (hx : x ∈ group) (hy : y ∈ iters.flatten) (hk : y.key = x.key) : y ∈ group := by
  obtain ⟨group', hg', hy', -⟩ := exists_group hy
  rwa [(groupByKey_apart (versionSorted_kmerge hs)).eq_of_key hg' hg hy' hx hk] at hy'

theorem keptGroups_apart : BlocksApart (keptGroups env levels level iters) := by
  refine List.Pairwise.filterMap _ ?_ (groupByKey_apart (versionSorted_kmerge hs))
  intro g h hlt kept hkept kept' hkept' x hx y hy
  obtain ⟨x', hx', rfl⟩ := mem_keptGroup hkept hx
  obtain ⟨y', hy', rfl⟩ := mem_keptGroup hkept' hy
  exact hlt x' hx' y' hy'

theorem keptGroups_unique {kept kept' : List Entry} (hk : kept ∈ keptGroups env levels level iters)
    (hk' : kept' ∈ keptGroups env levels level iters) {x y : Entry} (hx : x ∈ kept)
    (hy : y ∈ kept') (hxy : x.key = y.key) : kept = kept' :=
  (keptGroups_apart hs).eq_of_key hk hk' hx hy hxy

theorem keptGroup_of_visible {x : Entry} (hx : x ∈ iters.flatten)
    (hv : Visible Entry.key Entry.version env.minReadTs iters.flatten x) :
    ∃ z ∈ iters.flatten, z.key = x.key ∧ z.version = x.version ∧
      ((∃ kept ∈ keptGroups env levels level iters, z.compacted env.now ∈ kept) ∨
        (z.dead env.now = true ∧ level = maxLevels - 1 ∧
          ∀ kept ∈ keptGroups env levels level iters, ∀ y ∈ kept, y.key ≠ x.key)) := by
  have hsort := versionSorted_kmerge hs
  obtain ⟨group, hg, hxg, hkey⟩ := exists_group hx
  obtain ⟨z, hz, hzv⟩ := keepVersions_visible (m := env.minReadTs) (byVersion_pairwise group)
    (mem_byVersion.mpr hxg) (by
      intro y hy hlt
      have hyg := mem_byVersion.mp hy
      exact hv y (mem_of_mem_group hg hyg) (hkey y hyg) hlt)
  have hzg : z ∈ group := mem_byVersion.mp ((keepVersions_sublist _ _ _ _).subset hz)
  refine ⟨z, mem_of_mem_group hg hzg, hkey z hzg, hzv, ?_⟩
  cases hk : keepGroup env levels level group with
  | some kept =>
    refine Or.inl ⟨kept, List.mem_filterMap.mpr ⟨group, hg, hk⟩, ?_⟩
    rw [keepGroup_eq_some hk]
    exact List.mem_map_of_mem hz
  | none =>
    obtain ⟨hbottom, w, hw, hdead⟩ := keepGroup_eq_none hk
    rw [hw] at hz
    rw [List.mem_singleton.mp hz]
    refine Or.inr ⟨hdead, hbottom, ?_⟩
    intro kept hkept y hy hyk
    obtain ⟨group', hg', hk'⟩ := List.mem_filterMap.mp hkept
    obtain ⟨y', hy', rfl⟩ := mem_keptGroup hk' hy
    -- a kept entry of the key would come from the same group, which was dropped
    have hsame := (groupByKey_apart hsort).eq_of_key hg' hg hy' hxg hyk
    rw [hsame, hk] at hk'
    cases hk'

theorem keptGroups_visible {kept : List Entry} (hk : kept ∈ keptGroups env levels level iters)
    {y : Entry} (hy : y ∈ kept) :
    Visible Entry.key Entry.version env.minReadTs iters.flatten y := by
  obtain ⟨group, hg, hkeep⟩ := List.mem_filterMap.mp hk
  rw [keepGroup_eq_some hkeep] at hy
  obtain ⟨x, hx, rfl⟩ := List.mem_map.mp hy
  have hxg := mem_byVersion.mp ((keepVersions_sublist _ _ _ _).subset hx)
  intro z hz hzk hlt
  have hzg : z ∈ group := mem_group_of_key hs hg hxg hz hzk
  have hlt : x.version < z.version := hlt
  rcases keepVersions_kept (byVersion_pairwise group) (by simp) hx with hnew | ⟨_, hall⟩
  · exact hnew.trans hlt
  · exact hall z (mem_byVersion.mpr hzg) hlt

theorem chunk_sorted {chunks : List (List (List Entry))}
    (hc : chunks.flatten = keptGroups env levels level iters) {c : List (List Entry)}
    (hmem : c ∈ chunks) : VersionSorted c.flatten := by
  have hap := @keptGroups_apart env levels level iters hs
  rw [← hc] at hap
  have hcap := (List.pairwise_flatten.mp hap).1 c hmem
  refine List.pairwise_flatten.mpr ⟨?_, hcap.imp ?_⟩
  · intro g hg
    exact (keptGroups_sorted (by rw [← hc]; exact List.mem_flatten.mpr ⟨c, hmem, hg⟩)).1
  · intro g h hlt x hx y hy
    have := hlt x hx y hy
    exact Entry.le_iff.mpr ⟨this.le, fun he => absurd he this.ne'⟩

theorem chunks_apart {chunks : List (List (List Entry))}
    (hc : chunks.flatten = keptGroups env levels level iters) :
    BlocksApart (chunks.map List.flatten) := by
  have hap := @keptGroups_apart env levels level iters hs
  rw [← hc] at hap
  refine List.pairwise_map.mpr ((List.pairwise_flatten.mp hap).2.imp ?_)
  intro c d hlt x hx y hy
  obtain ⟨g, hg, hxg⟩ := List.mem_flatten.mp hx
  obtain ⟨g', hg', hyg⟩ := List.mem_flatten.mp hy
  exact hlt g hg g' hg' x hxg y hyg

section
variable (ht : t ∈ (drainMergedIterator xxhash env levels level seq iters).1)
include ht

theorem drain_table :
    ∃ c : List (List Entry), (∀ g ∈ c, g ∈ keptGroups env levels level iters) ∧
      t.WF xxhash ∧ t.entries = c.flatten.map Entry.stored ∧ t.level = level ∧ seq < t.seq ∧
      t.seq ≤ (drainMergedIterator xxhash env levels level seq iters).2 := by
  obtain ⟨chunks, hc, hne, heq⟩ := @drain_eq_buildTables xxhash env levels level seq iters
  rw [heq] at ht ⊢
  obtain ⟨n, d, hn, hn', hd, hcreate⟩ := mem_buildTables ht
  rw [List.length_map] at hn'
  obtain ⟨c, hcm, rfl⟩ := List.mem_map.mp hd
  obtain ⟨hwf, hent, hseq, hlev⟩ :=
    Table.createAtLevel_wf (chunk_sorted hs hc hcm) (hne c hcm) hcreate
  refine ⟨c, ?_, hwf, hent, hlev, by omega, by simp only; omega⟩
  intro g hg
  rw [← hc]
  exact List.mem_flatten.mpr ⟨c, hcm, hg⟩

theorem drain_wf :
    t.WF xxhash ∧ t.level = level ∧ seq < t.seq ∧
      t.seq ≤ (drainMergedIterator xxhash env levels level seq iters).2 := by
  obtain ⟨_, _, hwf, _, hlev, h1, h2⟩ := drain_table hs ht
  exact ⟨hwf, hlev, h1, h2⟩

theorem drain_group {y : Entry} (hy : y ∈ t.entries) :
    ∃ kept ∈ keptGroups env levels level iters, (∀ z ∈ kept, z.stored ∈ t.entries) ∧
      ∃ z ∈ kept, y = z.stored := by
  obtain ⟨c, hc, _, hent, _⟩ := drain_table hs ht
  rw [hent] at hy ⊢
  obtain ⟨z, hz, rfl⟩ := List.mem_map.mp hy
  obtain ⟨g, hg, hzg⟩ := List.mem_flatten.mp hz
  refine ⟨g, hc g hg, ?_, z, hzg, rfl⟩
  intro w hw
  exact List.mem_map.mpr ⟨w, List.mem_flatten.mpr ⟨g, hg, hw⟩, rfl⟩

theorem drain_sound {y : Entry} (hy : y ∈ t.entries) :
    ∃ x ∈ iters.flatten, y = (x.compacted env.now).stored := by
  obtain ⟨kept, hk, _, z, hz, rfl⟩ := drain_group hs ht hy
  obtain ⟨x, hx, rfl⟩ := keptGroups_sound hk hz
  exact ⟨x, hx, rfl⟩

end

theorem drain_kept (hlen : ∀ x ∈ iters.flatten, x.key.length ≤ maxIndexKey) {kept : List Entry}
    (hk : kept ∈ keptGroups env levels level iters) {y : Entry} (hy : y ∈ kept) :
    ∃ t ∈ (drainMergedIterator xxhash env levels level seq iters).1, y.stored ∈ t.entries := by
  obtain ⟨chunks, hc, hne, heq⟩ := @drain_eq_buildTables xxhash env levels level seq iters
  rw [← hc] at hk
  obtain ⟨c, hcm, hkc⟩ := List.mem_flatten.mp hk
  have hshort : ∀ y ∈ c.flatten, y.key.length ≤ maxIndexKey := by
    intro y hy
    obtain ⟨g, hg, hyg⟩ := List.mem_flatten.mp hy
    have hgk : g ∈ keptGroups env levels level iters := by
      rw [← hc]
      exact List.mem_flatten.mpr ⟨c, hcm, hg⟩
    obtain ⟨w, hw, rfl⟩ := keptGroups_sound hgk hyg
    exact hlen w hw
  obtain ⟨t, ht, hent⟩ := @exists_buildTables xxhash env.now level _ _ (List.mem_map_of_mem hcm)
    (chunk_sorted hs hc hcm) (hne c hcm) hshort seq
  rw [heq]
  refine ⟨t, ht, ?_⟩
  rw [hent]
  exact List.mem_map_of_mem (List.mem_flatten.mpr ⟨kept, hkc, hy⟩)

theorem drain_visible (hlen : ∀ x ∈ iters.flatten, x.key.length ≤ maxIndexKey) {x : Entry}
    (hx : x ∈ iters.flatten) (hv : Visible Entry.key Entry.version env.minReadTs iters.flatten x) :
    (∃ t ∈ (drainMergedIterator xxhash env levels level seq iters).1, ∃ y ∈ t.entries,
        y.key = x.key ∧ y.version = x.version) ∨
      ((∃ z ∈ iters.flatten, z.key = x.key ∧ z.version = x.version ∧ z.dead env.now = true) ∧
        level = maxLevels - 1 ∧
        ∀ t ∈ (drainMergedIterator xxhash env levels level seq iters).1, ∀ y ∈ t.entries,
          y.key ≠ x.key) := by
  obtain ⟨z, hz, hzk, hzv, hkeep⟩ := @keptGroup_of_visible env levels level iters hs x hx hv
  rcases hkeep with ⟨kept, hkept, hmem⟩ | ⟨hdead, hbottom, hdrop⟩
  · obtain ⟨t, ht, hent⟩ := @drain_kept env levels level iters xxhash seq hs hlen kept hkept _ hmem
    exact Or.inl ⟨t, ht, _, hent, by simpa using hzk, by simpa using hzv⟩
  · right
    refine ⟨⟨z, hz, hzk, hzv, hdead⟩, hbottom, ?_⟩
    intro t ht y hy
    obtain ⟨kept, hkept, _, w, hw, rfl⟩ := drain_group hs ht hy
    rw [Entry.stored_key]
    exact hdrop kept hkept w hw

theorem drain_pairwise :
    (drainMergedIterator xxhash env levels level seq iters).1.Pairwise fun t u =>
      t.seq < u.seq ∧ ∀ x ∈ t.entries, ∀ y ∈ u.entries, x.key < y.key := by
  obtain ⟨chunks, hc, hne, heq⟩ := @drain_eq_buildTables xxhash env levels level seq iters
  rw [heq]
  refine buildTables_pairwise ?_ (chunks_apart hs hc) seq
  intro d hd
  obtain ⟨c, hcm, rfl⟩ := List.mem_map.mp hd
  exact ⟨chunk_sorted hs hc hcm, hne c hcm⟩

end
end AkwaDB
