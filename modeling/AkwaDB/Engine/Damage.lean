import AkwaDB.Engine.Failure

/-!
# AkwaDB.Engine.Damage

Compactions of tables with blocks that cannot be read or decoded.

`loadBlock` only says that it failed. An iterator that meets a bad block ends there, and the merge
takes that for the end of the table: what follows the block is not read, and the table is retired all
the same.

- `damaged_keeps_iff`: of what can be decoded, all that the rules keep is still stored exactly if each
  such version is in a table that stays, or some iterator came to it and its key was not dropped as
  dead.
-/

namespace AkwaDB

abbrev Damage := Table → Nat → Bool

namespace Table

/-- What an iterator yields from block `i` on: the first bad block is the end. -/
def yielded (bad : Nat → Bool) : Nat → List (List Entry) → List Entry
  | _, [] => []
  | i, b :: bs => if bad i then [] else b ++ yielded bad (i + 1) bs

def decodable (bad : Nat → Bool) : Nat → List (List Entry) → List Entry
  | _, [] => []
  | i, b :: bs => if bad i then decodable bad (i + 1) bs else b ++ decodable bad (i + 1) bs

/-- `Seek` and then `Next` to the end, over damaged blocks. -/
def seekDamaged (bad : Nat → Bool) (t : Table) (k : Bytes) : List Entry :=
  let targetIdx := (search (t.indexProbe k) t.blocks.length).getD 0
  (yielded bad targetIdx (t.blocks.drop targetIdx)).dropWhile fun x => decide (x.key < k)

variable {bad : Nat → Bool}

theorem decodable_sublist (i : Nat) (bs : List (List Entry)) : (decodable bad i bs).Sublist bs.flatten := by
  induction bs generalizing i with
  | nil => exact List.Sublist.refl _
  | cons b bs ih =>
    rw [decodable, List.flatten_cons]
    split
    · exact (ih (i + 1)).trans (List.sublist_append_right b _)
    · exact (List.Sublist.refl b).append (ih (i + 1))

theorem yielded_sublist (i : Nat) (bs : List (List Entry)) :
    (yielded bad i bs).Sublist (decodable bad i bs) := by
  induction bs generalizing i with
  | nil => exact List.Sublist.refl _
  | cons b bs ih =>
    rw [yielded, decodable]
    split
    · exact List.nil_sublist _
    · exact (List.Sublist.refl b).append (ih (i + 1))

theorem seekDamaged_nil {xxhash : Bytes → UInt64} {t : Table} (h : t.WF xxhash) :
    t.seekDamaged bad [] = yielded bad 0 t.blocks := by
  have hfirst : (search (t.indexProbe []) t.blocks.length).getD 0 = 0 := by
    cases hs : search (t.indexProbe []) t.blocks.length with
    | none => rfl
    | some i =>
      -- nothing is below the empty key, so no block comes before
      by_contra hne
      have hpos : 0 < i := Nat.pos_of_ne_zero hne
      have hlen : 0 < t.blocks.length := Nat.lt_of_le_of_lt (Nat.zero_le i) (search_index h hs).1
      obtain ⟨y, b, hb⟩ := exists_block h hlen
      have hy : y ∈ (t.blocks.take i).flatten := by
        refine List.mem_flatten.mpr ⟨y :: b, List.mem_of_getElem? (i := 0) ?_, List.mem_cons_self⟩
        rw [List.getElem?_take_of_lt hpos]
        exact hb
      exact absurd (lt_of_search h hs hy) (List.not_lt_nil y.key)
  rw [seekDamaged, hfirst, List.drop_zero]
  refine List.dropWhile_eq_self_iff.mpr fun hlen => ?_
  simp

end Table

def HasVersion (tables : List Table) (x : Entry) : Prop :=
  ∃ t ∈ tables, ∃ y ∈ t.entries, y.key = x.key ∧ y.version = x.version

namespace Engine

variable (cfg : Config) (bad : Damage)

def damagedInputs (e : Engine) (target : Nat) (picked : List Table) : List (List Entry) :=
  (overlapping e.levels target picked ++ picked).map fun t => t.seekDamaged (bad t) []

def decodableInputs (e : Engine) (target : Nat) (picked : List Table) : List (List Entry) :=
  (overlapping e.levels target picked ++ picked).map fun t => Table.decodable (bad t) 0 t.blocks

def writtenDamaged (e : Engine) (target : Nat) (picked : List Table) : List Table × Nat :=
  drainMergedIterator cfg.xxhash e.drainEnv e.levels target e.nextSeq (e.damagedInputs bad target picked)

def moveTablesDamaged (e : Engine) (source target : Nat) (picked : List Table) : Engine :=
  let (newTables, nextSeq) := e.writtenDamaged cfg bad target picked
  e.replaced source target picked newTables nextSeq

def compactLevel0Damaged (e : Engine) : Engine :=
  if e.levels 0 = [] then e
  else e.moveTablesDamaged cfg bad 0 (findBaseLevel cfg e.levels) (e.levels 0)

def compactLevelTableDamaged (e : Engine) (fromLevel : Nat) (pick : Table) : Engine :=
  if maxLevels - 1 ≤ fromLevel then e else e.moveTablesDamaged cfg bad fromLevel (fromLevel + 1) [pick]

def keepable (e : Engine) (target : Nat) (picked : List Table) : List Entry :=
  (keptGroups e.drainEnv e.levels target (e.decodableInputs bad target picked)).flatten

def KeepsDecodable (e e' : Engine) (target : Nat) (picked : List Table) : Prop :=
  ∀ x ∈ e.keepable bad target picked, HasVersion (allTables e'.levels) x

/-- Each version is in a table that stays, or an iterator came to it and its key was not dropped. -/
def Reached (e : Engine) (source target : Nat) (picked : List Table) : Prop :=
  ∀ x ∈ e.keepable bad target picked, HasVersion (allTables (e.restLevels source target picked)) x ∨
    ((∃ z ∈ (e.damagedInputs bad target picked).flatten, z.key = x.key ∧ z.version = x.version) ∧
      ∃ y ∈ (keptGroups e.drainEnv e.levels target (e.damagedInputs bad target picked)).flatten, y.key = x.key)

variable {cfg} {bad} {e : Engine}

section Move

variable {source target : Nat} {picked : List Table}

theorem input_wf (hwf : ∀ t ∈ allTables e.levels, t.WF cfg.xxhash) (hlt : source < target)
    (ht : target < maxLevels) (hp : ∀ p ∈ picked, p ∈ e.levels source) {t : Table}
    (hmem : t ∈ overlapping e.levels target picked ++ picked) : t ∈ allTables e.levels ∧ t.WF cfg.xxhash := by
  have hin : t ∈ allTables e.levels := by
    rcases List.mem_append.mp hmem with h | h
    · exact mem_allTables.mpr ⟨target, ht, List.mem_of_mem_filter h⟩
    · exact mem_allTables.mpr ⟨source, hlt.trans ht, hp t h⟩
  exact ⟨hin, hwf t hin⟩

theorem damagedInputs_spec (hwf : ∀ t ∈ overlapping e.levels target picked ++ picked, t.WF cfg.xxhash) :
    (∀ l ∈ e.damagedInputs bad target picked, VersionSorted l) ∧
      (∀ l ∈ e.decodableInputs bad target picked, VersionSorted l) ∧
      (∀ x ∈ (e.damagedInputs bad target picked).flatten, x ∈ (e.decodableInputs bad target picked).flatten) ∧
      ∀ x ∈ (e.decodableInputs bad target picked).flatten,
        ∃ t ∈ overlapping e.levels target picked ++ picked, x ∈ t.entries := by
  refine ⟨?_, ?_, ?_, ?_⟩
  · intro l hl
    obtain ⟨t, ht, rfl⟩ := List.mem_map.mp hl
    rw [Table.seekDamaged_nil (hwf t ht)]
    exact (hwf t ht).sorted.sublist ((Table.yielded_sublist 0 _).trans (Table.decodable_sublist 0 _))
  · intro l hl
    obtain ⟨t, ht, rfl⟩ := List.mem_map.mp hl
    exact (hwf t ht).sorted.sublist (Table.decodable_sublist 0 _)
  · intro x hx
    obtain ⟨l, hl, hxl⟩ := List.mem_flatten.mp hx
    obtain ⟨t, ht, rfl⟩ := List.mem_map.mp hl
    rw [Table.seekDamaged_nil (hwf t ht)] at hxl
    exact List.mem_flatten.mpr ⟨_, List.mem_map_of_mem ht, (Table.yielded_sublist 0 _).subset hxl⟩
  · intro x hx
    obtain ⟨l, hl, hxl⟩ := List.mem_flatten.mp hx
    obtain ⟨t, ht, rfl⟩ := List.mem_map.mp hl
    exact ⟨t, ht, (Table.decodable_sublist 0 _).subset hxl⟩

theorem mem_moveTablesDamaged (hne : source ≠ target) (ht : target < maxLevels) {t : Table} :
    t ∈ allTables (e.moveTablesDamaged cfg bad source target picked).levels ↔
      t ∈ allTables (e.restLevels source target picked) ∨ t ∈ (e.writtenDamaged cfg bad target picked).1 :=
  @mem_replaced e source target picked _ (e.writtenDamaged cfg bad target picked).2 hne ht t

theorem moveTablesDamaged_keeps_iff (hwf : ∀ t ∈ allTables e.levels, t.WF cfg.xxhash)
    (hshort : ∀ t ∈ allTables e.levels, ∀ x ∈ t.entries, x.key.length ≤ maxIndexKey) (hlt : source < target)
    (ht : target < maxLevels) (hp : ∀ p ∈ picked, p ∈ e.levels source) :
    KeepsDecodable bad e (e.moveTablesDamaged cfg bad source target picked) target picked ↔
      Reached bad e source target picked := by
  obtain ⟨hs, hsd, hsub, hdec⟩ :=
    @damagedInputs_spec cfg bad e target picked fun t hmem => (input_wf hwf hlt ht hp hmem).2
  have hlen : ∀ x ∈ (e.damagedInputs bad target picked).flatten, x.key.length ≤ maxIndexKey := by
    intro x hx
    obtain ⟨t, hmem, hxt⟩ := hdec x (hsub x hx)
    exact hshort t (input_wf hwf hlt ht hp hmem).1 x hxt
  have hafter : ∀ x, HasVersion (allTables (e.moveTablesDamaged cfg bad source target picked).levels) x ↔
      HasVersion (allTables (e.restLevels source target picked)) x ∨
        HasVersion (e.writtenDamaged cfg bad target picked).1 x := by
    intro x
    simp only [HasVersion, mem_moveTablesDamaged hlt.ne ht, or_and_right, exists_or]
  refine forall₂_congr fun x hx => ?_
  rw [hafter]
  refine or_congr_right ⟨?_, ?_⟩
  · rintro ⟨t, htw, y, hy, hk, hv⟩
    obtain ⟨kept, hkept, _, w, hw, rfl⟩ := drain_group hs htw hy
    obtain ⟨z, hz, rfl⟩ := keptGroups_sound hkept hw
    exact ⟨⟨z, hz, by simpa using hk, by simpa using hv⟩, _, List.mem_flatten.mpr ⟨kept, hkept, hw⟩,
      by simpa using hk⟩
  · rintro ⟨⟨z, hz, hzk, hzv⟩, y, hy, hyk⟩
    -- fewer versions hide less, so what is kept of more can be seen here too
    have hvis : Visible Entry.key Entry.version e.drainEnv.minReadTs
        (e.damagedInputs bad target picked).flatten z := by
      obtain ⟨kept, hkept, hxk⟩ := List.mem_flatten.mp hx
      intro g hg hgk hgv
      exact keptGroups_visible hsd hkept hxk g (hsub g hg) (hgk.trans hzk) (hzv ▸ hgv)
    rcases @drain_visible e.drainEnv e.levels target _ cfg.xxhash e.nextSeq hs hlen z hz hvis with
      ⟨t, htw, w, hw, hwk, hwv⟩ | ⟨_, _, hno⟩
    · exact ⟨t, htw, w, hw, hwk.trans hzk, hwv.trans hzv⟩
    · obtain ⟨kept, hkept, hyk'⟩ := List.mem_flatten.mp hy
      obtain ⟨t, htw, hyt⟩ := @drain_kept e.drainEnv e.levels target _ cfg.xxhash e.nextSeq hs hlen kept
        hkept y hyk'
      exact absurd (by rw [Entry.stored_key, hyk, hzk]) (hno t htw _ hyt)

end Move

theorem keepable_nil (target : Nat) : e.keepable bad target [] = [] := by
  have hin : e.decodableInputs bad target [] = [] := by simp [decodableInputs, overlapping]
  rw [keepable, hin]
  rfl

/-- **A damaged block costs only itself exactly if what follows it was reached some other way.** -/
theorem damaged_keeps_iff (cfg : Config) (bad : Damage) {e : Engine}
    (hwf : ∀ t ∈ allTables e.levels, t.WF cfg.xxhash)
    (hshort : ∀ t ∈ allTables e.levels, ∀ x ∈ t.entries, x.key.length ≤ maxIndexKey) :
    (KeepsDecodable bad e (e.compactLevel0Damaged cfg bad) (findBaseLevel cfg e.levels) (e.levels 0) ↔
      Reached bad e 0 (findBaseLevel cfg e.levels) (e.levels 0)) ∧
    ∀ fromLevel pick, fromLevel + 1 < maxLevels → pick ∈ e.levels fromLevel →
      (KeepsDecodable bad e (e.compactLevelTableDamaged cfg bad fromLevel pick) (fromLevel + 1) [pick] ↔
        Reached bad e fromLevel (fromLevel + 1) [pick]) := by
  constructor
  · rw [compactLevel0Damaged]
    split
    · rename_i hempty
      simp [KeepsDecodable, Reached, hempty, keepable_nil]
    · obtain ⟨hlow, hhigh⟩ := @findBaseLevel_bounds cfg e.levels
      exact moveTablesDamaged_keeps_iff hwf hshort hlow hhigh fun p hp => hp
  · intro fromLevel pick hlt hpick
    rw [compactLevelTableDamaged, if_neg (by omega)]
    exact moveTablesDamaged_keeps_iff hwf hshort (Nat.lt_succ_self _) hlt (by simpa using hpick)

def twoBlockTable : Table :=
  ⟨1, 0, [[⟨[97], [0, 1], false, 0, 2⟩], [⟨[98], [0, 2], false, 0, 3⟩]],
    Filter.newFilter (fun _ => 0) [[97], [98]], 0⟩

def twoBlocks : Engine := { Engine.fresh 0 with levels := setLevel (fun _ => []) 0 [twoBlockTable] }

theorem twoBlocks_wf : ∀ t ∈ allTables twoBlocks.levels, t.WF Config.plain.xxhash ∧
    ∀ x ∈ t.entries, x.key.length ≤ maxIndexKey := by
  have hall : allTables twoBlocks.levels = [twoBlockTable] := rfl
  have hapart : BlocksApart twoBlockTable.blocks := by
    unfold BlocksApart
    decide +kernel
  intro t ht
  rw [hall, List.mem_singleton] at ht
  subst ht
  exact ⟨⟨by decide, by decide +kernel, by decide, hapart, by decide +kernel⟩, by decide +kernel⟩

theorem damaged_keeps_last :
    KeepsDecodable (fun _ i => decide (i = 1)) twoBlocks
      (twoBlocks.compactLevel0Damaged .plain fun _ i => decide (i = 1))
      (findBaseLevel .plain twoBlocks.levels) (twoBlocks.levels 0) := by
  refine (damaged_keeps_iff .plain _ (fun t ht => (twoBlocks_wf t ht).1)
    (fun t ht => (twoBlocks_wf t ht).2)).1.mpr ?_
  have hkeep : twoBlocks.keepable (fun _ i => decide (i = 1)) (findBaseLevel .plain twoBlocks.levels)
      (twoBlocks.levels 0) = [⟨[97], [0, 1], false, 0, 2⟩] := by decide +kernel
  intro x hx
  rw [hkeep, List.mem_singleton] at hx
  subst hx
  exact Or.inr (by decide +kernel)

/-- The first block is bad: `b`, in the second, is gone after the compaction. -/
theorem bad_block_loses_rest :
    ¬ KeepsDecodable (fun _ i => decide (i = 0)) twoBlocks
      (twoBlocks.compactLevel0Damaged .plain fun _ i => decide (i = 0))
      (findBaseLevel .plain twoBlocks.levels) (twoBlocks.levels 0) ∧
    allTables (twoBlocks.compactLevel0Damaged .plain fun _ i => decide (i = 0)).levels = [] := by
  have hgone : allTables (twoBlocks.compactLevel0Damaged .plain fun _ i => decide (i = 0)).levels = [] := by
    decide +kernel
  have hkeep : twoBlocks.keepable (fun _ i => decide (i = 0)) (findBaseLevel .plain twoBlocks.levels)
      (twoBlocks.levels 0) = [⟨[98], [0, 2], false, 0, 3⟩] := by decide +kernel
  refine ⟨fun h => ?_, hgone⟩
  obtain ⟨t, ht, _⟩ := h ⟨[98], [0, 2], false, 0, 3⟩ (by rw [hkeep]; exact List.mem_singleton.mpr rfl)
  rw [hgone] at ht
  cases ht

end Engine
end AkwaDB
