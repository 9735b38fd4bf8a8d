import AkwaDB.Engine.Adopt
import AkwaDB.Engine.Background

/-!
# AkwaDB.Engine.Untagged

The values of ingested tables.

The engine stores a value behind a byte that says whether it is inline or a pointer into the value
log. Tables built elsewhere have no such byte. `Ingest` refuses values that look like pointers, and
`resolveValue` returns a value without a known first byte as it is; but it takes a first byte of zero
for the mark of an inline value and drops it.

`ingested_value_iff`: where the version counter has reached the entry, `Get` returns an ingested value exactly if its
first byte is not zero, and no accounting ever takes it for a pointer.
-/

namespace AkwaDB
namespace Engine

open Vlog (ValueLog decodeValuePointer isValuePointer resolveValue)

def addDiscard (stats : UInt32 → Int) (value : Bytes) : UInt32 → Int :=
  if isValuePointer value then
    let vp := decodeValuePointer value
    fun fid => if fid = vp.fid then stats fid + vp.size.toNat else stats fid
  else stats

def NotCounted (value : Bytes) : Prop :=
  (∀ stats, addDiscard stats value = stats) ∧
    ∀ discards, Background.addCompactionDiscard discards value = discards

theorem notCounted_of_plain {value : Bytes} (h : isValuePointer value = false) : NotCounted value := by
  simp [NotCounted, addDiscard, Background.addCompactionDiscard, h]

theorem resolveValue_eq_self_iff (vl : ValueLog) {raw : Bytes} (h : isValuePointer raw = false) :
    resolveValue vl raw = some raw ↔ raw.head? ≠ some 0 := by
  cases raw with
  | nil => simp [resolveValue]
  | cons b v =>
    by_cases hb : b = 0
    · simp [resolveValue, hb]
    · simp [resolveValue, hb, h]

theorem ingestTables_plain {e e' : Engine} {staged : List Staged} (hi : e.ingestTables staged = .ok e')
    {s : Staged} (hs : s ∈ staged) {x : Entry} (hx : x ∈ s.table.entries) (hlive : x.deleted = false) :
    isValuePointer x.value = false := by
  unfold ingestTables at hi
  split at hi
  · cases hi
  · rename_i hnone
    have hclean := List.find?_eq_none.mp hnone s hs
    simp only [List.any_eq_true, not_exists, not_and] at hclean
    simpa [hlive] using hclean x hx

/-! ## Reading what was ingested -/

theorem findSome?_eq_of {α β : Type} {f : α → Option β} {l : List α} {o : Option β}
    (h : ∀ a ∈ l, f a = none ∨ f a = o) (hex : ∃ a ∈ l, f a = o) : l.findSome? f = o := by
  induction l with
  | nil => obtain ⟨a, ha, _⟩ := hex; cases ha
  | cons a l ih =>
    rw [List.findSome?_cons]
    cases hfa : f a with
    | some b =>
      rcases h a List.mem_cons_self with ha | ha
      · exact absurd (hfa.symm.trans ha) (Option.some_ne_none b)
      · exact hfa.symm.trans ha
    | none =>
      obtain ⟨c, hc, rfl⟩ := hex
      rcases List.mem_cons.mp hc with rfl | hc
      · rw [hfa] at h ⊢
        exact List.findSome?_eq_none_iff.mpr fun b hb => (h b (List.mem_cons_of_mem _ hb)).elim id id
      · exact ih (fun b hb => h b (List.mem_cons_of_mem _ hb)) ⟨c, hc, rfl⟩

/-- A search through `0 … n-1` in which position `i`, the first that matters, has one more answer in front. -/
theorem findSome?_range_or {β : Type} {g g' : Nat → Option β} {o : Option β} {n i : Nat} (hi : i < n)
    (hbefore : ∀ j < i, g j = none) (hat : g' i = o.or (g i)) (hoff : ∀ j, j ≠ i → g' j = g j) :
    (List.range n).findSome? g' = o.or ((List.range n).findSome? g) := by
  induction n with
  | zero => omega
  | succ n ih =>
    rw [List.range_succ, List.findSome?_append, List.findSome?_append, List.findSome?_singleton,
      List.findSome?_singleton]
    rcases Nat.lt_or_eq_of_le (Nat.le_of_lt_succ hi) with hlt | rfl
    · rw [ih hlt, hoff n (by omega), Option.or_assoc]
    · have hnone : (List.range i).findSome? g = none :=
        List.findSome?_eq_none_iff.mpr fun j hj => hbefore j (List.mem_range.mp hj)
      have hnone' : (List.range i).findSome? g' = none :=
        List.findSome?_eq_none_iff.mpr fun j hj => by
          rw [hoff j (List.mem_range.mp hj).ne]
          exact hbefore j (List.mem_range.mp hj)
      rw [hnone, hnone', hat, Option.none_or, Option.none_or]

section Ingested

variable {cfg : Config} {e e₁ e₂ : Engine} {tables : List Table} {t : Table} {k : Bytes} {ok : Nat → Bool}

theorem find_absent (h : t.WF cfg.xxhash) (hk : ∀ y ∈ t.entries, y.key ≠ k) : t.find cfg.xxhash k ok = none := by
  rw [Table.find_eq_newest h fun b hb i x y hx _ hxk =>
    absurd hxk (hk x (List.mem_flatten.mpr ⟨b, hb, List.mem_of_getElem? hx⟩)), newest_eq_none]
  intro y hy
  simp [Entry.hits, hk y hy]

/-- A lookup of a key that was ingested comes to its table first. -/
theorem findInLevels_install (hwf : ∀ u ∈ allTables e.levels, u.WF cfg.xxhash) (hts : ∀ u ∈ tables, u.WF cfg.xxhash)
    (hne : ∀ u ∈ tables, u.NoEmptyKey) (hap : tables.Pairwise KeysApart) (ht : t ∈ tables) {y : Entry}
    (hy : y ∈ t.entries) (hk : y.key = k) :
    findInLevels cfg (e.install tables).levels k ok =
      (t.find cfg.xxhash k ok).or (findInLevels cfg e.levels k ok) := by
  obtain ⟨hlt, hclear⟩ := @targetLevel_spec e.levels tables
  have habsent : 0 < targetLevel e.levels tables → ∀ l ≤ targetLevel e.levels tables, ∀ u ∈ e.levels l,
      u.find cfg.xxhash k ok = none := by
    intro hpos l hl u hu
    have hin : u.WF cfg.xxhash := hwf u (mem_allTables.mpr ⟨l, by omega, hu⟩)
    refine find_absent hin fun z hz hzk => ?_
    exact Table.keysApart_of_not_overlap (hts t ht).sorted hin.sorted
      (not_overlap_of_level (hclear hpos l hl) hu ht (hne t ht)) y hy z hz (hk.trans hzk.symm)
  have hnew : ∀ u ∈ renumber (targetLevel e.levels tables) e.nextSeq tables,
      u.find cfg.xxhash k ok = none ∨ u.find cfg.xxhash k ok = t.find cfg.xxhash k ok := by
    intro u hu
    obtain ⟨v, hv, _, rfl⟩ := mem_renumber hu
    by_cases hvt : v = t
    · exact Or.inr (hvt ▸ rfl)
    · exact Or.inl (find_absent (renumber_wf hts hu) fun z hz hzk =>
        hap.forall hv ht hvt z hz y hy (hzk.trans hk.symm))
  have hsome : ∃ u ∈ renumber (targetLevel e.levels tables) e.nextSeq tables,
      u.find cfg.xxhash k ok = t.find cfg.xxhash k ok := by
    obtain ⟨_, hu⟩ := @exists_renumber (targetLevel e.levels tables) _ _ ht e.nextSeq
    exact ⟨_, hu, rfl⟩
  refine findSome?_range_or hlt (fun j hj => ?_) ?_ fun j hj => by rw [install_other hj]
  · refine List.findSome?_eq_none_iff.mpr fun u hu => ?_
    exact habsent (Nat.zero_lt_of_lt hj) j hj.le u (List.mem_reverse.mp hu)
  · by_cases h0 : 0 < targetLevel e.levels tables
    · -- in the target level nothing else has the key
      have hold : findInLevel cfg (e.levels (targetLevel e.levels tables)) k ok = none :=
        List.findSome?_eq_none_iff.mpr fun u hu => habsent h0 _ le_rfl u (List.mem_reverse.mp hu)
      rw [hold, Option.or_none]
      refine findSome?_eq_of (fun u hu => ?_) ?_
      · rcases mem_install.mp (List.mem_reverse.mp hu) with hu | ⟨-, hu⟩
        · exact Or.inl (habsent h0 _ le_rfl u hu)
        · exact hnew u hu
      · obtain ⟨u, hu, hfind⟩ := hsome
        exact ⟨u, List.mem_reverse.mpr (mem_install.mpr (Or.inr ⟨rfl, hu⟩)), hfind⟩
    · -- in level 0 it is the last of the tables, and searched first
      have hlevel : (e.install tables).levels (targetLevel e.levels tables) =
          e.levels (targetLevel e.levels tables) ++ renumber (targetLevel e.levels tables) e.nextSeq tables := by
        simp only [install, setLevel_same, if_neg h0]
      rw [findInLevel, hlevel, List.reverse_append, List.findSome?_append]
      congr 1
      refine findSome?_eq_of (fun u hu => hnew u (List.mem_reverse.mp hu)) ?_
      obtain ⟨u, hu, hfind⟩ := hsome
      exact ⟨u, List.mem_reverse.mpr hu, hfind⟩

theorem forceFlush_empty {fails : Bool} (hf : e.forceFlush cfg fails = some e₁) :
    e₁.mem.nodes = [] ∧ e₁.imm = none := by
  unfold forceFlush at hf
  split at hf
  · cases hf
  · rename_i himm
    split at hf
    · rename_i hmem
      cases hf
      exact ⟨hmem, himm⟩
    · obtain ⟨e', hr, hf⟩ := Option.bind_eq_some_iff.mp hf
      have hmem : e'.mem.nodes = [] := by
        rw [rotate, himm] at hr
        cases hr
        rfl
      unfold executeFlushFailing at hf
      split at hf
      · obtain ⟨_, _, rfl⟩ := Option.map_eq_some_iff.mp hf
        exact ⟨hmem, rfl⟩
      · obtain ⟨_, _, _, ⟨rfl, _⟩ | ⟨_, _, _, _, rfl⟩⟩ := executeFlush_spec hf <;> exact ⟨hmem, rfl⟩

/-- Tables as the writer makes them, without the empty key, and no restart point between two versions of `k`. -/
structure WellBuilt (cfg : Config) (e : Engine) (staged : List Staged) (k : Bytes) : Prop where
  named : ∀ s ∈ staged, ∀ x ∈ s.table.entries, x.key ≠ []
  wf : ∀ s ∈ staged, s.table.WF cfg.xxhash
  aligned : ∀ s ∈ staged, s.table.Aligned k
  tables : ∀ t ∈ allTables e.levels, t.WF cfg.xxhash

/-- What a reader at the counter finds: an older version in the file, or what there was before. -/
def olderVersion (cfg : Config) (e : Engine) (s : Staged) (k : Bytes) : Option Entry :=
  (newest Entry.version (Entry.hits k fun v => decide (v ≤ e.mem.currentVersion)) s.table.entries).or
    (e.lookup cfg k fun v => decide (v ≤ e.mem.currentVersion))

/-- **Ingested values keep their bytes exactly if they do not start with a zero byte**, where the version counter has
reached them; where it has not, exactly if what `Get` finds instead happens to read the same. -/
theorem ingested_value_iff {vl : ValueLog} {fails : Bool} {staged : List Staged} (hw : WellBuilt cfg e₁ staged k)
    (hf : e.submitFlush cfg fails = some e₁) (hi : e₁.ingestTables staged = .ok e₂) {s : Staged} (hs : s ∈ staged)
    {x : Entry} (hx : newest Entry.version (Entry.hits k fun _ => true) s.table.entries = some x)
    (hlive : x.dead e₁.now = false) :
    e₂.get cfg vl k = .ok x.value ∧ NotCounted x.value ↔
      if x.version ≤ e₁.mem.currentVersion then x.value.head? ≠ some 0
      else resolved vl e₁.now (olderVersion cfg e₁ s k) = .ok x.value := by
  have hspec := newest_spec hx
  have hdel : x.deleted = false := by
    simp only [Entry.dead, Bool.or_eq_false_iff] at hlive
    exact hlive.1
  have hplain := ingestTables_plain hi hs hspec.mem hdel
  obtain ⟨hmem, himm⟩ := forceFlush_empty hf
  have hget : e₂.get cfg vl k = resolved vl e₁.now (olderVersion cfg e₁ s k) := by
    obtain ⟨tables, hperm, hkeys, hap, rfl⟩ := ingestTables_ok hw.named hi
    have hin : s.table ∈ tables := hperm.mem_iff.mpr (List.mem_map_of_mem hs)
    have hts : ∀ u ∈ tables, u.WF cfg.xxhash := by
      intro u hu
      obtain ⟨s', hs', rfl⟩ := List.mem_map.mp (hperm.mem_iff.mp hu)
      exact hw.wf s' hs'
    have hlookup : ∀ {e' : Engine}, e'.mem = e₁.mem → e'.imm = none → ∀ ok, e'.lookup cfg k ok =
        findInLevels cfg e'.levels k ok := by
      intro e' hm hi' ok
      rw [lookup, hm, SkipList.find_eq_newest, hmem, hi']
      rfl
    rw [get, getByVersion, hlookup (show (e₁.install tables).mem = e₁.mem from rfl) himm, olderVersion,
      hlookup rfl himm,
      findInLevels_install hw.tables hts (fun u hu => (hkeys u hu).2) hap hin hspec.mem (Entry.hits_iff.mp hspec.pass).1,
      Table.find_eq_newest (hw.wf s hs) (hw.aligned s hs)]
    rfl
  rw [hget, and_iff_left (notCounted_of_plain hplain)]
  split
  · rename_i hle
    have hsame : newest Entry.version (Entry.hits k fun v => decide (v ≤ e₁.mem.currentVersion)) s.table.entries =
        some x := by
      rw [← hx]
      refine newest_ext fun y hy => ?_
      by_cases hyk : y.key = k
      · have := hspec.max y hy (Entry.hits_iff.mpr ⟨hyk, rfl⟩)
        simp [Entry.hits, hyk, this.trans hle]
      · simp [Entry.hits, hyk]
    rw [olderVersion, hsame, Option.some_or, resolved, if_neg (by simp [hlive]), ← resolveValue_eq_self_iff vl hplain]
    cases resolveValue vl x.value with
    | none => simp
    | some v => simp
  · exact Iff.rfl

end Ingested

theorem ingested_value_plain : ∃ e e₁ e₂, run (act eager) (fresh 0) twoPuts = some e ∧
    e.submitFlush eager false = some e₁ ∧ e₁.ingestTables [bulk 3] = .ok e₂ ∧
    e₂.get eager noLog [97] = .ok [7] ∧ NotCounted [7] := by
  obtain ⟨e, h⟩ : ∃ e, run (act eager) (fresh 0) twoPuts = some e := ⟨_, rfl⟩
  have hord := (run_invariant (fun h hok hs => (h.act hok hs).1) (tidy_fresh 0) twoPuts_guarded h).ordered
  obtain ⟨e₁, hf⟩ : ∃ e₁, e.submitFlush eager false = some e₁ := by
    cases h
    exact ⟨_, rfl⟩
  obtain ⟨e₂, hi⟩ : ∃ e₂, e₁.ingestTables [bulk 3] = .ok e₂ := by
    cases h
    cases hf
    exact ⟨_, rfl⟩
  have hstate : e₁.levels = e.levels ∧ e₁.now = 0 ∧ e₁.mem.currentVersion = 3 := by
    cases h
    cases hf
    exact ⟨rfl, rfl, rfl⟩
  have hone : ∀ s ∈ [bulk 3], s = bulk 3 := fun s hs => List.mem_singleton.mp hs
  refine ⟨e, e₁, e₂, h, hf, hi, (ingested_value_iff (s := bulk 3) (k := [97])
    (x := ⟨[97], [7], false, 0, 3⟩) ⟨?_, ?_, ?_, ?_⟩ hf hi List.mem_cons_self rfl ?_).mpr ?_⟩
  · simp [bulk, Table.entries]
  · intro s hs
    exact hone s hs ▸ bulk_wf 3
  · intro s hs b hb
    rw [hone s hs] at hb
    exact aligned_of_length (by simp [List.mem_singleton.mp hb, restartInterval])
  · rw [hstate.1]
    exact hord.wf
  · rw [hstate.2.1]
    decide
  · rw [if_pos hstate.2.2.ge]
    decide

def zeroFirst : Staged where
  path := "zero.sst"
  table := ⟨0, 0, [[⟨[97], [0, 5], false, 0, 3⟩]], Filter.newFilter (fun _ => 0) [[97]], 0⟩
  sorted := List.pairwise_singleton _ _

/-- The table is accepted, and the value loses its first byte. -/
theorem zero_byte_dropped : ∃ e₁ e₂, run (act eager) (fresh 0) twoPuts = some e₁ ∧
    e₁.ingest eager false [zeroFirst] = some (.ok e₂) ∧ e₂.get eager noLog [97] = .ok [5] ∧
    e₂.get eager noLog [97] ≠ .ok [0, 5] :=
  ⟨_, _, rfl, rfl, by decide +kernel, by decide +kernel⟩

end Engine
end AkwaDB
