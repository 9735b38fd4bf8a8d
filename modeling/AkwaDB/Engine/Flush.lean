import AkwaDB.Engine.Scan

/-!
# AkwaDB.Engine.Flush

What readers notice of a flush: the memtable becomes a table of level 0, or is lost when the table
cannot be created.

`flush_reads`: never all of `Get`, `GetByVersion`, `GetVersion`, `TTL` and `getByPrefix` are as before
unless the memtable was empty, for `GetVersion` reports version 0 for whatever it finds in a table.
Everything else is as before when the table was created, none of its restart points falls between two
versions of a key, and no key is empty (`Flushable`).
-/

namespace AkwaDB

/-! ## What the memtable holds -/

/-- What `PutVersion` and `DeleteVersion` build: versions count from 1, tombstones have no value. -/
structure SkipList.Built (s : SkipList) : Prop where
  version_ne : ∀ x ∈ s.nodes, x.version ≠ 0
  tombstone : ∀ x ∈ s.nodes, x.deleted = true → x.value = []

namespace SkipList

theorem Built.map_stored {s : SkipList} (h : s.Built) :
    s.allVersions.map Entry.stored = s.allVersions := by
  have hid : s.allVersions.map Entry.stored = s.allVersions.map id := by
    refine List.map_congr_left fun x hx => ?_
    unfold Entry.stored
    split
    · rename_i hdel
      rw [← h.tombstone x (mem_allVersions.mp hx) hdel]
      rfl
    · rfl
  rw [hid, List.map_id]

end SkipList

namespace Engine

open Vlog (ValueLog resolveValue)

variable (cfg : Config) (vl : ValueLog)

/-- `executeFlush` when the file system may let the creation of the table fail. -/
def executeFlushFailing (fails : Bool) (e : Engine) : Option Engine :=
  if fails then e.imm.map fun _ => { e with imm := none } else e.executeFlush cfg

def flush (fails : Bool) (e : Engine) : Option Engine := e.rotate.bind (executeFlushFailing cfg fails)

def flushTable (e : Engine) : Option Table :=
  Table.createAtLevel cfg.xxhash e.now (e.nextSeq + 1) 0 e.mem.allVersions

def SameReads (e e' : Engine) : Prop :=
  (∀ k, e'.get cfg vl k = e.get cfg vl k) ∧
    (∀ k maxVersion, e'.getByVersion cfg vl k maxVersion = e.getByVersion cfg vl k maxVersion) ∧
    (∀ k, e'.getVersion cfg vl k = e.getVersion cfg vl k) ∧ (∀ k, e'.ttl cfg k = e.ttl cfg k) ∧
    ∀ pre, e'.getByPrefix cfg vl pre = e.getByPrefix cfg vl pre

def SameValues (e e' : Engine) : Prop :=
  (∀ k, e'.get cfg vl k = e.get cfg vl k) ∧
    (∀ k maxVersion, e'.getByVersion cfg vl k maxVersion = e.getByVersion cfg vl k maxVersion) ∧
    (∀ k, (e'.getVersion cfg vl k).1 = (e.getVersion cfg vl k).1) ∧ (∀ k, e'.ttl cfg k = e.ttl cfg k) ∧
    ∀ pre, e'.getByPrefix cfg vl pre = e.getByPrefix cfg vl pre

/-- A flush that keeps the values. A memtable holds the empty key as nil, which `createAtLevel` takes for a block
that has no first key yet, so that the block is found under its second key. -/
structure Flushable (e : Engine) : Prop where
  named : ∀ x ∈ e.mem.nodes, x.key ≠ []
  made : ∃ t, e.flushTable cfg = some t ∧ ∀ k, t.Aligned k
  wf : ∀ u ∈ allTables e.levels, u.WF cfg.xxhash
  distinct : Distinct e.layers.flatten

variable {cfg} {vl} {e e' : Engine} {fails : Bool}

def afterFlush (e : Engine) (made : Option Table) : Engine :=
  { e with
    mem := SkipList.newSkipList.seedVersion e.mem.currentVersion
    imm := none
    levels := setLevel e.levels 0 (e.levels 0 ++ made.toList)
    nextSeq := e.nextSeq + 1 }

theorem flush_spec (h : e.flush cfg fails = some e') :
    e.imm = none ∧ ∃ made, e' = e.afterFlush made ∧ (e.mem.nodes = [] → made = none) ∧
      (fails = false → e.mem.nodes ≠ [] → made = e.flushTable cfg) := by
  obtain ⟨e1, hrot, hf⟩ := Option.bind_eq_some_iff.mp h
  unfold rotate at hrot
  split at hrot
  · cases hrot
  rename_i himm
  cases hrot
  refine ⟨himm, ?_⟩
  unfold executeFlushFailing at hf
  split at hf
  · rename_i hfails
    cases hf
    refine ⟨none, by simp [afterFlush], fun _ => rfl, fun hok => ?_⟩
    rw [hok] at hfails
    cases hfails
  · simp only [executeFlush] at hf
    split at hf
    · rename_i hempty
      have hnil := SkipList.allVersions_eq_nil.mp hempty
      cases hf
      exact ⟨none, by simp [afterFlush], fun _ => rfl, fun _ hne => absurd hnil hne⟩
    · rename_i hne
      cases hf
      refine ⟨e.flushTable cfg, rfl, fun hnil => ?_, fun _ _ => rfl⟩
      exact absurd (SkipList.allVersions_eq_nil.mpr hnil) hne

theorem findInLevels_afterFlush (made : Option Table) (k : Bytes) (ok : Nat → Bool) :
    findInLevels cfg (e.afterFlush made).levels k ok =
      (made.bind fun t => t.find cfg.xxhash k ok).or (findInLevels cfg e.levels k ok) := by
  have hrange : List.range maxLevels = [0, 1, 2, 3, 4] := rfl
  cases made with
  | none => simp [afterFlush]
  | some t =>
    simp only [findInLevels, findInLevel, afterFlush, hrange, List.findSome?_cons, setLevel_same,
      Option.toList_some, List.reverse_append, List.reverse_cons, List.reverse_nil, List.nil_append,
      List.cons_append, Option.bind_some]
    cases t.find cfg.xxhash k ok with
    | some x => rfl
    | none => simp [setLevel]

theorem lookup_afterFlush (made : Option Table) (k : Bytes) (ok : Nat → Bool) :
    (e.afterFlush made).lookup cfg k ok =
      (made.bind fun t => t.find cfg.xxhash k ok).or (findInLevels cfg e.levels k ok) :=
  findInLevels_afterFlush made k ok

theorem lookup_of_imm_none (h : e.imm = none) (k : Bytes) (ok : Nat → Bool) :
    e.lookup cfg k ok = (e.mem.find k ok).or (findInLevels cfg e.levels k ok) := by
  rw [lookup, h]
  cases e.mem.find k ok with
  | some x => rfl
  | none => rfl

theorem lookup_afterFlush_eq (made : Option Table) (himm : e.imm = none)
    (h : ∀ k ok, (made.bind fun t => t.find cfg.xxhash k ok) = e.mem.find k ok) (k : Bytes)
    (ok : Nat → Bool) : (e.afterFlush made).lookup cfg k ok = e.lookup cfg k ok := by
  rw [lookup_afterFlush, lookup_of_imm_none himm, h]

theorem find_flushTable {t : Table} (hb : e.mem.Built) (hd : Distinct e.mem.nodes)
    (hne : e.mem.nodes ≠ []) (ht : e.flushTable cfg = some t) {k : Bytes} (ha : t.Aligned k)
    (ok : Nat → Bool) : t.find cfg.xxhash k ok = e.mem.find k ok := by
  obtain ⟨hwf, hent, _⟩ := Table.createAtLevel_wf e.mem.allVersions_sorted
    (fun h => hne (SkipList.allVersions_eq_nil.mp h)) ht
  rw [Table.find_eq_newest hwf ha, hent, hb.map_stored, SkipList.find_eq_newest]
  refine newest_congr ?_ fun x => and_congr_left fun _ => SkipList.mem_allVersions
  intro x hx y hy
  exact hd.separates k ok x (SkipList.mem_allVersions.mp hx) y (SkipList.mem_allVersions.mp hy)

theorem pointReads_of_lookup (vl : ValueLog) {made : Option Table}
    (h : ∀ k ok, (e.afterFlush made).lookup cfg k ok = e.lookup cfg k ok) :
    (∀ k, (e.afterFlush made).get cfg vl k = e.get cfg vl k) ∧
      (∀ k maxVersion,
        (e.afterFlush made).getByVersion cfg vl k maxVersion = e.getByVersion cfg vl k maxVersion) ∧
      (∀ k, ((e.afterFlush made).getVersion cfg vl k).1 = (e.getVersion cfg vl k).1) ∧
      ∀ k, (e.afterFlush made).ttl cfg k = e.ttl cfg k := by
  have hby : ∀ k maxVersion,
      (e.afterFlush made).getByVersion cfg vl k maxVersion = e.getByVersion cfg vl k maxVersion := by
    intro k maxVersion
    rw [getByVersion, getByVersion, h]
    rfl
  have hcounter : (e.afterFlush made).mem.currentVersion = e.mem.currentVersion :=
    Nat.max_eq_right (Nat.zero_le _)
  refine ⟨fun k => ?_, hby, fun k => ?_, fun k => ?_⟩
  · rw [get, get, hcounter, hby]
  · rw [getVersion_fst, getVersion_fst, getWithoutLock, getWithoutLock, h]
    rfl
  · rw [ttl, ttl, h]
    rfl

theorem getByPrefix_eq (hwf : ∀ t ∈ allTables e.levels, t.WF cfg.xxhash)
    (hwf' : ∀ t ∈ allTables e'.levels, t.WF cfg.xxhash) (hd : Distinct e.layers.flatten)
    (hnow : e'.now = e.now) (hmem : ∀ x, x ∈ e'.layers.flatten ↔ x ∈ e.layers.flatten) (pre : Bytes) :
    e'.getByPrefix cfg vl pre = e.getByPrefix cfg vl pre := by
  have hd' : Distinct e'.layers.flatten := by
    intro x hx y hy
    exact hd x ((hmem x).mp hx) y ((hmem y).mp hy)
  refine eq_of_strict (fun q q' hlt => not_lt.mpr hlt.le) (getByPrefix_keys hwf') (getByPrefix_keys hwf) ?_
  intro q
  rw [mem_getByPrefix hwf' hd', mem_getByPrefix hwf hd, hnow]
  have hnewest : newest Entry.version (Entry.hits q.1 fun _ => true) e'.layers.flatten =
      newest Entry.version (Entry.hits q.1 fun _ => true) e.layers.flatten :=
    newest_congr (hd'.separates q.1 _) fun x => and_congr_left fun _ => hmem x
  rw [hnewest]

theorem mem_layers_afterFlush {t : Table} (himm : e.imm = none) (hb : e.mem.Built)
    (hent : t.entries = e.mem.allVersions.map Entry.stored) (x : Entry) :
    x ∈ (e.afterFlush (some t)).layers.flatten ↔ x ∈ e.layers.flatten := by
  rw [mem_layers, mem_layers]
  have htables : (∃ u ∈ allTables (e.afterFlush (some t)).levels, x ∈ u.entries) ↔
      (∃ u ∈ allTables e.levels, x ∈ u.entries) ∨ x ∈ e.mem.nodes := by
    simp only [afterFlush, Option.toList_some, mem_allTables_flush]
    constructor
    · rintro ⟨u, hu | rfl, hx⟩
      · exact Or.inl ⟨u, hu, hx⟩
      · rw [hent, hb.map_stored] at hx
        exact Or.inr (SkipList.mem_allVersions.mp hx)
    · rintro (⟨u, hu, hx⟩ | hx)
      · exact ⟨u, Or.inl hu, hx⟩
      · refine ⟨t, Or.inr rfl, ?_⟩
        rw [hent, hb.map_stored]
        exact SkipList.mem_allVersions.mpr hx
  have himm' : (e.afterFlush (some t)).immNodes = [] := rfl
  have hmem' : (e.afterFlush (some t)).mem.nodes = [] := rfl
  have hnone : e.immNodes = [] := by rw [immNodes, himm]
  rw [htables, himm', hmem', hnone]
  simp [or_comm]

theorem sameValues_afterFlush {t : Table} (himm : e.imm = none) (hb : e.mem.Built)
    (hne : e.mem.nodes ≠ []) (ht : e.flushTable cfg = some t) (ha : ∀ k, t.Aligned k)
    (hwf : ∀ u ∈ allTables e.levels, u.WF cfg.xxhash) (hd : Distinct e.layers.flatten) :
    SameValues cfg vl e (e.afterFlush (some t)) := by
  obtain ⟨htwf, hent, _⟩ := Table.createAtLevel_wf e.mem.allVersions_sorted
    (fun h => hne (SkipList.allVersions_eq_nil.mp h)) ht
  have hdmem : Distinct e.mem.nodes := by
    intro x hx y hy
    exact hd x (mem_layers.mpr (Or.inl hx)) y (mem_layers.mpr (Or.inl hy))
  have hlookup := lookup_afterFlush_eq (some t) himm
    fun k ok => find_flushTable hb hdmem hne ht (ha k) ok
  obtain ⟨hget, hby, hver, httl⟩ := pointReads_of_lookup vl hlookup
  have hwf' : ∀ u ∈ allTables (e.afterFlush (some t)).levels, u.WF cfg.xxhash := by
    intro u hu
    rcases mem_allTables_flush.mp hu with hu | rfl
    · exact hwf u hu
    · exact htwf
  exact ⟨hget, hby, hver, httl,
    getByPrefix_eq hwf hwf' hd rfl (mem_layers_afterFlush himm hb hent)⟩

theorem getVersion_afterFlush (made : Option Table) (k : Bytes) :
    ((e.afterFlush made).getVersion cfg vl k).2 = 0 := rfl

/-- **What readers notice of a flush**: at most the version `GetVersion` reports, if the table was created. -/
theorem flush_reads (cfg : Config) (vl : ValueLog) {e e' : Engine} {fails : Bool}
    (hb : e.mem.Built) (h : e.flush cfg fails = some e') :
    (SameReads cfg vl e e' ↔ e.mem.nodes = []) ∧
      (fails = false → Flushable cfg e → SameValues cfg vl e e') := by
  obtain ⟨himm, made, rfl, hempty, hmade⟩ := flush_spec h
  have hsame : e.mem.nodes = [] → SameReads cfg vl e (e.afterFlush made) := by
    intro hnil
    obtain rfl := hempty hnil
    have hfind : ∀ k ok, e.mem.find k ok = none := by
      intro k ok
      rw [SkipList.find_eq_newest, hnil]
      rfl
    have hlevels : (e.afterFlush none).levels = e.levels := by simp [afterFlush]
    obtain ⟨hget, hby, _, httl⟩ := pointReads_of_lookup vl
      (lookup_afterFlush_eq none himm fun k ok => (hfind k ok).symm)
    refine ⟨hget, hby, fun k => ?_, httl, fun pre => ?_⟩
    · rw [getVersion, getVersion, himm, hfind, hlevels]
      rfl
    · rw [getByPrefix, getByPrefix, prefixIters, prefixIters, himm, hlevels, SkipList.seek,
        SkipList.seek, hnil]
      rfl
  refine ⟨⟨fun hreads => ?_, hsame⟩, ?_⟩
  · by_contra hne
    obtain ⟨x, hx⟩ := List.exists_mem_of_ne_nil _ hne
    have hversion := hreads.2.2.1 x.key
    obtain ⟨y, hy⟩ := newest_isSome (p := Entry.hits x.key fun _ => true) Entry.version hx (by simp)
    have hfound : e.mem.find x.key (fun _ => true) = some y := by
      rw [SkipList.find_eq_newest, hy]
    have hsnd := congrArg Prod.snd hversion
    rw [getVersion_afterFlush, getVersion, hfound] at hsnd
    exact hb.version_ne y (newest_spec hy).mem hsnd.symm
  · intro hok hflush
    by_cases hnil : e.mem.nodes = []
    · obtain ⟨hget, hby, hver, hrest⟩ := hsame hnil
      exact ⟨hget, hby, fun k => by rw [hver k], hrest⟩
    · obtain ⟨t, ht, ha⟩ := hflush.made
      rw [hmade hok hnil, ht]
      exact sameValues_afterFlush himm hb hnil ht ha hflush.wf hflush.distinct

def onePut : Engine := (fresh 0).dispatch (putNode [97] [0, 1] 0)

def noLog : ValueLog := ⟨fun _ => none, 1, 0⟩

theorem flush_reads_onePut : ∃ e', onePut.flush Config.plain false = some e' ∧
    SameValues Config.plain noLog onePut e' ∧ ¬ SameReads Config.plain noLog onePut e' := by
  have hnodes : onePut.mem.nodes = [⟨[97], [0, 1], false, 0, 2⟩] := by decide
  have hbuilt : onePut.mem.Built := by constructor <;> simp [hnodes]
  obtain ⟨e', he'⟩ : ∃ e', onePut.flush Config.plain false = some e' := ⟨_, rfl⟩
  obtain ⟨hiff, hvalues⟩ := flush_reads Config.plain noLog hbuilt he'
  refine ⟨e', he', ?_, fun h => by simpa [hnodes] using hiff.mp h⟩
  obtain ⟨t, ht⟩ : ∃ t, onePut.flushTable Config.plain = some t := ⟨_, rfl⟩
  have hblocks : t.blocks = [[⟨[97], [0, 1], false, 0, 2⟩]] := by
    cases ht
    decide
  refine hvalues rfl ⟨by simp [hnodes], ⟨t, ht, fun k b hb => ?_⟩,
    by simp [onePut, dispatch, fresh, putNode, allTables], ?_⟩
  · rw [hblocks, List.mem_singleton] at hb
    exact aligned_of_length (by simp [hb, restartInterval])
  · have hlayers : onePut.layers.flatten = [⟨[97], [0, 1], false, 0, 2⟩] := by decide
    intro x hx y hy _ _
    rw [hlayers, List.mem_singleton] at hx hy
    rw [hx, hy]

/-- The version becomes 0, and without the table the key is gone. -/
theorem flush_noticed :
    onePut.getVersion Config.plain noLog [97] = (.ok [1], 2) ∧
    (∃ e', onePut.flush Config.plain false = some e' ∧
      e'.getVersion Config.plain noLog [97] = (.ok [1], 0)) ∧
    onePut.get Config.plain noLog [97] = .ok [1] ∧
    (∃ e', onePut.flush Config.plain true = some e' ∧
      e'.get Config.plain noLog [97] = .error .keyNotFound) :=
  ⟨rfl, ⟨_, rfl, rfl⟩, rfl, ⟨_, rfl, rfl⟩⟩

end Engine
end AkwaDB
