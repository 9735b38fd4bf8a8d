import AkwaDB.Engine.Read

/-!
# AkwaDB.Engine.Scan

`getByPrefix`: iterators over the memtables and the tables, each moved to the prefix, are merged, and
of the versions of a key the newest one counts.

A table is skipped when its prefix filter denies the first two parts of the prefix.

`mem_getByPrefix`: the scan finds a key with the value that the newest of all its versions has.
-/

namespace AkwaDB

def inPart (b : UInt8) : Bool := b != 0

def extractPrefix (key : Bytes) : Bytes :=
  match key.dropWhile inPart with
  | [] => key
  | z :: rest => key.takeWhile inPart ++ z :: rest.takeWhile inPart

def prefixFilterKey (pre : Bytes) : Option Bytes :=
  let p := extractPrefix pre
  if p.length < pre.length ∧ pre[p.length]? = some 0 then some p else none

theorem split_at_zero (b : Bytes) : (∀ x ∈ b.takeWhile inPart, inPart x = true) ∧
    (b.dropWhile inPart = [] ∨ ∃ rest, b.dropWhile inPart = 0 :: rest) := by
  refine ⟨fun x hx => List.mem_takeWhile_imp hx, ?_⟩
  cases hd : b.dropWhile inPart with
  | nil => exact Or.inl rfl
  | cons z rest =>
    have hz := List.head_dropWhile_not inPart (l := b) (by rw [hd]; simp)
    simp only [hd, List.head_cons, inPart, bne_eq_false_iff_eq] at hz
    exact Or.inr ⟨rest, by rw [hz]⟩

theorem extractPrefix_parts {a b : Bytes} (ha : ∀ x ∈ a, inPart x = true)
    (hb : ∀ x ∈ b, inPart x = true) (c : Bytes) :
    extractPrefix (a ++ 0 :: (b ++ 0 :: c)) = a ++ 0 :: b := by
  rw [extractPrefix, List.dropWhile_append_of_pos ha, List.takeWhile_append_of_pos ha,
    List.dropWhile_cons_of_neg (by decide), List.takeWhile_cons_of_neg (by decide), List.append_nil]
  dsimp only
  rw [List.takeWhile_append_of_pos hb, List.takeWhile_cons_of_neg (by decide), List.append_nil]

theorem prefixFilterKey_eq_some {pre p : Bytes} (h : prefixFilterKey pre = some p) :
    ∃ a b c, (∀ x ∈ a, inPart x = true) ∧ (∀ x ∈ b, inPart x = true) ∧
      pre = a ++ 0 :: (b ++ 0 :: c) := by
  have hlt : (extractPrefix pre).length < pre.length := by
    by_contra hge
    rw [prefixFilterKey] at h
    rw [if_neg fun hif => hge hif.1] at h
    cases h
  have hpre := List.takeWhile_append_dropWhile (p := inPart) (l := pre)
  obtain ⟨ha, hz⟩ := split_at_zero pre
  rw [extractPrefix] at hlt
  rcases hz with hz | ⟨rest, hz⟩
  · rw [hz] at hlt
    exact absurd hlt (Nat.lt_irrefl _)
  rw [hz] at hlt hpre
  dsimp only at hlt
  have hrest := List.takeWhile_append_dropWhile (p := inPart) (l := rest)
  obtain ⟨hb, hz'⟩ := split_at_zero rest
  rcases hz' with hz' | ⟨c, hz'⟩
  · -- a prefix of two parts is all of it
    rw [hz', List.append_nil] at hrest
    rw [hrest, hpre] at hlt
    exact absurd hlt (Nat.lt_irrefl _)
  · rw [hz'] at hrest
    exact ⟨_, _, c, ha, hb, by rw [hrest, hpre]⟩

theorem extractPrefix_of_prefix {pre p k : Bytes} (h : prefixFilterKey pre = some p) (hk : pre <+: k) :
    extractPrefix k = p := by
  obtain ⟨a, b, c, ha, hb, hpre⟩ := prefixFilterKey_eq_some h
  have hp : p = extractPrefix pre := by
    rw [prefixFilterKey] at h
    split at h
    · exact (Option.some.inj h).symm
    · cases h
  obtain ⟨rest, rfl⟩ := hk
  rw [hp, hpre, extractPrefix_parts ha hb, List.append_assoc, List.cons_append, List.append_assoc,
    List.cons_append, extractPrefix_parts ha hb]

def SkipList.seek (s : SkipList) (k : Bytes) : List Entry :=
  s.nodes.dropWhile fun x => decide (x.key < k)

namespace Table

/-- `Seek` on the iterator of a table: from the block the index names, or the first. -/
def seek (t : Table) (k : Bytes) : List Entry :=
  let targetIdx := (search (t.indexProbe k) t.blocks.length).getD 0
  (t.blocks.drop targetIdx).flatten.dropWhile fun x => decide (x.key < k)

variable (xxhash : Bytes → UInt64)

def mayContainPrefix (t : Table) (p : Bytes) : Bool :=
  (Filter.newFilter xxhash (t.entries.map fun x => extractPrefix x.key)).mayContain xxhash p

variable {xxhash}

theorem search_index {t : Table} (h : t.WF xxhash) {k : Bytes} {i : Nat}
    (hs : search (t.indexProbe k) t.blocks.length = some i) : i < t.blocks.length ∧ t.indexKey i ≤ k := by
  obtain ⟨c, hc⟩ := indexProbe_splits h k
  have hin : i < t.blocks.length ∧ (t.indexProbe k i).right = true := by
    rcases search_some hc hs with hi | ⟨rfl, hin, ht⟩
    · have hlt : i < t.blocks.length := Nat.lt_of_lt_of_le (by omega) hc.le
      exact ⟨hlt, (hc.right i hlt).mpr (by omega)⟩
    · exact ⟨hin, by simpa [indexProbe] using ht⟩
  exact ⟨hin.1, by simpa [indexProbe] using hin.2⟩

theorem lt_of_search {t : Table} (h : t.WF xxhash) {k : Bytes} {i : Nat}
    (hs : search (t.indexProbe k) t.blocks.length = some i) {y : Entry} (hy : y ∈ (t.blocks.take i).flatten) :
    y.key < k := by
  obtain ⟨hi, hle⟩ := search_index h hs
  obtain ⟨x, b, hb⟩ := exists_block h hi
  rw [indexKey_eq hb] at hle
  obtain ⟨c, hc, hyc⟩ := List.mem_flatten.mp hy
  obtain ⟨j, hj, rfl⟩ := List.mem_take_iff_getElem.mp hc
  have hlt := block_lt h (List.getElem?_eq_getElem (by omega)) hb (by omega) hyc (y := x) (by simp)
  exact hlt.trans_le hle

theorem seek_eq {t : Table} (h : t.WF xxhash) (k : Bytes) :
    t.seek k = t.entries.dropWhile fun x => decide (x.key < k) := by
  rw [seek]
  cases hs : search (t.indexProbe k) t.blocks.length with
  | none => rfl
  | some i =>
    have hskip : ∀ y ∈ (t.blocks.take i).flatten, decide (y.key < k) = true :=
      fun y hy => decide_eq_true (lt_of_search h hs hy)
    rw [Option.getD_some, entries]
    nth_rewrite 2 [← List.take_append_drop i t.blocks]
    rw [List.flatten_append, List.dropWhile_append_of_pos hskip]

theorem mayContainPrefix_of_mem {t : Table} {x : Entry} (hx : x ∈ t.entries) :
    t.mayContainPrefix xxhash (extractPrefix x.key) = true :=
  Filter.newFilter_mayContain (List.mem_map.mpr ⟨x, hx, rfl⟩)

end Table

/-- What `MergedIterator` yields: of each key the newest version, of equal ones the first. -/
def mergedIterator (iters : List (List Entry)) : List Entry :=
  (groupByKey (kmerge Entry.before iters)).filterMap (newest Entry.version fun _ => true)

def KeySorted (iters : List (List Entry)) : Prop := ∀ l ∈ iters, l.Pairwise fun x y => x.key ≤ y.key

section
variable {iters : List (List Entry)}

theorem key_le_of_before {a b : Entry} (h : Entry.before a b = true) : a.key ≤ b.key :=
  (Entry.le_iff.mp (Entry.le_of_before h)).1

theorem key_le_of_not_before {a b : Entry} (h : Entry.before a b = false) : b.key ≤ a.key :=
  (Entry.before_eq_false.mp h).1

theorem kmerge_keys (hs : KeySorted iters) : (kmerge Entry.before iters).Pairwise fun x y => x.key ≤ y.key :=
  kmerge_pairwise (fun _ _ _ => le_trans) (fun _ _ => key_le_of_before) (fun _ _ => key_le_of_not_before) hs

theorem mergedIterator_keys (hs : KeySorted iters) : (mergedIterator iters).Pairwise fun x y => x.key < y.key := by
  refine List.pairwise_filterMap.mpr ((groupByKey_apart_of_keys (kmerge_keys hs)).imp ?_)
  intro g g' hapart x hx y hy
  exact hapart x (newest_spec hx).mem y (newest_spec hy).mem

def Distinct (l : List Entry) : Prop :=
  ∀ x ∈ l, ∀ y ∈ l, x.key = y.key → x.version = y.version → x = y

theorem Distinct.separates {l : List Entry} (h : Distinct l) (k : Bytes) (ok : Nat → Bool) :
    Separates Entry.version (Entry.hits k ok) l := by
  intro x hx y hy hpx hpy
  exact h x hx y hy (Entry.key_eq_of_hits hpx hpy)

theorem mem_kmerge {x : Entry} : x ∈ kmerge Entry.before iters ↔ x ∈ iters.flatten :=
  (kmerge_perm iters).mem_iff

theorem mem_mergedIterator_iff (hs : KeySorted iters) {x : Entry} : x ∈ mergedIterator iters ↔
    newest Entry.version (Entry.hits x.key fun _ => true) (kmerge Entry.before iters) = some x := by
  have hapart := groupByKey_apart_of_keys (kmerge_keys hs)
  have hgroup : ∀ g ∈ groupByKey (kmerge Entry.before iters), ∀ y ∈ g,
      newest Entry.version (fun _ => true) g =
        newest Entry.version (Entry.hits y.key fun _ => true) (kmerge Entry.before iters) := by
    intro g hg y hy
    have hkey := groupByKey_key g hg
    obtain ⟨before, after, hsplit⟩ := List.append_of_mem hg
    rw [hsplit] at hapart
    obtain ⟨-, hafter, hbefore⟩ := List.pairwise_append.mp hapart
    rw [← groupByKey_flatten (kmerge Entry.before iters), hsplit, List.flatten_append, List.flatten_cons,
      newest_append_of_not, newest_append_not]
    · exact newest_ext fun z hz => (Entry.hits_iff.mpr ⟨hkey z hz y hy, rfl⟩).symm
    · intro z hz
      obtain ⟨g', hg', hz⟩ := List.mem_flatten.mp hz
      have hlt := (List.pairwise_cons.mp hafter).1 g' hg' y hy z hz
      exact Bool.eq_false_iff.mpr fun hhit => hlt.ne' (Entry.hits_iff.mp hhit).1
    · intro z hz
      obtain ⟨g', hg', hz⟩ := List.mem_flatten.mp hz
      have hlt := hbefore g' hg' g List.mem_cons_self z hz y hy
      exact Bool.eq_false_iff.mpr fun hhit => hlt.ne (Entry.hits_iff.mp hhit).1
  rw [mergedIterator, List.mem_filterMap]
  constructor
  · rintro ⟨g, hg, hx⟩
    rw [← hgroup g hg x (newest_spec hx).mem, hx]
  · intro hx
    have hmem := (newest_spec hx).mem
    rw [← groupByKey_flatten (kmerge Entry.before iters)] at hmem
    obtain ⟨g, hg, hxg⟩ := List.mem_flatten.mp hmem
    exact ⟨g, hg, by rw [hgroup g hg x hxg, hx]⟩

theorem mem_mergedIterator (hs : KeySorted iters) (hd : Distinct iters.flatten) {x : Entry} :
    x ∈ mergedIterator iters ↔
      newest Entry.version (Entry.hits x.key fun _ => true) iters.flatten = some x := by
  rw [mem_mergedIterator_iff hs, newest_congr (hd.separates x.key fun _ => true) fun _ => and_congr_left fun _ =>
    mem_kmerge.symm]

end

namespace Engine

open Vlog (ValueLog resolveValue)

variable (cfg : Config) (vl : ValueLog)

/-- `buildMergedIteratorFiltered`: the iterators from the highest priority to the lowest. -/
def prefixIters (e : Engine) (pre : Bytes) : List (List Entry) :=
  let mayHave (t : Table) : Bool :=
    match prefixFilterKey pre with
    | some p => t.mayContainPrefix cfg.xxhash p
    | none => true
  e.mem.seek pre :: ((e.imm.map fun m => m.1.seek pre).toList ++
    ((tableOrder e.levels).filter mayHave).map fun t => t.seek pre)

/-- What the scan makes of an entry: the tests of expiry are not those of the point reads. -/
def scanned (now : Int) (x : Entry) : Option (Bytes × Bytes) :=
  if x.deleted = false ∧ (x.expiresAt = 0 ∨ now < x.expiresAt) then
    (resolveValue vl x.value).map fun v => (x.key, v)
  else none

def getByPrefix (e : Engine) (pre : Bytes) : List (Bytes × Bytes) :=
  ((mergedIterator (e.prefixIters cfg pre)).takeWhile fun x => pre.isPrefixOf x.key).filterMap
    (scanned vl e.now)

variable {cfg} {vl}

theorem mem_dropWhile_keys {l : List Entry} (hs : l.Pairwise fun x y => x.key ≤ y.key) {k : Bytes}
    {x : Entry} : x ∈ l.dropWhile (fun y => decide (y.key < k)) ↔ x ∈ l ∧ k ≤ x.key := by
  refine ⟨fun hx => ⟨(List.dropWhile_sublist _).subset hx, le_of_mem_dropWhile hs hx⟩, ?_⟩
  rintro ⟨hx, hk⟩
  rw [← List.takeWhile_append_dropWhile (p := fun y : Entry => decide (y.key < k)) (l := l)] at hx
  exact (List.mem_append.mp hx).resolve_left fun h => not_lt.mpr hk (lt_of_mem_takeWhile h)

theorem scanned_key {now : Int} {x : Entry} {q : Bytes × Bytes} (h : scanned vl now x = some q) :
    x.key = q.1 := by
  unfold scanned at h
  split at h
  · obtain ⟨v, _, rfl⟩ := Option.map_eq_some_iff.mp h
    rfl
  · cases h

section
variable {e : Engine} {pre : Bytes}

theorem table_keys {t : Table} (h : t.WF cfg.xxhash) : t.entries.Pairwise fun x y => x.key ≤ y.key :=
  h.sorted.imp fun hxy => (Entry.le_iff.mp hxy).1

structure Scanned (pre : Bytes) (iters : List (List Entry)) : Prop where
  sorted : KeySorted iters
  above : ∀ x ∈ iters.flatten, pre ≤ x.key

theorem iters_spec {ts : List Table} {seek : Table → List Entry} (h : ∀ t ∈ ts, t ∈ allTables e.levels ∧
      (t.entries.Pairwise fun x y => x.key ≤ y.key) ∧ (seek t).Sublist t.entries ∧ ∀ x ∈ seek t, pre ≤ x.key) :
    Scanned pre (e.mem.seek pre :: ((e.imm.map fun m => m.1.seek pre).toList ++ ts.map seek)) ∧
      ∀ x ∈ (e.mem.seek pre :: ((e.imm.map fun m => m.1.seek pre).toList ++ ts.map seek)).flatten,
        x ∈ e.layers.flatten := by
  have hcases : ∀ l ∈ e.mem.seek pre :: ((e.imm.map fun m => m.1.seek pre).toList ++ ts.map seek),
      (l.Pairwise fun x y => x.key ≤ y.key) ∧ ∀ x ∈ l, x ∈ e.layers.flatten ∧ pre ≤ x.key := by
    intro l hl
    simp only [List.mem_cons, List.mem_append, Option.mem_toList, Option.map_eq_some_iff, List.mem_map] at hl
    rcases hl with rfl | ⟨m, hm, rfl⟩ | ⟨t, ht, rfl⟩
    · refine ⟨e.mem.keysSorted.sublist (List.dropWhile_sublist _), fun x hx => ?_⟩
      obtain ⟨hmem, hle⟩ := (mem_dropWhile_keys e.mem.keysSorted).mp hx
      exact ⟨mem_layers.mpr (Or.inl hmem), hle⟩
    · refine ⟨m.1.keysSorted.sublist (List.dropWhile_sublist _), fun x hx => ?_⟩
      obtain ⟨hmem, hle⟩ := (mem_dropWhile_keys m.1.keysSorted).mp hx
      exact ⟨mem_layers.mpr (Or.inr (Or.inl (by rw [immNodes, hm]; exact hmem))), hle⟩
    · obtain ⟨hin, hkeys, hsub, hge⟩ := h t ht
      exact ⟨hkeys.sublist hsub, fun x hx => ⟨mem_layers.mpr (Or.inr (Or.inr ⟨t, hin, hsub.subset hx⟩)), hge x hx⟩⟩
  refine ⟨⟨fun l hl => (hcases l hl).1, fun x hx => ?_⟩, fun x hx => ?_⟩
  · obtain ⟨l, hl, hxl⟩ := List.mem_flatten.mp hx
    exact ((hcases l hl).2 x hxl).2
  · obtain ⟨l, hl, hxl⟩ := List.mem_flatten.mp hx
    exact ((hcases l hl).2 x hxl).1

theorem prefixIters_spec (pre : Bytes) (hwf : ∀ t ∈ allTables e.levels, t.WF cfg.xxhash) :
    Scanned pre (e.prefixIters cfg pre) ∧ ∀ x ∈ (e.prefixIters cfg pre).flatten, x ∈ e.layers.flatten := by
  refine iters_spec fun t ht => ?_
  have hin := mem_tableOrder.mp (List.mem_filter.mp ht).1
  have hkeys := table_keys (hwf t hin)
  rw [Table.seek_eq (hwf t hin)]
  exact ⟨hin, hkeys, List.dropWhile_sublist _, fun x hx => le_of_mem_dropWhile hkeys hx⟩

theorem mem_prefixIters (hwf : ∀ t ∈ allTables e.levels, t.WF cfg.xxhash) {x : Entry}
    (hpre : pre <+: x.key) : x ∈ (e.prefixIters cfg pre).flatten ↔ x ∈ e.layers.flatten := by
  refine ⟨fun hx => (prefixIters_spec pre hwf).2 x hx, fun hx => ?_⟩
  have hle : pre ≤ x.key := not_lt.mp (List.IsPrefix.le hpre)
  rw [prefixIters, List.flatten_cons, List.flatten_append, List.mem_append, List.mem_append]
  rcases mem_layers.mp hx with hmem | himm | ⟨t, ht, hxt⟩
  · exact Or.inl ((mem_dropWhile_keys e.mem.keysSorted).mpr ⟨hmem, hle⟩)
  · refine Or.inr (Or.inl ?_)
    unfold immNodes at himm
    cases hm : e.imm with
    | none => simp [hm] at himm
    | some m =>
      simp only [hm] at himm
      simpa [SkipList.seek] using (mem_dropWhile_keys m.1.keysSorted).mpr ⟨himm, hle⟩
  · refine Or.inr (Or.inr (List.mem_flatten.mpr ⟨t.seek pre, List.mem_map.mpr ⟨t, ?_, rfl⟩, ?_⟩))
    · refine List.mem_filter.mpr ⟨mem_tableOrder.mpr ht, ?_⟩
      cases hp : prefixFilterKey pre with
      | none => rfl
      | some p =>
        dsimp only
        rw [← extractPrefix_of_prefix hp hpre]
        exact Table.mayContainPrefix_of_mem hxt
    · rw [Table.seek_eq (hwf t ht)]
      exact (mem_dropWhile_keys (table_keys (hwf t ht))).mpr ⟨hxt, hle⟩

theorem Scanned.mem_takeWhile {iters : List (List Entry)} (h : Scanned pre iters) {x : Entry} :
    x ∈ (mergedIterator iters).takeWhile (fun x => pre.isPrefixOf x.key) ↔
      x ∈ mergedIterator iters ∧ pre.isPrefixOf x.key = true := by
  refine mem_takeWhile_iff ((mergedIterator_keys h.sorted).imp_of_mem ?_)
  intro x y hx _ hlt hy
  rw [List.isPrefixOf_iff_prefix] at hy ⊢
  have hmem := mem_kmerge.mp (newest_spec ((mem_mergedIterator_iff h.sorted).mp hx)).mem
  exact prefix_of_between (h.above x hmem) hlt.le hy

theorem mem_scan {iters : List (List Entry)} {now : Int} (h : Scanned pre iters) (hd : Distinct iters.flatten)
    {q : Bytes × Bytes} :
    q ∈ ((mergedIterator iters).takeWhile fun x => pre.isPrefixOf x.key).filterMap (scanned vl now) ↔
      pre <+: q.1 ∧ ∃ x, newest Entry.version (Entry.hits q.1 fun _ => true) iters.flatten = some x ∧
        scanned vl now x = some q := by
  simp only [List.mem_filterMap, h.mem_takeWhile, mem_mergedIterator h.sorted hd, List.isPrefixOf_iff_prefix]
  constructor
  · rintro ⟨x, ⟨hfound, hpre⟩, hscan⟩
    rw [scanned_key hscan] at hfound hpre
    exact ⟨hpre, x, hfound, hscan⟩
  · rintro ⟨hpre, x, hfound, hscan⟩
    rw [← scanned_key hscan] at hfound hpre
    exact ⟨x, ⟨hfound, hpre⟩, hscan⟩

/-- **What a scan finds**: the keys below the prefix whose newest version is alive and resolves. -/
theorem mem_getByPrefix (hwf : ∀ t ∈ allTables e.levels, t.WF cfg.xxhash)
    (hd : Distinct e.layers.flatten) {q : Bytes × Bytes} :
    q ∈ e.getByPrefix cfg vl pre ↔ pre <+: q.1 ∧ ∃ x,
      newest Entry.version (Entry.hits q.1 fun _ => true) e.layers.flatten = some x ∧
        scanned vl e.now x = some q := by
  obtain ⟨hscanned, hsub⟩ := prefixIters_spec pre hwf
  have hd' : Distinct (e.prefixIters cfg pre).flatten := fun x hx y hy => hd x (hsub x hx) y (hsub y hy)
  have hnewest : ∀ k, pre <+: k →
      newest Entry.version (Entry.hits k fun _ => true) (e.prefixIters cfg pre).flatten =
        newest Entry.version (Entry.hits k fun _ => true) e.layers.flatten := by
    intro k hk
    refine newest_congr (hd'.separates k _) fun x => ?_
    refine and_congr_left fun hx => mem_prefixIters hwf ?_
    rw [(Entry.hits_iff.mp hx).1]
    exact hk
  rw [getByPrefix, mem_scan hscanned hd']
  exact and_congr_right fun hpre => by rw [hnewest q.1 hpre]

theorem getByPrefix_keys (hwf : ∀ t ∈ allTables e.levels, t.WF cfg.xxhash) :
    (e.getByPrefix cfg vl pre).Pairwise fun q q' => q.1 < q'.1 := by
  refine List.pairwise_filterMap.mpr ?_
  refine ((mergedIterator_keys (prefixIters_spec pre hwf).1.sorted).sublist (List.takeWhile_sublist _)).imp ?_
  intro x y hlt q hq q' hq'
  rwa [← scanned_key hq, ← scanned_key hq']

end

end Engine
end AkwaDB
