import AkwaDB.Engine.Scan

/-!
# AkwaDB.Engine.PrefixFilter

The filter of prefixes does not show: `getByPrefix` returns the same whether it skips the tables that the filter
denies or asks all of them.

A merge treats the entries of a key as it would without those of other keys (`kmerge_thin`), so a table without
the keys of a prefix may be left out also where versions are equal and the order of the iterators counts.
-/

namespace AkwaDB

/-! ## Merging fewer entries -/

section
variable {q : Bytes → Bool} {iters iters' : List (List Entry)}

theorem kmerge_thin (hs : KeySorted iters) : (kmerge Entry.before iters).filter (fun x => q x.key) =
    kmerge Entry.before (iters.map (List.filter fun x => q x.key)) := by
  refine filter_kmerge (r := fun x y : Entry => x.key ≤ y.key) (fun _ _ _ => le_trans) (fun _ _ => key_le_of_before)
    (fun _ _ => key_le_of_not_before) (fun a b c hb hc hab hbc => ?_) hs
  have hne : b.key ≠ c.key := fun heq => by
    rw [heq, hc] at hb
    cases hb
  have hlt : a.key < c.key := hab.trans_lt (lt_of_le_of_ne hbc hne)
  exact ⟨Entry.before_iff.mpr (.inl hlt), Entry.before_eq_false.mpr ⟨hlt.le, fun heq => absurd heq hlt.ne'⟩⟩

theorem mem_mergedIterator_congr (hs : KeySorted iters) (hs' : KeySorted iters')
    (h : kmerge Entry.before (iters.map (List.filter fun x => q x.key)) =
      kmerge Entry.before (iters'.map (List.filter fun x => q x.key)))
    {x : Entry} (hq : q x.key = true) : x ∈ mergedIterator iters ↔ x ∈ mergedIterator iters' := by
  have hits : ∀ y, Entry.hits x.key (fun _ => true) y = true → q y.key = true := by
    intro y hy
    rw [(Entry.hits_iff.mp hy).1]
    exact hq
  rw [mem_mergedIterator_iff hs, mem_mergedIterator_iff hs', ← newest_filter (kmerge Entry.before iters) hits,
    ← newest_filter (kmerge Entry.before iters') hits, kmerge_thin hs, kmerge_thin hs', h]

end

namespace Engine

open Vlog (ValueLog)

variable (cfg : Config) (vl : ValueLog)

/-- `buildMergedIterator`: the iterators of all tables. -/
def allIters (e : Engine) (pre : Bytes) : List (List Entry) :=
  e.mem.seek pre :: ((e.imm.map fun m => m.1.seek pre).toList ++ (tableOrder e.levels).map fun t => t.seek pre)

def getByPrefixUnfiltered (e : Engine) (pre : Bytes) : List (Bytes × Bytes) :=
  ((mergedIterator (e.allIters pre)).takeWhile fun x => pre.isPrefixOf x.key).filterMap (scanned vl e.now)

def skipped (pre : Bytes) (t : Table) : Bool :=
  match prefixFilterKey pre with
  | some p => !t.mayContainPrefix cfg.xxhash p
  | none => false

variable {cfg} {vl} {e : Engine} {pre : Bytes}

theorem prefixIters_eq (e : Engine) (pre : Bytes) : e.prefixIters cfg pre =
    e.mem.seek pre :: ((e.imm.map fun m => m.1.seek pre).toList ++
      ((tableOrder e.levels).filter fun t => !skipped cfg pre t).map fun t => t.seek pre) := by
  unfold prefixIters skipped
  cases prefixFilterKey pre <;> simp

theorem not_skipped {t : Table} {x : Entry} (hx : x ∈ t.entries) (hpre : pre <+: x.key) :
    skipped cfg pre t = false := by
  unfold skipped
  split
  · rename_i p hp
    rw [← extractPrefix_of_prefix hp hpre, Table.mayContainPrefix_of_mem hx]
    rfl
  · rfl

structure Seekable (t : Table) : Prop where
  sorted : t.entries.Pairwise fun x y => x.key ≤ y.key
  seek_eq : ∀ k, t.seek k = t.entries.dropWhile fun x => decide (x.key < k)

theorem seekable_of_created {now : Int} {seq level : Nat} {es : List Entry} {t : Table} (hs : es.Pairwise Entry.le)
    (h : Table.createAtLevel cfg.xxhash now seq level es = some t) : Seekable t := by
  by_cases hne : es = []
  · subst hne
    cases h
    exact ⟨List.Pairwise.nil, fun _ => rfl⟩
  · have hwf := (Table.createAtLevel_wf hs hne h).1
    exact ⟨table_keys hwf, Table.seek_eq hwf⟩

theorem kmerge_skipped {ts : List Table} (hts : ∀ t ∈ ts, Seekable t) :
    kmerge Entry.before (((ts.filter fun t => !skipped cfg pre t).map fun t => t.seek pre).map
        (List.filter fun x => pre.isPrefixOf x.key)) =
      kmerge Entry.before ((ts.map fun t => t.seek pre).map (List.filter fun x => pre.isPrefixOf x.key)) := by
  induction ts with
  | nil => rfl
  | cons t ts ih =>
    obtain ⟨ht, hrest⟩ := List.forall_mem_cons.mp hts
    rw [List.map_cons, List.map_cons, kmerge_cons, ← ih hrest]
    cases hskip : skipped cfg pre t with
    | false => rw [List.filter_cons_of_pos (by simp [hskip]), List.map_cons, List.map_cons, kmerge_cons]
    | true =>
      have hnone : ((t.seek pre).filter fun x => pre.isPrefixOf x.key) = [] := by
        refine List.filter_eq_nil_iff.mpr fun x hx hpre => ?_
        rw [ht.seek_eq] at hx
        rw [not_skipped ((List.dropWhile_sublist _).subset hx) (List.isPrefixOf_iff_prefix.mp hpre)] at hskip
        cases hskip
      rw [List.filter_cons_of_neg (by simp [hskip]), hnone, List.nil_merge]

theorem allIters_scanned (hts : ∀ t ∈ allTables e.levels, Seekable t) : Scanned pre (e.allIters pre) := by
  refine (iters_spec fun t ht => ?_).1
  have hin := mem_tableOrder.mp ht
  rw [(hts t hin).seek_eq]
  exact ⟨hin, (hts t hin).sorted, List.dropWhile_sublist _, fun x hx => le_of_mem_dropWhile (hts t hin).sorted hx⟩

theorem Scanned.sublist {a b : List (List Entry)} (h : Scanned pre b) (hab : a.Sublist b) : Scanned pre a :=
  ⟨fun l hl => h.sorted l (hab.subset hl), fun x hx => h.above x (hab.flatten.subset hx)⟩

/-- **The prefix filter is invisible**: no table is skipped that holds an entry of any kind below the prefix. -/
theorem prefix_filter_invisible (e : Engine) (pre : Bytes)
    (hbuilt : ∀ t ∈ allTables e.levels, ∃ now seq level es, es.Pairwise Entry.le ∧
      Table.createAtLevel cfg.xxhash now seq level es = some t) :
    e.getByPrefix cfg vl pre = e.getByPrefixUnfiltered vl pre ∧
      ∀ t ∈ allTables e.levels, ∀ x ∈ t.entries, pre <+: x.key → skipped cfg pre t = false := by
  have hts : ∀ t ∈ allTables e.levels, Seekable t := by
    intro t ht
    obtain ⟨now, seq, level, es, hs, hcreate⟩ := hbuilt t ht
    exact seekable_of_created hs hcreate
  refine ⟨?_, fun t _ x hx hpre => not_skipped hx hpre⟩
  have hall : Scanned pre (e.allIters pre) := allIters_scanned hts
  have hfiltered : Scanned pre (e.prefixIters cfg pre) := by
    rw [prefixIters_eq]
    exact hall.sublist (((List.filter_sublist.map _).append_left _).cons_cons _)
  have hthin : kmerge Entry.before ((e.prefixIters cfg pre).map (List.filter fun x => pre.isPrefixOf x.key)) =
      kmerge Entry.before ((e.allIters pre).map (List.filter fun x => pre.isPrefixOf x.key)) := by
    rw [prefixIters_eq, allIters, ← List.cons_append, ← List.cons_append, List.map_append, List.map_append]
    exact kmerge_append_congr (kmerge_skipped fun t ht => hts t (mem_tableOrder.mp ht)) _
  refine congrArg (List.filterMap (scanned vl e.now)) ?_
  refine eq_of_strict (fun x y hlt => not_lt.mpr hlt.le)
    ((mergedIterator_keys hfiltered.sorted).sublist (List.takeWhile_sublist _))
    ((mergedIterator_keys hall.sorted).sublist (List.takeWhile_sublist _)) fun x => ?_
  rw [hfiltered.mem_takeWhile, hall.mem_takeWhile]
  exact and_congr_left fun hq => mem_mergedIterator_congr hfiltered.sorted hall.sorted hthin hq

def onlyTable (t : Table) : Engine := { fresh 0 with levels := fun lvl => if lvl = 0 then [t] else [] }

/-- A value and a tombstone below the prefix, and a key beside it. -/
def prefixed : List Entry :=
  [⟨[97, 0, 98, 0, 99], [0, 7], false, 0, 2⟩, ⟨[97, 0, 98, 0, 100], [], true, 0, 3⟩, ⟨[98], [0, 8], false, 0, 4⟩]

theorem filter_invisible_prefixed :
    ∃ t, Table.createAtLevel Config.plain.xxhash 0 1 0 prefixed = some t ∧
      (onlyTable t).getByPrefix Config.plain ⟨fun _ => none, 1, 2 ^ 27⟩ [97, 0, 98, 0] =
        (onlyTable t).getByPrefixUnfiltered ⟨fun _ => none, 1, 2 ^ 27⟩ [97, 0, 98, 0] := by
  obtain ⟨t, ht⟩ : ∃ t, Table.createAtLevel Config.plain.xxhash 0 1 0 prefixed = some t :=
    Option.isSome_iff_exists.mp (by decide +kernel)
  refine ⟨t, ht, (prefix_filter_invisible (onlyTable t) [97, 0, 98, 0] fun u hu => ?_).1⟩
  obtain rfl : u = t := List.mem_singleton.mp hu
  exact ⟨0, 1, 0, _, by decide +kernel, ht⟩

end Engine
end AkwaDB
