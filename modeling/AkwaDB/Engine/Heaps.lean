import AkwaDB.Engine.Adopt
import AkwaDB.Iterator.Merged

/-!
# AkwaDB.Engine.Heaps

Compactions read a `MergedVersionIterator`, scans a `MergedIterator`, and both are heaps. The engine's model takes the
merges as functions of their inputs; here these are shown to be what any heap within the contract of `container/heap`
computes.

- `mergedVersions_eq_kmerge`: the heap of a compaction yields `kmerge`.
- `heap_scan_get`: in every state of a run, a scan over the heap finds what `Get` finds.
- `untouched_shows`: what a run does not write reads as before.
-/

namespace AkwaDB
namespace Iterator

/-! ## All versions -/

section
variable {σ : Type} (S : Source σ) (H : HeapOps σ)

/-- `MergedVersionIterator.Next` until it is invalid: the front is yielded and moved on, nothing is left out. -/
def collectVersions : Nat → List (HeapItem σ) → List Entry
  | 0, _ => []
  | _ + 1, [] => []
  | fuel + 1, top :: heap => top.entry :: collectVersions fuel (advance S H top (H.pop (top :: heap)))

variable {S} {H} {heap : List (HeapItem σ)}

theorem front_entry_le {x : HeapItem σ} (hok : H.Ok (x :: heap)) (hord : Ordered S Entry.le (x :: heap))
    {t : Entry × Int} (ht : t ∈ tagged S (x :: heap)) : x.entry.le t.1 := by
  obtain ⟨it, hit, hmem, -⟩ := mem_tagged.mp ht
  have hhead : x.entry.le it.entry := by
    rcases List.mem_cons.mp hit with rfl | hit
    · exact Entry.le_iff.mpr ⟨le_rfl, fun _ => le_rfl⟩
    · obtain ⟨hkey, hver⟩ := less_eq_false.mp (H.front hok it hit)
      exact Entry.le_iff.mpr ⟨hkey, fun heq => (hver heq).1⟩
  rcases List.mem_cons.mp hmem with heq | hmem
  · exact heq ▸ hhead
  · exact Entry.le_trans hhead ((List.pairwise_cons.mp (hord it hit).2).1 _ hmem)

theorem collectVersions_spec {fuel : Nat} (hok : H.Ok heap) (hord : Ordered S Entry.le heap)
    (hfuel : (tagged S heap).length ≤ fuel) :
    (collectVersions S H fuel heap).Perm ((tagged S heap).map Prod.fst) ∧
      VersionSorted (collectVersions S H fuel heap) := by
  induction fuel generalizing heap with
  | zero =>
    rw [List.length_eq_zero_iff.mp (Nat.le_zero.mp hfuel)]
    exact ⟨List.Perm.nil, List.Pairwise.nil⟩
  | succ fuel ih =>
    cases heap with
    | nil => exact ⟨List.Perm.nil, List.Pairwise.nil⟩
    | cons top heap =>
      obtain ⟨hok', hord', hperm⟩ := take_front hok hord
      have hlen := hperm.length_eq
      rw [List.length_cons] at hlen
      obtain ⟨hrest, hsorted⟩ := ih hok' hord' (by omega)
      refine ⟨(hrest.cons _).trans (hperm.map Prod.fst).symm, List.pairwise_cons.mpr ⟨fun y hy => ?_, hsorted⟩⟩
      obtain ⟨t, ht, rfl⟩ := List.mem_map.mp (hrest.mem_iff.mp hy)
      exact front_entry_le hok hord (hperm.mem_iff.mpr (List.mem_cons_of_mem _ ht))

end

/-- `NewMergedVersionIterator`: a heap without priorities. -/
def mergedVersions (H : HeapOps (List Entry)) (iters : List (List Entry)) : List Entry :=
  collectVersions lists H iters.flatten.length (H.init (items (iters.map fun l => (l, 0))))

section
variable (H : HeapOps (List Entry)) {sources : List (List Entry × Int)} {iters : List (List Entry)}

theorem init_spec {r : Entry → Entry → Prop} (h : ∀ l ∈ sources.map Prod.fst, l.Pairwise r) :
    Ordered lists r (H.init (items sources)) ∧
      ((tagged lists (H.init (items sources))).map Prod.fst).Perm (sources.map Prod.fst).flatten := by
  have hfst : (allEntries sources).map Prod.fst = (sources.map Prod.fst).flatten := by
    simp [allEntries, List.flatMap_def, Function.comp_def]
  refine ⟨(ordered_items fun s hs => h s.1 (List.mem_map_of_mem hs)).perm (H.init_perm _), ?_⟩
  rw [← hfst, ← tagged_items]
  exact (tagged_perm (H.init_perm _)).map _

/-- **What a compaction reads**: every version once and in order, whatever the heap does with equal ones. -/
theorem mergedVersions_eq_kmerge (hs : ∀ l ∈ iters, VersionSorted l) :
    (mergedVersions H iters).Perm iters.flatten ∧ VersionSorted (mergedVersions H iters) ∧
      (Distinct iters.flatten → mergedVersions H iters = kmerge Entry.before iters) := by
  have hfst : (iters.map fun l => (l, (0 : Int))).map Prod.fst = iters := by simp [Function.comp_def]
  obtain ⟨hord, htagged⟩ := init_spec H (r := Entry.le) (by rwa [hfst])
  rw [hfst] at htagged
  have hlen := htagged.length_eq.le
  rw [List.length_map] at hlen
  obtain ⟨hperm, hsorted⟩ := collectVersions_spec (H.init_ok _) hord hlen
  have hall : (mergedVersions H iters).Perm iters.flatten := hperm.trans htagged
  refine ⟨hall, hsorted, fun hd => ?_⟩
  refine List.Perm.eq_of_pairwise ?_ hsorted (versionSorted_kmerge hs) (hall.trans (kmerge_perm iters).symm)
  intro a b ha hb hab hba
  obtain ⟨hkey, hver⟩ := Entry.le_iff.mp hab
  obtain ⟨hkey', hver'⟩ := Entry.le_iff.mp hba
  have heq : a.key = b.key := le_antisymm hkey hkey'
  exact hd a (hall.mem_iff.mp ha) b (mem_kmerge.mp hb) heq (le_antisymm (hver' heq) (hver heq.symm))

theorem mergedVersions_eq_kmerge_two :
    let iters : List (List Entry) := [[⟨[107], [50], false, 0, 5⟩], [⟨[107], [49], false, 0, 3⟩]]
    mergedVersions (sortedArray _) iters = kmerge Entry.before iters :=
  (mergedVersions_eq_kmerge (sortedArray _) (by decide)).2.2 (by unfold Distinct; decide)

/-! ## The newest versions -/

theorem merged_eq (hs : KeySorted (sources.map Prod.fst)) (hd : Distinct (sources.map Prod.fst).flatten) :
    merged H sources = mergedIterator (sources.map Prod.fst) := by
  obtain ⟨hord, hperm⟩ := init_spec H hs
  have hmem : ∀ x, x ∈ (sources.map Prod.fst).flatten ↔ ∃ p, (x, p) ∈ tagged lists (H.init (items sources)) := by
    intro x
    rw [← hperm.mem_iff]
    simp
  have hlen := hperm.length_eq.le
  rw [List.length_map, List.length_flatten, List.map_map] at hlen
  obtain ⟨hy, -⟩ := collect_spec (H.init_ok _) hord hlen
  refine eq_of_strict (fun _ _ => lt_asymm) hy.sorted (mergedIterator_keys hs) fun x => ?_
  rw [mem_mergedIterator hs hd, newest_eq_some_iff (hd.separates _ _)]
  constructor
  · intro hx
    refine ⟨(hmem x).mpr (hy.given x hx), by simp, fun y hmy hhit => ?_⟩
    obtain ⟨p, hp⟩ := (hmem y).mp hmy
    exact hy.newest x hx (y, p) hp (Entry.hits_iff.mp hhit).1
  · intro hx
    obtain ⟨p, hp⟩ := (hmem x).mp hx.mem
    obtain ⟨y, hyo, hkey⟩ := hy.complete (x, p) hp
    have hmy := (hmem y).mpr (hy.given y hyo)
    -- what comes out of the key has the highest version as well
    have hle : y.version ≤ x.version := hx.max y hmy (by simpa using hkey)
    rwa [← hd y hmy x hx.mem hkey (hle.antisymm (hy.newest y hyo (x, p) hp hkey.symm))]

end
end Iterator

namespace Engine

open Vlog (ValueLog)

variable {cfg : Config} {vl : ValueLog} {e : Engine}

/-- Of every key all reads say what one entry says, a tombstone if there is none. -/
theorem Tidy.exists_shown (h : Tidy cfg e) {k : Bytes}
    (h0 : ∀ x ∈ e.layers.flatten, x.key = k → 0 ≤ x.expiresAt) : ∃ x, x.key = k ∧ 0 ≤ x.expiresAt ∧ Shown e x := by
  cases hn : newest Entry.version (Entry.hits k fun _ => true) e.layers.flatten with
  | some x =>
    have hx := newest_spec hn
    obtain rfl := (Entry.hits_iff.mp hx.pass).1
    refine ⟨x, rfl, h0 x hx.mem rfl, fun y hy hk => hx.max y hy (by simp [hk]), fun y hy hk hv => ?_,
      Or.inl ⟨x, hx.mem, rfl, rfl⟩⟩
    exact h.distinct y hy x hx.mem hk hv ▸ .refl _ _
  | none =>
    have hno : ∀ y ∈ e.layers.flatten, y.key ≠ k := fun y hy => by
      simpa [Entry.hits] using newest_eq_none.mp hn y hy
    exact ⟨⟨k, [], true, 0, 0⟩, rfl, le_rfl, fun y hy hk => absurd hk (hno y hy), fun y hy hk => absurd hk (hno y hy),
      Or.inr ⟨rfl, hno⟩⟩

variable {now : Int} {calls : List Act}

theorem tidy_run (hg : Guarded (act cfg) (ActOk cfg) (fresh now) calls)
    (hr : run (act cfg) (fresh now) calls = some e) :
    Tidy cfg e := run_invariant (fun h hok hs => (h.act hok hs).1) (tidy_fresh now) hg hr

/-- **Scans agree with point reads** after every run, over the heap and with whatever priorities. -/
theorem heap_scan_get (hg : Guarded (act cfg) (ActOk cfg) (fresh now) calls)
    (hr : run (act cfg) (fresh now) calls = some e) (H : Iterator.HeapOps (List Entry))
    {sources : List (List Entry × Int)} {pre : Bytes} (hsrc : sources.map Prod.fst = e.prefixIters cfg pre) :
    let found := ((Iterator.merged H sources).takeWhile fun x => pre.isPrefixOf x.key).filterMap (scanned vl e.now)
    (found.Pairwise fun q q' => q.1 < q'.1) ∧
      ∀ k v, pre <+: k → (∀ t ∈ allTables e.levels, t.Aligned k) →
        (∀ x ∈ e.layers.flatten, x.key = k → 0 ≤ x.expiresAt) →
        ((k, v) ∈ found ↔ e.get cfg vl k = .ok v) := by
  have ht := tidy_run hg hr
  obtain ⟨hscanned, hsub⟩ := prefixIters_spec pre ht.ordered.wf
  have hmerged : Iterator.merged H sources = mergedIterator (sources.map Prod.fst) := by
    refine Iterator.merged_eq H ?_ ?_
    · rw [hsrc]
      exact hscanned.sorted
    · rw [hsrc]
      exact fun x hx y hy => ht.distinct x (hsub x hx) y (hsub y hy)
  intro found
  have hfound : found = e.getByPrefix cfg vl pre := by
    rw [getByPrefix, ← hsrc, ← hmerged]
  rw [hfound]
  refine ⟨getByPrefix_keys ht.ordered.wf, fun k v hpre ha h0 => ?_⟩
  obtain ⟨x, rfl, h0x, hshown⟩ := ht.exists_shown h0
  obtain ⟨hget, -, -, hscan⟩ := hshown.shows vl ht ha h0x
  rw [hget, hscan pre hpre]

theorem heap_scan_get_twoPuts : ∃ e, run (act eager) (fresh 0) twoPuts = some e ∧
    let found := ((Iterator.merged (Iterator.sortedArray _) ((e.prefixIters eager []).map fun l => (l, 900))).takeWhile
      fun x => List.isPrefixOf [] x.key).filterMap (scanned noLog e.now)
    (found.Pairwise fun q q' => q.1 < q'.1) ∧ ([97], [1]) ∈ found ∧ ([98], [2]) ∈ found ∧ ([99], [2]) ∉ found := by
  obtain ⟨e, h⟩ : ∃ e, run (act eager) (fresh 0) twoPuts = some e := ⟨_, rfl⟩
  have hends : (∀ x ∈ e.layers.flatten, 0 ≤ x.expiresAt) ∧
      (∀ t ∈ allTables e.levels, ∀ b ∈ t.blocks, b.length ≤ restartInterval) ∧
      e.get eager noLog [97] = .ok [1] ∧ e.get eager noLog [98] = .ok [2] ∧ e.get eager noLog [99] ≠ .ok [2] := by
    cases h
    decide +kernel
  obtain ⟨h0, hshort, ha, hb, hc⟩ := hends
  obtain ⟨hsorted, hmem⟩ := @heap_scan_get eager noLog e 0 twoPuts twoPuts_guarded h (Iterator.sortedArray _)
    ((e.prefixIters eager []).map fun l => (l, 900)) [] (by simp [Function.comp_def])
  have hfound := fun k v => hmem k v List.nil_prefix (fun t ht b hb => aligned_of_length (hshort t ht b hb))
    fun x hx _ => h0 x hx
  exact ⟨e, h, hsorted, (hfound _ _).mpr ha, (hfound _ _).mpr hb, fun hin => hc ((hfound _ _).mp hin)⟩

/-- **What is not written does not change**: one entry is what all reads show, before and after. -/
theorem untouched_shows {later : List Act} {e' : Engine} {k : Bytes}
    (hg : Guarded (act cfg) (ActOk cfg) (fresh now) calls) (hr : run (act cfg) (fresh now) calls = some e)
    (hg' : Guarded (act cfg) (ActOk cfg) e later) (hr' : run (act cfg) e later = some e')
    (hother : ∀ a ∈ later, ¬ a.Touches k)
    (h0 : ∀ x ∈ e.layers.flatten, x.key = k → 0 ≤ x.expiresAt) (ha : ∀ t ∈ allTables e.levels, t.Aligned k)
    (ha' : ∀ t ∈ allTables e'.levels, t.Aligned k) : ∃ x, x.key = k ∧ Shows cfg vl e x ∧ Shows cfg vl e' x := by
  have ht := tidy_run hg hr
  obtain ⟨x, rfl, h0x, hshown⟩ := ht.exists_shown h0
  have hend : Tidy cfg e' ∧ Shown e' x := by
    refine @run_invariant _ _ _ (fun e => Tidy cfg e ∧ Shown e x) _ ?_ _ _ _ ⟨ht, hshown⟩ (hg'.and_forall hother) hr'
    intro e a e' h hok hs
    obtain ⟨ht, hkeep⟩ := h.1.act hok.1 hs
    exact ⟨ht, hkeep x h.2 hok.2⟩
  exact ⟨x, rfl, hshown.shows vl ht ha h0x, hend.2.shows vl hend.1 ha' h0x⟩

theorem untouched_shows_twoPuts : ∃ e e', run (act eager) (fresh 0) (twoPuts.take 1) = some e ∧
    run (act eager) e twoPuts.tail = some e' ∧ ∃ x, x.key = [97] ∧ Shows eager noLog e x ∧ Shows eager noLog e' x := by
  obtain ⟨e, h⟩ : ∃ e, run (act eager) (fresh 0) (twoPuts.take 1) = some e := ⟨_, rfl⟩
  obtain ⟨e', h'⟩ : ∃ e', run (act eager) e twoPuts.tail = some e' := by
    cases h
    exact ⟨_, rfl⟩
  have hfirst : Guarded (act eager) (ActOk eager) (fresh 0) (twoPuts.take 1) := ⟨twoPuts_guarded.1, fun _ _ => trivial⟩
  have hguard : Guarded (act eager) (ActOk eager) e twoPuts.tail := twoPuts_guarded.2 e (by cases h; rfl)
  have hends : (∀ x ∈ e.layers.flatten, x.key = [97] → 0 ≤ x.expiresAt) ∧
      ∀ s ∈ [e, e'], ∀ t ∈ allTables s.levels, ∀ b ∈ t.blocks, b.length ≤ restartInterval := by
    cases h
    cases h'
    decide +kernel
  exact ⟨e, e', h, h', untouched_shows hfirst h hguard h'
    (by simp [twoPuts, Act.Touches]) hends.1 (fun t ht b hb => aligned_of_length (hends.2 e (by simp) t ht b hb))
    (fun t ht b hb => aligned_of_length (hends.2 e' (by simp) t ht b hb))⟩

end Engine
end AkwaDB
