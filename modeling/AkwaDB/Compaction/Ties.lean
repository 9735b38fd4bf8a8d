import AkwaDB.Compaction.Group
import AkwaDB.Store.Table

/-!
# AkwaDB.Compaction.Ties

Entries of one key with one version: a batch may write or delete a key more than once.

`Get` takes the first of them in the memtable, which is the last that was inserted. `AllVersions` and the groups of
a compaction go through `sort.Slice`, which may leave equal versions in any order, and a lookup in a table takes the
first that it comes to. A restart point in the middle of them makes it come to another one, whatever the sort did.

`winner_kept_iff`: the entry of `Get` is the one that stays iff equal ones do not differ and the search over the
restart points of a block does not stop behind them.
-/

namespace AkwaDB

variable {b : List Entry} {k : Bytes} {i : Nat}

theorem scanBlock_of_search (hs : b.Pairwise Entry.le) (h : search (restartProbe b k) (numRestarts b) = some i)
    (ok : Nat → Bool) :
    scanBlock b k ok = newest Entry.version (Entry.hits k ok) (b.drop (restartInterval * i)) := by
  rw [scanBlock]
  split
  · simp only [h]
    exact scanSorted_eq_foldl (hs.sublist (List.drop_sublist _ _)) none
  · rename_i hone
    obtain ⟨c, hc⟩ := restartProbe_splits hs k
    have hle := hc.le
    have hi : i = 0 := by
      rcases search_some hc h with hi | ⟨hi, hlt, -⟩ <;> omega
    rw [hi, Nat.mul_zero, List.drop_zero]

theorem mem_of_scanBlock (hs : b.Pairwise Entry.le) {ok : Nat → Bool} {x : Entry} (h : scanBlock b k ok = some x) :
    x ∈ b ∧ x.key = k := by
  cases hi : search (restartProbe b k) (numRestarts b) with
  | none =>
    rw [scanBlock] at h
    simp only [hi] at h
    split at h
    · cases h
    · exact ⟨(newest_spec h).mem, (Entry.hits_iff.mp (newest_spec h).pass).1⟩
  | some i =>
    rw [scanBlock_of_search hs hi] at h
    exact ⟨List.mem_of_mem_drop (newest_spec h).mem, (Entry.hits_iff.mp (newest_spec h).pass).1⟩

theorem exists_of_search (hs : b.Pairwise Entry.le) (h : search (restartProbe b k) (numRestarts b) = some i) :
    ∃ y, b[restartInterval * i]? = some y ∧ y.key ≤ k := by
  obtain ⟨c, hc⟩ := restartProbe_splits hs k
  have hfound : i < numRestarts b ∧ (restartProbe b k i).take = true := by
    have hle := hc.le
    rcases search_some hc h with hi | ⟨rfl, hlt, htake⟩
    · exact ⟨by omega, hc.take i (by omega)⟩
    · exact ⟨hlt, htake⟩
  obtain ⟨y, hy⟩ := exists_restart hfound.1
  exact ⟨y, hy, by simpa [restartProbe, restartKey_eq hy] using hfound.2⟩

/-- The scan comes to the newest version `v` of a key iff it does not start at an older one. -/
theorem scanBlock_newest_iff (hs : b.Pairwise Entry.le) {v : Nat} (hv : ∃ x ∈ b, x.key = k ∧ x.version = v)
    (hmax : ∀ x ∈ b, x.key = k → x.version ≤ v) :
    (∃ x, scanBlock b k (fun _ => true) = some x ∧ x.version = v) ↔
      ∀ i y, search (restartProbe b k) (numRestarts b) = some i → b[restartInterval * i]? = some y → y.key = k →
        y.version = v := by
  obtain ⟨z, hz, hzk, hzv⟩ := hv
  constructor
  · rintro ⟨x, hx, rfl⟩ i y hi hy hyk
    rw [scanBlock_of_search hs hi] at hx
    have hspec := newest_spec hx
    have hdrop : b.drop (restartInterval * i) = y :: b.drop (restartInterval * i + 1) := by
      obtain ⟨hlt, rfl⟩ := List.getElem?_eq_some_iff.mp hy
      exact List.drop_eq_getElem_cons hlt
    -- behind `y` there are only older versions of its key
    have hsorted := hs.sublist (List.drop_sublist (restartInterval * i) b)
    rw [hdrop] at hspec hsorted
    refine Nat.le_antisymm (hmax y (List.mem_of_getElem? hy) hyk) ?_
    rcases List.mem_cons.mp hspec.mem with rfl | hmem
    · exact Nat.le_refl _
    · exact (Entry.le_iff.mp ((List.pairwise_cons.mp hsorted).1 x hmem)).2
        ((Entry.hits_iff.mp hspec.pass).1.trans hyk.symm)
  · intro hstart
    cases hi : search (restartProbe b k) (numRestarts b) with
    | none => exact absurd hzk (lt_of_search_none hs hi hz).ne'
    | some i =>
      obtain ⟨y, hy, hyk⟩ := exists_of_search hs hi
      -- either way there is an entry of version `v` in front of the scan
      have hreach : ∃ x ∈ b.drop (restartInterval * i), x.key = k ∧ x.version = v := by
        rcases lt_or_eq_of_le hyk with hyk | hyk
        · obtain ⟨j, hj⟩ := List.mem_iff_getElem?.mp hz
          refine ⟨z, List.mem_iff_getElem?.mpr ⟨j - restartInterval * i, ?_⟩, hzk, hzv⟩
          have hij : restartInterval * i ≤ j := by
            by_contra hji
            exact absurd (key_le_of_getElem? hs hj hy (by omega)) (not_le.mpr (hzk ▸ hyk))
          rw [List.getElem?_drop, Nat.add_sub_cancel' hij, hj]
        · refine ⟨y, List.mem_iff_getElem?.mpr ⟨0, ?_⟩, hyk, hstart i y hi hy hyk⟩
          rw [List.getElem?_drop, Nat.add_zero, hy]
      obtain ⟨x, hx, hxk, hxv⟩ := hreach
      rw [scanBlock_of_search hs hi]
      have hhits : x.hits k (fun _ => true) = true := Entry.hits_iff.mpr ⟨hxk, rfl⟩
      obtain ⟨w, hw⟩ := newest_isSome Entry.version hx hhits
      have hspec := newest_spec hw
      refine ⟨w, hw, Nat.le_antisymm ?_ (hxv ▸ hspec.max x hx hhits)⟩
      exact hmax w (List.mem_of_mem_drop hspec.mem) (Entry.hits_iff.mp hspec.pass).1

namespace SkipList
variable (xxhash : Bytes → UInt64) (s : SkipList) (k : Bytes)

def storedVersions : List Entry := (s.nodes.filter fun x => decide (x.key = k)).map Entry.stored

def FlushedTo (t : Table) : Prop :=
  ∃ now seq level es, es.Perm s.nodes ∧ VersionSorted es ∧ Table.createAtLevel xxhash now seq level es = some t

/-- The group of the key in a compaction of such a table with tables that have other versions of it. -/
def CompactedIn (version : Nat) (group : List Entry) : Prop :=
  group.Pairwise (fun a b => b.version ≤ a.version) ∧
    ∃ others, (∀ y ∈ others, y.version ≠ version) ∧ group.Perm (s.storedVersions k ++ others)

/-- What `Get` finds in the memtable is found in every table, and kept by every compaction that keeps its version. -/
def WinnerKept : Prop := ∀ best, s.find k (fun _ => true) = some best →
  (∀ t, s.FlushedTo xxhash t → t.find xxhash k (fun _ => true) = some best.stored) ∧
  ∀ group minReadTs, s.CompactedIn k best.version group →
    ((∀ y ∈ group, best.version < y.version → minReadTs < y.version) →
      best.stored ∈ keepVersions minReadTs none false group) ∧
    ∀ x ∈ keepVersions minReadTs none false group, x.version = best.version → x = best.stored

def TiesAgree : Prop := ∀ best, s.find k (fun _ => true) = some best →
  ∀ x ∈ s.nodes, x.key = k → x.version = best.version → x.stored = best.stored

/-- In no block does the binary search over the restart points stop at one with an older version of the key. -/
def RestartsAtNewest : Prop := ∀ best, s.find k (fun _ => true) = some best →
  ∀ t, s.FlushedTo xxhash t → ∀ b ∈ t.blocks, ∀ i y, search (restartProbe b k) (numRestarts b) = some i →
    b[restartInterval * i]? = some y → y.key = k → y.version = best.version

variable {xxhash s k}

theorem mem_storedVersions {y : Entry} :
    y ∈ s.storedVersions k ↔ ∃ x ∈ s.nodes, x.key = k ∧ x.stored = y := by
  simp [storedVersions, and_assoc]

theorem exists_group_first {best x : Entry} (hbest : s.find k (fun _ => true) = some best) (hx : x ∈ s.nodes)
    (hkey : x.key = k) (hver : x.version = best.version) :
    ∃ rest, s.CompactedIn k best.version (x.stored :: rest) := by
  rw [find_eq_newest] at hbest
  obtain ⟨a, b, hsplit⟩ := List.append_of_mem (mem_storedVersions.mpr ⟨x, hx, hkey, rfl⟩)
  have hperm : (x.stored :: (a ++ b).insertionSort fun p q => q.version ≤ p.version).Perm
      (s.storedVersions k) := by
    rw [hsplit]
    exact ((List.perm_insertionSort _ _).cons _).trans List.perm_middle.symm
  refine ⟨_, List.pairwise_cons.mpr ⟨fun y hy => ?_, ?_⟩, [], by simp, by simpa using hperm⟩
  · obtain ⟨z, hz, hzk, rfl⟩ := mem_storedVersions.mp (hperm.mem_iff.mp (List.mem_cons_of_mem _ hy))
    rw [Entry.stored_version, Entry.stored_version, hver]
    exact (newest_spec hbest).max z hz (Entry.hits_iff.mpr ⟨hzk, rfl⟩)
  · have : Std.Total fun p q : Entry => q.version ≤ p.version := ⟨fun p q => Nat.le_total _ _⟩
    have : IsTrans Entry fun p q => q.version ≤ p.version := ⟨fun p q r h1 h2 => Nat.le_trans h2 h1⟩
    exact List.pairwise_insertionSort _ _

theorem flushed_block {best : Entry} (hbest : s.find k (fun _ => true) = some best) {t : Table}
    (ht : s.FlushedTo xxhash t) :
    t.WF xxhash ∧ t.entries.Perm (s.nodes.map Entry.stored) ∧ ∃ b ∈ t.blocks, best.stored ∈ b ∧
      t.find xxhash k (fun _ => true) = scanBlock b k fun _ => true := by
  obtain ⟨now, seq, level, es, hperm, hsorted, hcreate⟩ := ht
  have hspec := newest_spec (s.find_eq_newest k _ ▸ hbest)
  have hmem : best ∈ es := hperm.mem_iff.mpr hspec.mem
  obtain ⟨hwf, hentries, -⟩ := Table.createAtLevel_wf hsorted (List.ne_nil_of_mem hmem) hcreate
  have hin : best.stored ∈ t.entries := hentries ▸ List.mem_map_of_mem hmem
  have hkey : best.stored.key = k := by simpa using (Entry.hits_iff.mp hspec.pass).1
  obtain ⟨i, b, hi, hb, hbest⟩ := Table.block_of_search hwf hin hkey
  refine ⟨hwf, hentries ▸ hperm.map _, b, List.mem_of_getElem? hb, hbest, ?_⟩
  simp only [Table.find, hkey ▸ hwf.admits _ hin, if_true, hi, List.getD, hb, Option.getD_some]

/-- A lookup comes to the newest version in every table iff no search stops behind it. -/
theorem restartsAtNewest_iff : s.RestartsAtNewest xxhash k ↔
    ∀ best, s.find k (fun _ => true) = some best → ∀ t, s.FlushedTo xxhash t →
      ∃ y, t.find xxhash k (fun _ => true) = some y ∧ y.version = best.version := by
  refine forall_congr' fun best => forall_congr' fun hbest => forall_congr' fun t => forall_congr' fun ht => ?_
  obtain ⟨hwf, hfrom, b, hb, hin, hfind⟩ := flushed_block hbest ht
  have hspec := newest_spec (s.find_eq_newest k _ ▸ hbest)
  have hkey : best.stored.key = k := by simpa using (Entry.hits_iff.mp hspec.pass).1
  have hsub : b.Sublist t.entries := List.sublist_flatten_of_mem hb
  have hscan := scanBlock_newest_iff (k := k) (v := best.version) (hwf.sorted.sublist hsub)
    ⟨best.stored, hin, hkey, best.stored_version⟩ (by
      intro x hx hxk
      obtain ⟨z, hz, rfl⟩ := List.mem_map.mp (hfrom.mem_iff.mp (hsub.subset hx))
      rw [Entry.stored_version]
      exact hspec.max z hz (Entry.hits_iff.mpr ⟨by simpa using hxk, rfl⟩))
  rw [hfind, hscan]
  constructor
  · exact fun h => h b hb
  · -- an entry of the key at a restart point is in the block that is searched
    intro h c hc i y hi hy hyk
    obtain rfl := hwf.apart.eq_of_key hb hc hin (List.mem_of_getElem? hy) (hkey.trans hyk.symm)
    exact h i y hi hy hyk

theorem restartsAtNewest_of_length (h : s.nodes.length ≤ restartInterval) : s.RestartsAtNewest xxhash k := by
  rw [restartsAtNewest_iff]
  intro best hbest t ht
  obtain ⟨hwf, hfrom, b, hb, hin, -⟩ := flushed_block hbest ht
  have hspec := newest_spec (s.find_eq_newest k _ ▸ hbest)
  have hpass : best.stored.hits k (fun _ => true) = true := by simpa using (Entry.hits_iff.mp hspec.pass).1
  have hshort : t.entries.length ≤ restartInterval := by rwa [hfrom.length_eq, List.length_map]
  rw [Table.find_eq_newest hwf fun c hc =>
    aligned_of_length ((List.sublist_flatten_of_mem hc).length_le.trans hshort)]
  obtain ⟨y, hy⟩ := newest_isSome Entry.version (List.mem_flatten.mpr ⟨b, hb, hin⟩) hpass
  have hmax := newest_spec hy
  obtain ⟨x, hx, rfl⟩ := List.mem_map.mp (hfrom.mem_iff.mp hmax.mem)
  have hle := hmax.max best.stored (List.mem_flatten.mpr ⟨b, hb, hin⟩) hpass
  have hge := hspec.max x hx (by simpa using hmax.pass)
  rw [Entry.stored_version, Entry.stored_version] at hle
  exact ⟨x.stored, hy, by rw [Entry.stored_version]; omega⟩

/-- **Equal versions keep their winner iff they do not differ** and no restart point hides them. A memtable holds
the empty key as nil, which `createAtLevel` takes for a block without a first key: it is left out. -/
theorem winner_kept_iff (xxhash : Bytes → UInt64) (s : SkipList) (_hkeys : ∀ x ∈ s.nodes, x.key ≠ []) (k : Bytes) :
    s.WinnerKept xxhash k ↔ s.TiesAgree k ∧ s.RestartsAtNewest xxhash k := by
  rw [restartsAtNewest_iff]
  constructor
  · intro h
    refine ⟨fun best hbest x hx hkey hver => ?_, fun best hbest t ht => ⟨_, (h best hbest).1 t ht, best.stored_version⟩⟩
    obtain ⟨rest, hgroup⟩ := exists_group_first hbest hx hkey hver
    refine ((h best hbest).2 _ 0 hgroup).2 _ ?_ (by simpa using hver)
    -- the first of a group is kept
    rw [keepVersions, if_neg (by simp)]
    split
    · exact List.mem_cons_self
    · exact List.mem_cons_self
  · rintro ⟨hties, hreached⟩ best hbest
    have hspec := newest_spec (s.find_eq_newest k _ ▸ hbest)
    refine ⟨fun t ht => ?_, fun group minReadTs hgroup => ?_⟩
    · obtain ⟨y, hy, hver⟩ := hreached best hbest t ht
      obtain ⟨hwf, hfrom, b, hb, -, hfind⟩ := flushed_block hbest ht
      have hsub : b.Sublist t.entries := List.sublist_flatten_of_mem hb
      obtain ⟨hmem, hkey⟩ := mem_of_scanBlock (hwf.sorted.sublist hsub) (hfind ▸ hy)
      obtain ⟨x, hx, rfl⟩ := List.mem_map.mp (hfrom.mem_iff.mp (hsub.subset hmem))
      rw [hy, hties best hbest x hx (by simpa using hkey) (by simpa using hver)]
    · obtain ⟨hsorted, others, hothers, hperm⟩ := hgroup
      have heq : ∀ x ∈ keepVersions minReadTs none false group, x.version = best.version → x = best.stored := by
        intro x hx hver
        have hmem := hperm.mem_iff.mp ((keepVersions_sublist minReadTs group none false).subset hx)
        rcases List.mem_append.mp hmem with hmem | hmem
        · obtain ⟨y, hy, hkey, rfl⟩ := mem_storedVersions.mp hmem
          exact hties best hbest y hy hkey (by simpa using hver)
        · exact absurd hver (hothers x hmem)
      refine ⟨fun hvisible => ?_, heq⟩
      have hin : best.stored ∈ group := hperm.mem_iff.mpr (List.mem_append_left _
        (mem_storedVersions.mpr ⟨best, hspec.mem, (Entry.hits_iff.mp hspec.pass).1, rfl⟩))
      obtain ⟨z, hz, hzver⟩ := keepVersions_visible hsorted hin (by simpa using hvisible)
      rw [Entry.stored_version] at hzver
      exact heq z hz hzver ▸ hz

/-- Another key, an old version, and a batch that writes the key twice with one value. -/
def writtenTwice : SkipList :=
  ((newSkipList.putVersion [97] [0, 1] 0 1).putVersion [107] [0, 5] 0 2 |>.putVersion [107] [0, 118] 0 3).putVersion
    [107] [0, 118] 0 3

theorem winner_kept_iff_writtenTwice : writtenTwice.WinnerKept (fun _ => 0) [107] := by
  refine (winner_kept_iff _ writtenTwice (by decide +kernel) [107]).mpr
    ⟨fun best hbest => ?_, restartsAtNewest_of_length (by decide +kernel)⟩
  rw [show writtenTwice.find [107] (fun _ => true) = some ⟨[107], [0, 118], false, 0, 3⟩ by decide +kernel] at hbest
  cases hbest
  decide +kernel

/-- One other key, and a batch that writes the key once and deletes it fifteen times. -/
def writtenThenDeleted : SkipList :=
  (List.replicate 15 [107]).foldl (fun s k => s.deleteVersion k 2)
    ((newSkipList.putVersion [97] [0, 1] 0 1).putVersion [107] [0, 118] 0 2)

/-- The restart point is at the write. -/
theorem deleted_key_returns :
    (writtenThenDeleted.find [107] (fun _ => true)).map Entry.deleted = some true ∧
      ((Table.createAtLevel (fun _ => 0) 0 1 0 writtenThenDeleted.nodes).bind fun t =>
        t.find (fun _ => 0) [107] fun _ => true) = some ⟨[107], [0, 118], false, 0, 2⟩ ∧
      ¬ writtenThenDeleted.WinnerKept (fun _ => 0) [107] := by
  have hget : writtenThenDeleted.find [107] (fun _ => true) = some ⟨[107], [], true, 0, 2⟩ := by decide +kernel
  have hlookup : ((Table.createAtLevel (fun _ => 0) 0 1 0 writtenThenDeleted.nodes).bind fun t =>
      t.find (fun _ => 0) [107] fun _ => true) = some ⟨[107], [0, 118], false, 0, 2⟩ := by decide +kernel
  refine ⟨by rw [hget]; rfl, hlookup, fun h => ?_⟩
  obtain ⟨t, hcreate, hfind⟩ := Option.bind_eq_some_iff.mp hlookup
  have hkept := (h _ hget).1 t ⟨0, 1, 0, _, List.Perm.refl _, by decide +kernel, hcreate⟩
  rw [hfind] at hkept
  cases hkept

end SkipList
end AkwaDB
