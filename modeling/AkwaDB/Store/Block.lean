import AkwaDB.Lib.Search
import AkwaDB.Store.Entry

/-!
# AkwaDB.Store.Block

The data blocks of a table: how `createAtLevel` cuts the entries into blocks, and how a block is
searched for the newest version of a key that a reader may see.

A block has a restart point at every sixteenth entry. A block with one restart point is scanned
from the front. In a longer one a binary search over the keys at the restart points picks where
the scan starts, and it may pick a restart point that already holds the key although the newest
versions of the key lie just before it. `scanBlock_eq_newest` is the search on blocks where that
cannot happen (`Aligned`).
-/

namespace AkwaDB

def targetBlockSize : Nat := 4096

def restartInterval : Nat := 16

/-- The bytes of one record of a data block: header, key, and the value unless deleted. -/
def recordSize (x : Entry) : Nat := 25 + x.key.length + if x.deleted then 0 else x.value.length

/-- `cur` is the block being filled, `len` its length. A full block is closed in front of the next key. -/
def splitFrom (cur : List Entry) (len : Nat) : List Entry → List (List Entry)
  | [] => if cur = [] then [] else [cur]
  | x :: xs =>
    match cur.getLast? with
    | none => splitFrom [x] (recordSize x) xs
    | some prev =>
      if targetBlockSize ≤ len ∧ x.key ≠ prev.key then cur :: splitFrom [x] (recordSize x) xs
      else splitFrom (cur ++ [x]) (len + recordSize x) xs

def splitBlocks (entries : List Entry) : List (List Entry) := splitFrom [] 0 entries

theorem splitFrom_flatten (xs : List Entry) :
    ∀ (cur : List Entry) (len : Nat), (splitFrom cur len xs).flatten = cur ++ xs := by
  induction xs with
  | nil =>
    intro cur len
    simp only [splitFrom]
    split <;> simp_all
  | cons x xs ih =>
    intro cur len
    simp only [splitFrom]
    split
    · rename_i hnone
      rw [ih, List.getLast?_eq_none_iff.mp hnone]
      rfl
    · split
      · rw [List.flatten_cons, ih]
        rfl
      · rw [ih]
        simp

@[simp] theorem splitBlocks_flatten (entries : List Entry) :
    (splitBlocks entries).flatten = entries := splitFrom_flatten entries [] 0

theorem splitFrom_ne_nil (xs : List Entry) :
    ∀ (cur : List Entry) (len : Nat), ∀ b ∈ splitFrom cur len xs, b ≠ [] := by
  induction xs with
  | nil =>
    intro cur len b hb
    simp only [splitFrom] at hb
    split at hb
    · cases hb
    · rename_i hne
      rw [List.mem_singleton] at hb
      rw [hb]
      exact hne
  | cons x xs ih =>
    intro cur len b hb
    simp only [splitFrom] at hb
    split at hb
    · exact ih _ _ b hb
    · rename_i prev hprev
      split at hb
      · rcases List.mem_cons.mp hb with rfl | hb
        · rintro rfl
          simp at hprev
        · exact ih _ _ b hb
      · exact ih _ _ b hb

variable {b : List Entry} {x : Entry} {k : Bytes} {i : Nat}

theorem splitBlocks_ne_nil {entries : List Entry} (hb : b ∈ splitBlocks entries) :
    b ≠ [] := splitFrom_ne_nil entries [] 0 b hb

def BlocksApart (bs : List (List Entry)) : Prop :=
  bs.Pairwise fun b c => ∀ x ∈ b, ∀ y ∈ c, x.key < y.key

theorem BlocksApart.eq_of_key {bs : List (List Entry)} (h : BlocksApart bs) {c : List Entry}
    (hb : b ∈ bs) (hc : c ∈ bs) {y : Entry} (hx : x ∈ b) (hy : y ∈ c) (hk : x.key = y.key) :
    b = c := by
  obtain ⟨i, hi, rfl⟩ := List.mem_iff_getElem.mp hb
  obtain ⟨j, hj, rfl⟩ := List.mem_iff_getElem.mp hc
  have hap := List.pairwise_iff_getElem.mp h
  rcases Nat.lt_trichotomy i j with hij | rfl | hij
  · exact absurd hk (hap i j hi hj hij x hx y hy).ne
  · rfl
  · exact absurd hk (hap j i hj hi hij y hy x hx).ne'

theorem splitFrom_apart (xs : List Entry) :
    ∀ (cur : List Entry) (len : Nat), (cur ++ xs).Pairwise Entry.le →
      BlocksApart (splitFrom cur len xs) := by
  induction xs with
  | nil =>
    intro cur len _
    simp only [splitFrom]
    split
    · exact List.Pairwise.nil
    · exact List.pairwise_singleton _ _
  | cons x xs ih =>
    intro cur len hs
    simp only [splitFrom]
    split
    · exact ih _ _ (List.pairwise_append.mp hs).2.1
    · rename_i prev hprev
      split
      · -- the block is closed: its last key differs from the next one, and the list ascends
        rename_i hfull
        obtain ⟨hcur, hrest, hcross⟩ := List.pairwise_append.mp hs
        refine List.pairwise_cons.mpr ⟨?_, ih _ _ hrest⟩
        intro c hc a ha b hb
        have hbx : x.key ≤ b.key := by
          have hb' : b ∈ x :: xs := by
            have hmem : b ∈ (splitFrom [x] (recordSize x) xs).flatten := List.mem_flatten.mpr ⟨c, hc, hb⟩
            rwa [splitFrom_flatten] at hmem
          rcases List.mem_cons.mp hb' with rfl | hb'
          · exact le_refl _
          · exact (Entry.le_iff.mp ((List.pairwise_cons.mp hrest).1 b hb')).1
        have hpm : prev ∈ cur := List.mem_of_getLast? hprev
        have hpx : prev.key < x.key :=
          lt_of_le_of_ne (Entry.le_iff.mp (hcross prev hpm x (by simp))).1 (Ne.symm hfull.2)
        have hap : a.key ≤ prev.key := by
          obtain ⟨front, rfl⟩ := List.getLast?_eq_some_iff.mp hprev
          rcases List.mem_append.mp ha with ha | ha
          · exact (Entry.le_iff.mp ((List.pairwise_append.mp hcur).2.2 a ha prev (by simp))).1
          · rw [List.mem_singleton.mp ha]
        exact (hap.trans_lt hpx).trans_le hbx
      · exact ih _ _ (by simpa using hs)

theorem splitBlocks_apart {entries : List Entry} (hs : entries.Pairwise Entry.le) :
    BlocksApart (splitBlocks entries) := splitFrom_apart entries [] 0 hs

/-! ## Searching a block -/

def restartKey (b : List Entry) (i : Nat) : Bytes :=
  match b[restartInterval * i]? with
  | some x => x.key
  | none => []

def numRestarts (b : List Entry) : Nat := (b.length + restartInterval - 1) / restartInterval

/-- A smaller key sends it right, an equal one left, and both are remembered. -/
def restartProbe (b : List Entry) (k : Bytes) (i : Nat) : Probe :=
  ⟨decide (restartKey b i ≤ k), decide (restartKey b i < k)⟩

/-- The scan from a restart point: it ends behind the first greater key. -/
def scanSorted (k : Bytes) (ok : Nat → Bool) : List Entry → Option Entry → Option Entry
  | [], best => best
  | x :: xs, best =>
    let best := newer Entry.version (Entry.hits k ok) best x
    if k < x.key then best else scanSorted k ok xs best

def scanBlock (b : List Entry) (k : Bytes) (ok : Nat → Bool) : Option Entry :=
  if 1 < numRestarts b then
    match search (restartProbe b k) (numRestarts b) with
    | none => none
    | some i => scanSorted k ok (b.drop (restartInterval * i)) none
  else newest Entry.version (Entry.hits k ok) b

/-- No restart point but the first falls between two versions of `k`. -/
def Aligned (k : Bytes) (b : List Entry) : Prop :=
  ∀ i x y, b[restartInterval * (i + 1) - 1]? = some x → b[restartInterval * (i + 1)]? = some y →
    x.key = k → y.key ≠ k

theorem aligned_of_length (h : b.length ≤ restartInterval) : Aligned k b := by
  intro i x y _ hy
  have := (List.getElem?_eq_some_iff.mp hy).1
  simp only [restartInterval] at *
  omega

theorem scanSorted_eq_foldl {ok : Nat → Bool} {l : List Entry} (hs : l.Pairwise Entry.le)
    (best : Option Entry) :
    scanSorted k ok l best = l.foldl (newer Entry.version (Entry.hits k ok)) best := by
  induction l generalizing best with
  | nil => rfl
  | cons x xs ih =>
    obtain ⟨hx, hxs⟩ := List.pairwise_cons.mp hs
    simp only [scanSorted, List.foldl_cons]
    split
    · rename_i hk
      rw [foldl_newer_of_not]
      intro y hy
      have hxy := (Entry.le_iff.mp (hx y hy)).1
      simp [Entry.hits, (hk.trans_le hxy).ne']
    · exact ih hxs _

theorem restartKey_eq (h : b[restartInterval * i]? = some x) : restartKey b i = x.key := by
  simp [restartKey, h]

theorem exists_restart (h : i < numRestarts b) : ∃ x, b[restartInterval * i]? = some x := by
  have hlt : restartInterval * i < b.length := by
    simp only [numRestarts, restartInterval] at *
    omega
  exact ⟨_, List.getElem?_eq_getElem hlt⟩

theorem key_le_of_getElem? (hs : b.Pairwise Entry.le) {j : Nat} {y : Entry} (hx : b[i]? = some x)
    (hy : b[j]? = some y) (hij : i ≤ j) : x.key ≤ y.key := by
  obtain ⟨hi, rfl⟩ := List.getElem?_eq_some_iff.mp hx
  obtain ⟨hj, rfl⟩ := List.getElem?_eq_some_iff.mp hy
  rcases Nat.lt_or_eq_of_le hij with h | rfl
  · exact (Entry.le_iff.mp (List.pairwise_iff_getElem.mp hs i j hi hj h)).1
  · exact le_refl _

theorem restartKey_mono (hs : b.Pairwise Entry.le) {j : Nat} (hij : i ≤ j) (hj : j < numRestarts b) :
    restartKey b i ≤ restartKey b j := by
  obtain ⟨x, hx⟩ := exists_restart (Nat.lt_of_le_of_lt hij hj)
  obtain ⟨y, hy⟩ := exists_restart hj
  rw [restartKey_eq hx, restartKey_eq hy]
  exact key_le_of_getElem? hs hx hy (Nat.mul_le_mul_left _ hij)

theorem restartProbe_splits (hs : b.Pairwise Entry.le) (k : Bytes) :
    ∃ c, Splits (restartProbe b k) (numRestarts b) c := by
  obtain ⟨c, hc, hcut⟩ := exists_cut (q := fun i => decide (restartKey b i < k)) (numRestarts b) (by
    intro i j hij hj h
    have hm := restartKey_mono hs hij hj
    simp only [decide_eq_true_eq] at h ⊢
    exact hm.trans_lt h)
  refine ⟨c, hc, hcut, ?_, ?_⟩
  · intro i hi
    have := (hcut i (by omega)).mpr hi
    simp only [decide_eq_true_eq] at this
    simp only [restartProbe, decide_eq_true_eq]
    exact this.le
  · intro i j _ hij hj ht
    have hm := restartKey_mono hs hij hj
    simp only [restartProbe, decide_eq_true_eq] at ht ⊢
    exact hm.trans ht

/-- Where the search remembers nothing, the first key is above `k`. -/
theorem lt_of_search_none (hs : b.Pairwise Entry.le) (h : search (restartProbe b k) (numRestarts b) = none)
    {y : Entry} (hy : y ∈ b) : k < y.key := by
  obtain ⟨c, hc⟩ := restartProbe_splits hs k
  obtain ⟨rfl, htake⟩ := search_none hc h
  have hpos : 0 < numRestarts b := by
    have := List.length_pos_of_mem hy
    simp only [numRestarts, restartInterval]
    omega
  obtain ⟨x, hx⟩ := exists_restart hpos
  obtain ⟨j, hj⟩ := List.mem_iff_getElem?.mp hy
  have hk : k < x.key := by simpa [restartProbe, restartKey_eq hx] using htake hpos
  exact hk.trans_le (key_le_of_getElem? hs hx hj (by omega))

theorem newest_drop {ok : Nat → Bool} {n : Nat} (h : ∀ i x, i < n → b[i]? = some x → x.key < k) :
    newest Entry.version (Entry.hits k ok) (b.drop n) =
      newest Entry.version (Entry.hits k ok) b := by
  conv_rhs => rw [← List.take_append_drop n b]
  rw [newest_append_of_not]
  intro x hx
  obtain ⟨i, hi, rfl⟩ := List.mem_iff_getElem.mp hx
  rw [List.length_take] at hi
  have := h i _ (by omega) (List.getElem?_eq_getElem (by omega : i < b.length))
  rw [List.getElem_take]
  simp [Entry.hits, this.ne]

theorem scanBlock_eq_newest (hs : b.Pairwise Entry.le) (ha : Aligned k b) (ok : Nat → Bool) :
    scanBlock b k ok = newest Entry.version (Entry.hits k ok) b := by
  simp only [scanBlock]
  split
  · rename_i hn
    obtain ⟨c, hc⟩ := restartProbe_splits hs k
    split
    · rename_i hnone
      symm
      rw [newest_eq_none]
      intro y hy
      simp [Entry.hits, (lt_of_search_none hs hnone hy).ne']
    · rename_i r hr
      rw [scanSorted_eq_foldl (hs.sublist (List.drop_sublist _ _))]
      apply newest_drop
      intro i x hi hx
      rcases search_some hc hr with rfl | ⟨rfl, hcn, htake⟩
      · -- the remembered restart point is below `k`, and so is all before it
        obtain ⟨y, hy⟩ := exists_restart (b := b) (i := r) (Nat.lt_of_lt_of_le (by omega) hc.le)
        have hlt : restartKey b r < k := by
          have := (hc.right r (Nat.lt_of_lt_of_le (by omega) hc.le)).mpr (by omega)
          simpa [restartProbe] using this
        rw [restartKey_eq hy] at hlt
        exact (key_le_of_getElem? hs hx hy (by omega)).trans_lt hlt
      · -- the remembered restart point holds `k`: the entry before it holds a smaller key
        obtain ⟨y, hy⟩ := exists_restart hcn
        have hyk : y.key = k := by
          have h1 : ¬ restartKey b r < k := by
            have := hc.right r hcn
            simp only [restartProbe, decide_eq_true_eq] at this
            intro hlt
            exact Nat.lt_irrefl r (this.mp hlt)
          have h2 : restartKey b r ≤ k := by simpa [restartProbe] using htake
          rw [restartKey_eq hy] at h1 h2
          exact Std.le_antisymm h2 (not_lt.mp h1)
        cases r with
        | zero => simp only [restartInterval] at hi; omega
        | succ r =>
          have hpos : restartInterval * (r + 1) - 1 < b.length := by
            have := (List.getElem?_eq_some_iff.mp hy).1
            omega
          have hz := List.getElem?_eq_getElem hpos
          have hle := key_le_of_getElem? hs hz hy (by omega)
          have hxz := key_le_of_getElem? hs hx hz (by omega)
          rw [hyk] at hle
          exact hxz.trans_lt (lt_of_le_of_ne hle fun hzk => ha r _ y hz hy hzk hyk)
  · rfl

end AkwaDB
