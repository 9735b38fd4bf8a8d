import AkwaDB.Lib.Chain
import AkwaDB.Store.Entry

/-!
# AkwaDB.Store.Towers

The skip list of a memtable with its towers: sixteen chains of forward pointers through nodes of any heights.

A pointer is the number of a node in the order of insertion, and the head is `none`. A search walks down from the
highest chain in use; `update[i]` is where it leaves chain `i`.

- `Linked`: the chains, each a subsequence of the one below.
- `descend_eq`: the walk ends in front of the first node that is not smaller.
- `Simulates`: the lowest chain is the list that stands for the memtable everywhere else.
- `towers_refine`: the whole, over all sequences of writes and all heights.
-/

namespace AkwaDB

def maxLevel : Nat := 16

/-- `SkipList`: `nodes` are the nodes in the order of insertion, `fwd i` the forward pointers of level `i`. -/
structure Towers where
  nodes : List Entry
  fwd : Nat → Option Nat → Option Nat
  level : Nat
  versionCounter : Nat

namespace Towers

def newSkipList : Towers := ⟨[], fun _ _ => none, 1, 0⟩

section
variable (s : Towers)

def entryAt (i : Nat) : Entry := s.nodes.getD i ⟨[], [], false, 0, 0⟩

def below (key : Bytes) (i : Nat) : Bool := decide ((s.entryAt i).key < key)

/-- The loop over the levels from `stop + n - 1` down to `stop`. -/
def descend (key : Bytes) (stop : Nat) : Nat → Option Nat → Option Nat
  | 0, curr => curr
  | n + 1, curr => descend key stop n (walk (s.fwd (stop + n)) (s.below key) s.nodes.length curr)

/-- `update[i]`, which is the head for levels that were not in use. -/
def update (key : Bytes) (i : Nat) : Option Nat := s.descend key i (s.level - i) none

def insertNode (x : Entry) (lvl : Nat) : Towers where
  nodes := s.nodes ++ [x]
  fwd i := if i < lvl then linked (s.fwd i) (s.update x.key i) s.nodes.length else s.fwd i
  level := max s.level lvl
  versionCounter := max s.versionCounter x.version

def candidate (key : Bytes) : Option Nat := s.fwd 0 (s.update key 0)

/-- The loop over the nodes of the key from `next` on. -/
def bestOf (key : Bytes) (ok : Nat → Bool) : Nat → Option Nat → Option Entry → Option Entry
  | 0, _, best => best
  | _ + 1, none, best => best
  | fuel + 1, some i, best =>
    if (s.entryAt i).key = key then
      bestOf key ok fuel (s.fwd 0 (some i)) (newer Entry.version (fun x => ok x.version) best (s.entryAt i))
    else best

def findLatest (key : Bytes) : Option Entry :=
  match s.candidate key with
  | none => none
  | some i =>
    if (s.entryAt i).key = key then
      s.bestOf key (fun _ => true) s.nodes.length (s.fwd 0 (some i)) (some (s.entryAt i))
    else none

def findByVersion (key : Bytes) (maxVersion : Nat) : Option Entry :=
  s.bestOf key (fun v => decide (v ≤ maxVersion)) s.nodes.length (s.candidate key) none

/-- What the calls make of the node: value, found, deleted and expiry. -/
def report (now : Int) : Option Entry → Bytes × Bool × Bool × Int
  | none => ([], false, false, 0)
  | some x => if x.dead now then ([], true, true, 0) else (x.value, true, false, x.expiresAt)

def get (now : Int) (key : Bytes) : Bytes × Bool × Bool × Int := report now (s.findLatest key)

def getWithVersion (now : Int) (key : Bytes) : (Bytes × Bool × Bool × Int) × Nat :=
  (report now (s.findLatest key), ((s.findLatest key).map Entry.version).getD 0)

def getByVersion (now : Int) (key : Bytes) (maxVersion : Nat) : Bytes × Bool × Bool × Int :=
  report now (s.findByVersion key maxVersion)

def skip (key : Bytes) : Nat → Option Nat → Option Nat
  | 0, curr => curr
  | _ + 1, none => none
  | fuel + 1, some i => if s.below key i then skip key fuel (s.fwd 0 (some i)) else some i

def seek (key : Bytes) : Option Nat := s.skip key s.nodes.length (s.candidate key)

def visited : Nat → Option Nat → List Entry
  | 0, _ => []
  | _ + 1, none => []
  | fuel + 1, some i => s.entryAt i :: visited fuel (s.fwd 0 (some i))

end

/-- `PutVersion` or `DeleteVersion`, with the height that `randomLevel` draws. -/
structure Op where
  key : Bytes
  value : Bytes
  deleted : Bool
  expiresAt : Int
  version : Nat
  height : Fin maxLevel

/-- The node of a write. A deletion has neither value nor expiry. -/
def Op.entry (counter : Nat) (op : Op) : Entry :=
  let version := if op.version = 0 then counter + 1 else op.version
  if op.deleted then ⟨op.key, [], true, 0, version⟩ else ⟨op.key, op.value, false, op.expiresAt, version⟩

def apply (s : Towers) (op : Op) : Towers := s.insertNode (op.entry s.versionCounter) (op.height + 1)

/-- The chains of the levels, as numbers of nodes. -/
structure Linked (s : Towers) (chains : Nat → List Nat) : Prop where
  chain : ∀ i, Chain (s.fwd i) none (chains i)
  nodes : ∀ x ∈ chains 0, x < s.nodes.length
  nodup : (chains 0).Nodup
  sorted : (chains 0).Pairwise fun x y => (s.entryAt x).key ≤ (s.entryAt y).key
  sub : ∀ i, (chains (i + 1)).Sublist (chains i)
  top : ∀ i, s.level ≤ i → chains i = []

section
variable {s : Towers} {chains : Nat → List Nat} {key : Bytes}

theorem Linked.sub_bottom (h : Linked s chains) (i : Nat) : (chains i).Sublist (chains 0) := by
  induction i with
  | zero => exact List.Sublist.refl _
  | succ i ih => exact (h.sub i).trans ih

theorem Linked.length_le (h : Linked s chains) (i : Nat) : (chains i).length ≤ s.nodes.length := by
  have hsub : chains 0 ⊆ List.range s.nodes.length := fun x hx => List.mem_range.mpr (h.nodes x hx)
  have hlen := (List.subperm_of_subset h.nodup hsub).length_le
  rw [List.length_range] at hlen
  exact (h.sub_bottom i).length_le.trans hlen

theorem filter_of_initial {α : Type} {p : α → Bool} {l : List α} (h : l.Pairwise fun x y => p y = true → p x = true) :
    l.filter p = l.takeWhile p ∧ (l.filter fun x => !p x) = l.dropWhile p := by
  induction l with
  | nil => exact ⟨rfl, rfl⟩
  | cons a l ih =>
    obtain ⟨ha, hl⟩ := List.pairwise_cons.mp h
    cases hp : p a with
    | true =>
      rw [List.filter_cons_of_pos hp, List.takeWhile_cons_of_pos hp, List.dropWhile_cons_of_pos hp,
        List.filter_cons_of_neg (by simp [hp]), (ih hl).1, (ih hl).2]
      exact ⟨rfl, rfl⟩
    | false =>
      have hnone : ∀ x ∈ l, p x = false := fun x hx => Bool.eq_false_iff.mpr fun hpx => by simp [ha x hx hpx] at hp
      rw [List.takeWhile_cons_of_neg (by simp [hp]), List.dropWhile_cons_of_neg (by simp [hp])]
      refine ⟨List.filter_eq_nil_iff.mpr ?_, List.filter_eq_self.mpr ?_⟩
      · intro x hx
        rcases List.mem_cons.mp hx with rfl | hx
        · simp [hp]
        · simp [hnone x hx]
      · intro x hx
        rcases List.mem_cons.mp hx with rfl | hx
        · simp [hp]
        · simp [hnone x hx]

theorem Linked.filter_below (h : Linked s chains) (i : Nat) :
    (chains i).filter (s.below key) = (chains i).takeWhile (s.below key) ∧
      ((chains i).filter fun x => !s.below key x) = (chains i).dropWhile (s.below key) := by
  refine filter_of_initial ((h.sorted.sublist (h.sub_bottom i)).imp fun hle hlt => ?_)
  exact decide_eq_true (hle.trans_lt (of_decide_eq_true hlt))

def front (s : Towers) (chains : Nat → List Nat) (key : Bytes) (i : Nat) : List Nat :=
  (chains i).takeWhile (s.below key)

theorem Linked.walk_from (h : Linked s chains) (i : Nat) :
    walk (s.fwd i) (s.below key) s.nodes.length (lastFrom none (front s chains key (i + 1))) =
      lastFrom none (front s chains key i) := by
  obtain ⟨pre, rest, hsplit, hlast, hpre⟩ : ∃ pre rest, chains i = pre ++ rest ∧
      lastFrom none pre = lastFrom none (front s chains key (i + 1)) ∧ ∀ x ∈ pre, s.below key x = true := by
    rcases List.eq_nil_or_concat (front s chains key (i + 1)) with hnil | ⟨l, c, hl⟩
    · exact ⟨[], chains i, rfl, by rw [hnil], by simp⟩
    · have hc : c ∈ front s chains key (i + 1) := by simp [hl]
      obtain ⟨pre, rest, hsplit⟩ := List.append_of_mem ((h.sub i).subset ((List.takeWhile_sublist _).subset hc))
      refine ⟨pre ++ [c], rest, by simp [hsplit], by rw [hl, List.concat_eq_append, lastFrom_snoc, lastFrom_snoc], ?_⟩
      have hbelow : s.below key c = true := List.mem_takeWhile_imp hc
      have hsorted := h.sorted.sublist (h.sub_bottom i)
      rw [hsplit] at hsorted
      intro x hx
      rcases List.mem_append.mp hx with hx | hx
      · have hle := (List.pairwise_append.mp hsorted).2.2 x hx c List.mem_cons_self
        exact decide_eq_true (hle.trans_lt (of_decide_eq_true hbelow))
      · rw [List.mem_singleton.mp hx]
        exact hbelow
  have hlen := h.length_le i
  rw [hsplit, List.length_append] at hlen
  have hchain := h.chain i
  rw [hsplit] at hchain
  rw [← hlast, walk_eq hchain.of_append (by omega), ← lastFrom_append, front, hsplit,
    List.takeWhile_append_of_pos hpre]

theorem Linked.descend_eq (h : Linked s chains) (key : Bytes) (stop n : Nat) :
    s.descend key stop n (lastFrom none (front s chains key (stop + n))) = lastFrom none (front s chains key stop) := by
  induction n with
  | zero => rfl
  | succ n ih =>
    rw [descend, ← Nat.add_assoc, h.walk_from]
    exact ih

theorem Linked.update_eq (h : Linked s chains) (i : Nat) : s.update key i = lastFrom none (front s chains key i) := by
  have hdescend := h.descend_eq key i (s.level - i)
  have htop : front s chains key (i + (s.level - i)) = [] := by
    rw [front, h.top _ (by omega)]
    rfl
  rwa [htop] at hdescend

def spliced (s : Towers) (chains : Nat → List Nat) (key : Bytes) (lvl i : Nat) : List Nat :=
  if i < lvl then
    front s chains key i ++ s.nodes.length :: (chains i).dropWhile (s.below key)
  else chains i

theorem front_append (s : Towers) (chains : Nat → List Nat) (key : Bytes) (i : Nat) :
    front s chains key i ++ (chains i).dropWhile (s.below key) = chains i := List.takeWhile_append_dropWhile

theorem entryAt_insert {x : Entry} {lvl i : Nat} (h : i < s.nodes.length) :
    (s.insertNode x lvl).entryAt i = s.entryAt i := by
  simp only [entryAt, insertNode, List.getD_eq_getElem?_getD, List.getElem?_append_left h]

theorem entryAt_new (x : Entry) (lvl : Nat) : (s.insertNode x lvl).entryAt s.nodes.length = x := by
  simp [entryAt, insertNode]

theorem map_entryAt_insert {x : Entry} {lvl : Nat} {l : List Nat} (h : ∀ i ∈ l, i < s.nodes.length) :
    l.map (s.insertNode x lvl).entryAt = l.map s.entryAt :=
  List.map_congr_left fun i hi => entryAt_insert (h i hi)

theorem Linked.map_spliced (h : Linked s chains) (x : Entry) {lvl : Nat} (hlvl : 0 < lvl) :
    (spliced s chains x.key lvl 0).map (s.insertNode x lvl).entryAt = spliceNode x ((chains 0).map s.entryAt) := by
  rw [spliced, if_pos hlvl, front, List.map_append, List.map_cons, entryAt_new,
    map_entryAt_insert fun i hi => h.nodes i ((List.takeWhile_sublist _).subset hi),
    map_entryAt_insert fun i hi => h.nodes i ((List.dropWhile_sublist _).subset hi),
    spliceNode, List.takeWhile_map, List.dropWhile_map]
  rfl

theorem Linked.insertNode (h : Linked s chains) (x : Entry) {lvl : Nat} (hlvl : 0 < lvl) :
    Linked (s.insertNode x lvl) (spliced s chains x.key lvl) := by
  have hfresh : ∀ i, s.nodes.length ∉ chains i := fun i hmem =>
    Nat.lt_irrefl _ (h.nodes _ ((h.sub_bottom i).subset hmem))
  have hperm : (spliced s chains x.key lvl 0).Perm (s.nodes.length :: chains 0) := by
    rw [spliced, if_pos hlvl]
    refine List.perm_middle.trans ?_
    rw [front_append]
  refine ⟨fun i => ?_, fun y hy => ?_, ?_, ?_, fun i => ?_, fun i hi => ?_⟩
  · unfold spliced Towers.insertNode
    dsimp only
    split
    · rw [h.update_eq]
      have hnodup := h.nodup.sublist (h.sub_bottom i)
      refine Chain.splice ?_ ?_ ?_
      · rw [front_append]
        exact h.chain i
      · rw [front_append]
        exact List.nodup_cons.mpr ⟨by simp, hnodup.map fun _ _ heq => Option.some.inj heq⟩
      · rw [front_append]
        simpa using hfresh i
    · exact h.chain i
  · have hlen : (s.insertNode x lvl).nodes.length = s.nodes.length + 1 := by simp [Towers.insertNode]
    rcases List.mem_cons.mp (hperm.mem_iff.mp hy) with rfl | hy
    · omega
    · have := h.nodes y hy
      omega
  · exact hperm.nodup_iff.mpr (List.nodup_cons.mpr ⟨hfresh 0, h.nodup⟩)
  · have hsorted := spliceNode_sorted (x := x) (List.pairwise_map.mpr h.sorted)
    rw [← h.map_spliced x hlvl, List.pairwise_map] at hsorted
    exact hsorted
  · unfold spliced
    by_cases hi : i + 1 < lvl
    · rw [if_pos hi, if_pos (by omega)]
      unfold front
      rw [← (h.filter_below i).1, ← (h.filter_below i).2, ← (h.filter_below (i + 1)).1, ← (h.filter_below (i + 1)).2]
      exact ((h.sub i).filter _).append (((h.sub i).filter _).cons_cons _)
    · rw [if_neg hi]
      split
      · refine (h.sub i).trans ?_
        nth_rewrite 1 [← front_append s chains x.key i]
        exact (List.Sublist.refl _).append (List.sublist_cons_self _ _)
      · exact h.sub i
  · have hi' : s.level ≤ i ∧ lvl ≤ i := by
      simp only [Towers.insertNode] at hi
      omega
    rw [spliced, if_neg (by omega), h.top i hi'.1]

theorem Linked.candidate_chain (h : Linked s chains) (key : Bytes) :
    Chain (s.fwd 0) (s.update key 0) ((chains 0).dropWhile (s.below key)) := by
  have hchain := h.chain 0
  rw [← front_append s chains key 0] at hchain
  rw [h.update_eq]
  exact hchain.of_append

theorem bestOf_eq {ok : Nat → Bool} {fuel : Nat} {a : Option Nat} {l : List Nat} (best : Option Entry)
    (h : Chain (s.fwd 0) a l) (hf : l.length ≤ fuel) :
    s.bestOf key ok fuel (s.fwd 0 a) best =
      ((l.map s.entryAt).takeWhile fun x => decide (x.key = key)).foldl
        (newer Entry.version fun x => ok x.version) best := by
  induction fuel generalizing a l best with
  | zero =>
    rw [List.length_eq_zero_iff.mp (Nat.le_zero.mp hf)]
    rfl
  | succ fuel ih =>
    cases l with
    | nil =>
      rw [show s.fwd 0 a = none from h]
      rfl
    | cons i l =>
      rw [h.1, bestOf, List.map_cons]
      split
      · rename_i hkey
        rw [ih _ h.2 (Nat.le_of_succ_le_succ hf), List.takeWhile_cons_of_pos (by simpa using hkey), List.foldl_cons]
      · rename_i hkey
        rw [List.takeWhile_cons_of_neg (by simpa using hkey)]
        rfl

theorem foldl_newer_run {ok : Nat → Bool} (nodes : List Entry) :
    ((nodes.takeWhile fun x => decide (x.key = key)).foldl (newer Entry.version fun x => ok x.version) none) =
      newest Entry.version (Entry.hits key ok) (nodes.takeWhile fun x => decide (x.key = key)) := by
  refine newest_ext fun x hx => ?_
  have hkey := List.mem_takeWhile_imp hx
  rw [Entry.hits, hkey, Bool.true_and]

structure Simulates (s : Towers) (chains : Nat → List Nat) (abs : SkipList) : Prop extends Linked s chains where
  bottom : (chains 0).map s.entryAt = abs.nodes
  counter : s.versionCounter = abs.versionCounter

variable {abs : SkipList}

theorem Simulates.find_eq (h : Simulates s chains abs) (ok : Nat → Bool) :
    s.bestOf key ok s.nodes.length (s.candidate key) none = abs.find key ok := by
  have hlen := (List.dropWhile_sublist (s.below key)).length_le.trans (h.length_le 0)
  rw [candidate, bestOf_eq none (h.candidate_chain key) hlen, foldl_newer_run, SkipList.find, ← h.bottom,
    List.dropWhile_map]
  rfl

theorem Simulates.findLatest_eq (h : Simulates s chains abs) : s.findLatest key = abs.find key fun _ => true := by
  have hchain := h.candidate_chain key
  have hlen := (List.dropWhile_sublist (s.below key)).length_le.trans (h.length_le 0)
  rw [← h.find_eq, findLatest]
  generalize (chains 0).dropWhile (s.below key) = l at hchain hlen
  cases l with
  | nil =>
    rw [candidate, show s.fwd 0 _ = none from hchain]
    cases s.nodes.length <;> rfl
  | cons i l =>
    rw [List.length_cons] at hlen
    obtain ⟨n, hn⟩ := Nat.exists_eq_add_of_lt hlen
    rw [candidate, hchain.1, show s.nodes.length = l.length + n + 1 from hn, bestOf]
    dsimp only
    split
    · -- the first node of the key is the best so far
      rw [bestOf_eq _ hchain.2 (by omega), bestOf_eq _ hchain.2 (by omega)]
      rfl
    · rfl

theorem visited_eq {fuel : Nat} {a : Option Nat} {l : List Nat} (h : Chain (s.fwd 0) a l) (hf : l.length ≤ fuel) :
    s.visited fuel (s.fwd 0 a) = l.map s.entryAt := by
  induction fuel generalizing a l with
  | zero =>
    rw [List.length_eq_zero_iff.mp (Nat.le_zero.mp hf)]
    rfl
  | succ fuel ih =>
    cases l with
    | nil =>
      rw [show s.fwd 0 a = none from h]
      rfl
    | cons i l =>
      rw [h.1, visited, ih h.2 (Nat.le_of_succ_le_succ hf)]
      rfl

theorem Linked.seek_eq (h : Linked s chains) : s.seek key = s.candidate key := by
  have hchain := h.candidate_chain key
  rw [seek, candidate]
  cases hl : (chains 0).dropWhile (s.below key) with
  | nil =>
    rw [hl] at hchain
    rw [show s.fwd 0 _ = none from hchain]
    cases s.nodes.length <;> rfl
  | cons i l =>
    rw [hl] at hchain
    have hnot := List.head_dropWhile_not (s.below key) (l := chains 0) (by simp [hl])
    simp only [hl, List.head_cons] at hnot
    rw [hchain.1]
    cases s.nodes.length with
    | zero => rfl
    | succ n => rw [skip, hnot]; rfl

theorem Simulates.visited_eq (h : Simulates s chains abs) :
    s.visited s.nodes.length (s.seek key) = abs.nodes.filter fun x => decide (key ≤ x.key) := by
  have hlen := (List.dropWhile_sublist (s.below key)).length_le.trans (h.length_le 0)
  rw [h.seek_eq, candidate, Towers.visited_eq (h.candidate_chain key) hlen, ← (h.filter_below 0).2, ← h.bottom,
    List.filter_map]
  refine congrArg _ (List.filter_congr fun i _ => ?_)
  rw [below, ← decide_not]
  exact decide_eq_decide.mpr not_lt

theorem newSkipList_simulates : Simulates newSkipList (fun _ => []) SkipList.newSkipList where
  chain _ := rfl
  nodes _ hx := absurd hx List.not_mem_nil
  nodup := List.nodup_nil
  sorted := List.Pairwise.nil
  sub _ := List.Sublist.refl _
  top _ _ := rfl
  bottom := rfl
  counter := rfl

theorem Simulates.apply (h : Simulates s chains abs) (op : Op) :
    Simulates (s.apply op) (spliced s chains op.key (op.height + 1)) (abs.insertNode (op.entry s.versionCounter)) := by
  have hkey : (op.entry s.versionCounter).key = op.key := by
    unfold Op.entry
    dsimp only
    split <;> rfl
  rw [← hkey]
  refine ⟨h.insertNode _ (Nat.succ_pos _), ?_, ?_⟩
  · rw [Towers.apply, h.map_spliced _ (Nat.succ_pos _), h.bottom]
    rfl
  · rw [Towers.apply, Towers.insertNode, h.counter]
    rfl

def written : Nat → List Op → List Entry
  | _, [] => []
  | counter, op :: ops => op.entry counter :: written (max counter (op.entry counter).version) ops

theorem filter_spliceNode (x : Entry) (nodes : List Entry) (k : Bytes) :
    (spliceNode x nodes).filter (fun y => decide (y.key = k)) = (x :: nodes).filter fun y => decide (y.key = k) := by
  have hsplit : nodes.filter (fun y => decide (y.key = k)) =
      (nodes.takeWhile fun a => decide (a.key < x.key)).filter (fun y => decide (y.key = k)) ++
        (nodes.dropWhile fun a => decide (a.key < x.key)).filter fun y => decide (y.key = k) := by
    rw [← List.filter_append, List.takeWhile_append_dropWhile]
  rw [spliceNode, List.filter_append, List.filter_cons, List.filter_cons, hsplit]
  by_cases hk : x.key = k
  · have hnone : (nodes.takeWhile fun a => decide (a.key < x.key)).filter (fun y => decide (y.key = k)) = [] :=
      List.filter_eq_nil_iff.mpr fun y hy hyk =>
        (lt_of_mem_takeWhile hy).ne ((of_decide_eq_true hyk).trans hk.symm)
    rw [hnone, if_pos (decide_eq_true hk), if_pos (decide_eq_true hk)]
    rfl
  · rw [if_neg (by simpa using hk), if_neg (by simpa using hk)]

theorem exists_simulates (ops : List Op) (h : Simulates s chains abs)
    (hlog : ∀ k, abs.nodes.filter (fun x => decide (x.key = k)) = s.nodes.reverse.filter fun x => decide (x.key = k)) :
    ∃ chains' abs', Simulates (ops.foldl Towers.apply s) chains' abs' ∧
      (ops.foldl Towers.apply s).nodes = s.nodes ++ written s.versionCounter ops ∧
      ∀ k, abs'.nodes.filter (fun x => decide (x.key = k)) =
        (ops.foldl Towers.apply s).nodes.reverse.filter fun x => decide (x.key = k) := by
  induction ops generalizing s chains abs with
  | nil => exact ⟨chains, abs, h, by simp [written], hlog⟩
  | cons op ops ih =>
    obtain ⟨chains', abs', hsim, hnodes, hfilter⟩ := ih (h.apply op) fun k => by
      rw [Towers.apply, Towers.insertNode, List.reverse_append, List.reverse_singleton, List.singleton_append]
      refine (filter_spliceNode _ abs.nodes k).trans ?_
      rw [List.filter_cons, List.filter_cons, hlog]
    refine ⟨chains', abs', hsim, ?_, hfilter⟩
    rw [List.foldl_cons, hnodes]
    simp [Towers.apply, Towers.insertNode, written]

end

/-- **The skip list refines a versioned multimap**, for lookups and for iterators. -/
theorem towers_refine (ops : List Op) :
    ∃ chains : Nat → List Nat, Linked (ops.foldl Towers.apply newSkipList) chains ∧
      ((chains 0).map (ops.foldl Towers.apply newSkipList).entryAt).Perm (written 0 ops) ∧
      (∀ now k, (ops.foldl Towers.apply newSkipList).get now k =
        report now (newest Entry.version (Entry.hits k fun _ => true) (written 0 ops).reverse)) ∧
      (∀ now k, (ops.foldl Towers.apply newSkipList).getWithVersion now k =
        (report now (newest Entry.version (Entry.hits k fun _ => true) (written 0 ops).reverse),
          ((newest Entry.version (Entry.hits k fun _ => true) (written 0 ops).reverse).map Entry.version).getD 0)) ∧
      (∀ now k v, (ops.foldl Towers.apply newSkipList).getByVersion now k v =
        report now (newest Entry.version (Entry.hits k fun u => decide (u ≤ v)) (written 0 ops).reverse)) ∧
      ∀ k, (ops.foldl Towers.apply newSkipList).visited (ops.foldl Towers.apply newSkipList).nodes.length
          ((ops.foldl Towers.apply newSkipList).seek k) =
        ((chains 0).map (ops.foldl Towers.apply newSkipList).entryAt).filter fun x => decide (k ≤ x.key) := by
  obtain ⟨chains, abs, h, hnodes, hfilter⟩ := exists_simulates ops newSkipList_simulates fun _ => rfl
  generalize ops.foldl Towers.apply newSkipList = s at h hnodes hfilter
  have hlog : s.nodes = written 0 ops := hnodes
  have hnewest : ∀ k ok, abs.find k ok = newest Entry.version (Entry.hits k ok) (written 0 ops).reverse := by
    intro k ok
    have hkey : ∀ x : Entry, x.hits k ok = true → decide (x.key = k) = true := fun x hx =>
      decide_eq_true (Entry.hits_iff.mp hx).1
    rw [SkipList.find_eq_newest, ← newest_filter abs.nodes hkey, hfilter, newest_filter _ hkey, hlog]
  refine ⟨chains, h.toLinked, ?_, fun now k => ?_, fun now k => ?_, fun now k v => ?_, fun k => ?_⟩
  · rw [h.bottom, ← hlog]
    refine (List.perm_iff_count.mpr fun x => ?_).trans s.nodes.reverse_perm
    have hkey : decide (x.key = x.key) = true := decide_eq_true rfl
    rw [← List.count_filter (p := fun y : Entry => decide (y.key = x.key)) hkey, hfilter]
    exact List.count_filter hkey
  · rw [get, h.findLatest_eq, hnewest]
  · rw [getWithVersion, h.findLatest_eq, hnewest]
  · rw [getByVersion, findByVersion, h.find_eq, hnewest]
  · rw [h.visited_eq, h.bottom]

end Towers
end AkwaDB
