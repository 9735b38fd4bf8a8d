import AkwaDB.Engine.Order
import AkwaDB.Lib.Reach

/-!
# AkwaDB.Engine.Recency

Runs of one writer: puts, deletes, rotations, flushes, compactions, transactions that begin and
end, and the clock. Next to the engine runs the log of all entries ever written.

`getByAt_log`: after every run whose steps meet `StepOk`, a lookup at or above `MinReadTs` reads what
the newest entry of the log says, provided no block of a table has a restart point between two
versions of the key. Without that proviso it may read an overwritten value
(`restart_reads_overwritten`).
-/

namespace AkwaDB

namespace Engine

structure Traced where
  engine : Engine
  log : List Entry

inductive Op where
  | put (key value : Bytes) (expiresAt : Int)
  | delete (key : Bytes)
  | rotate
  | flush
  | compact
  | beginTx
  | rollbackTx (readTs : Nat)
  | tick (seconds : Nat)

namespace Traced

variable (cfg : Config)

def write (s : Traced) (node : Nat → Option Entry) : Traced :=
  ⟨s.engine.dispatch node, s.log ++ (node (s.engine.oracle.nextTs + 1)).toList⟩

def step (s : Traced) : Op → Option Traced
  | .put key value expiresAt => some (s.write (putNode key value expiresAt))
  | .delete key => some (s.write (s.engine.deleteNode cfg key))
  | .rotate => s.engine.rotate.map fun e => ⟨e, s.log⟩
  | .flush => (s.engine.executeFlush cfg).map fun e => ⟨e, s.log⟩
  | .compact => some ⟨s.engine.compact cfg, s.log⟩
  | .beginTx => some ⟨{ s.engine with oracle := s.engine.oracle.newReadTs.2 }, s.log⟩
  | .rollbackTx readTs => some ⟨{ s.engine with oracle := s.engine.oracle.done readTs }, s.log⟩
  | .tick seconds => some ⟨{ s.engine with now := s.engine.now + seconds }, s.log⟩

def fresh (now : Int) : Traced := ⟨Engine.fresh now, []⟩

/-- Keys fit the index, and level 0 is compacted only past levels that hold none of its keys. -/
def StepOk (s : Traced) : Op → Prop
  | .put key _ _ => key ≠ [] ∧ key.length ≤ maxIndexKey
  | .delete key => key ≠ [] ∧ key.length ≤ maxIndexKey
  | .compact => compactPlan cfg s.engine.levels = .level0 →
      ∀ l, 1 ≤ l → l < findBaseLevel cfg s.engine.levels →
        ∀ t ∈ s.engine.levels l, ∀ p ∈ s.engine.levels 0, KeysApart t p
  | _ => True

def newestWritten (s : Traced) (k : Bytes) (maxVersion : Nat) : Option Entry :=
  newest Entry.version (Entry.hits k fun v => decide (v ≤ maxVersion)) s.log

structure Inv (s : Traced) : Prop where
  ordered : s.engine.Ordered cfg
  oracle : s.engine.oracle.Ok
  fresh : ∀ h ∈ s.log, h.version ≤ s.engine.oracle.nextTs
  short : ∀ h ∈ s.log, h.key.length ≤ maxIndexKey
  distinct : ∀ g ∈ s.log, ∀ h ∈ s.log, g.key = h.key → g.version = h.version → g = h
  covers : Covers Entry.key Entry.version (Entry.ReadsAs s.engine.now)
    (fun h => h.dead s.engine.now = true) s.engine.oracle.minReadTs s.log s.engine.layers.flatten

variable {cfg}

theorem inv_fresh (now : Int) : Inv cfg (fresh now) where
  ordered := ordered_fresh now
  oracle := Oracle.newOracle_ok
  fresh := by simp [fresh]
  short := by simp [fresh]
  distinct := by simp [fresh]
  covers := ⟨fun x hx => absurd hx (layers_fresh now x), by simp [fresh]⟩

theorem Inv.advance {s : Traced} (h : Inv cfg s) {now : Int} {oracle : Oracle} (nextSeq : Nat)
    (hnow : s.engine.now ≤ now) (hok : oracle.Ok)
    (hnext : s.engine.oracle.nextTs ≤ oracle.nextTs)
    (hmin : s.engine.oracle.minReadTs ≤ oracle.minReadTs) :
    Inv cfg ⟨{ s.engine with now, oracle, nextSeq }, s.log⟩ where
  ordered := ⟨h.ordered.wf, h.ordered.memImm, h.ordered.memTable, h.ordered.immTable,
    h.ordered.level0, h.ordered.across, h.ordered.apart⟩
  oracle := hok
  fresh := fun g hg => Nat.le_trans (h.fresh g hg) hnext
  short := h.short
  distinct := h.distinct
  covers := h.covers.mono hmin (fun _ _ hr t ht => hr t (hnow.trans ht))
    fun _ hd => Entry.dead_mono hnow hd

theorem Inv.setOracle {s : Traced} (h : Inv cfg s) {oracle : Oracle}
    (hok : oracle.Ok ∧ s.engine.oracle.minReadTs ≤ oracle.minReadTs)
    (hnext : s.engine.oracle.nextTs ≤ oracle.nextTs) :
    Inv cfg ⟨{ s.engine with oracle }, s.log⟩ :=
  h.advance s.engine.nextSeq (le_refl _) hok.1 hnext hok.2

theorem Inv.insert {s : Traced} (h : Inv cfg s) {x : Entry}
    (hle : x.version ≤ s.engine.oracle.nextTs) (hnew : ∀ g ∈ s.log, g.version < x.version)
    (hshort : x.key.length ≤ maxIndexKey) :
    Inv cfg ⟨{ s.engine with mem := s.engine.mem.insertNode x }, s.log ++ [x]⟩ := by
  have hlt : ∀ y ∈ s.engine.layers.flatten, y.version < x.version := by
    intro y hy
    obtain ⟨g, hg, _, hv, _⟩ := h.covers.sound y hy
    rw [hv]
    exact hnew g hg
  have hlast : ∀ {g}, g ∈ s.log ++ [x] → g ∈ s.log ∨ g = x := by
    intro g hg
    rcases List.mem_append.mp hg with hg | hg
    · exact Or.inl hg
    · exact Or.inr (List.mem_singleton.mp hg)
  have hnewer : ∀ l : List Entry, (∀ y ∈ l, y ∈ s.engine.layers.flatten) → Newer [x] l := by
    intro l hl z hz y hy _
    rw [List.mem_singleton.mp hz]
    exact hlt y (hl y hy)
  refine ⟨@Ordered.insertAll _ _ h.ordered [x] (hnewer _ fun y hy => mem_layers.mpr (Or.inr (Or.inl hy)))
    (fun t ht => hnewer _ fun y hy => mem_layers.mpr (Or.inr (Or.inr ⟨t, ht, hy⟩))),
    h.oracle, ?_, ?_, ?_, ?_⟩
  · intro g hg
    rcases hlast hg with hg | rfl
    · exact h.fresh g hg
    · exact hle
  · intro g hg
    rcases hlast hg with hg | rfl
    · exact h.short g hg
    · exact hshort
  · intro g hg g' hg' hk hv
    rcases hlast hg with hold | hx <;> rcases hlast hg' with hold' | hx'
    · exact h.distinct g hold g' hold' hk hv
    · exact absurd (hx' ▸ hv) (Nat.ne_of_lt (hnew g hold))
    · exact absurd (hx ▸ hv.symm) (Nat.ne_of_lt (hnew g' hold'))
    · rw [hx, hx']
  · refine h.covers.write (fun _ _ _ _ => rfl) ?_ ?_
    · intro g hg _ y hy _
      rw [List.mem_singleton.mp hy]
      exact hnew g hg
    · intro y
      rw [mem_layers, mem_layers, SkipList.mem_insertNode, or_assoc, List.mem_singleton]
      rfl

/-- What a write puts into the memtable: nothing, or an entry of the version it was given. -/
def Writes (node : Nat → Option Entry) (v : Nat) : Prop :=
  ∀ x, node v = some x → x.version = v ∧ x.key.length ≤ maxIndexKey

theorem Inv.write {s : Traced} (h : Inv cfg s) {node : Nat → Option Entry}
    (hw : Writes node (s.engine.oracle.nextTs + 1)) : Inv cfg (s.write node) := by
  have hcommit := Oracle.newCommitTs_ok h.oracle
  have h1 := h.advance (max s.engine.nextSeq (s.engine.oracle.nextTs + 1)) (le_refl _) hcommit.1
    (Nat.le_succ _) hcommit.2
  have hmark : ∀ {s' : Traced}, Inv cfg s' →
      Inv cfg ⟨{ s'.engine with
        oracle := s'.engine.oracle.markApplied (s.engine.oracle.nextTs + 1) }, s'.log⟩ := by
    intro s' h'
    refine h'.setOracle (Oracle.markApplied_ok h'.oracle _) ?_
    rw [Oracle.markApplied_nextTs]
  unfold Traced.write dispatch
  cases hn : node (s.engine.oracle.nextTs + 1) with
  | none =>
    simp only [Oracle.newCommitTs, hn, Option.toList_none, List.append_nil]
    exact hmark h1
  | some x =>
    obtain ⟨hv, hshort⟩ := hw x hn
    simp only [Oracle.newCommitTs, hn, Option.toList_some]
    refine hmark (h1.insert (Nat.le_of_eq hv) ?_ hshort)
    intro g hg
    have := h.fresh g hg
    omega

theorem putNode_writes {key value : Bytes} {expiresAt : Int} (hk : key.length ≤ maxIndexKey)
    (v : Nat) : Writes (putNode key value expiresAt) v := by
  intro x hx
  cases hx
  exact ⟨rfl, hk⟩

theorem deleteNode_writes {e : Engine} {key : Bytes} (hk : key.length ≤ maxIndexKey) (v : Nat) :
    Writes (e.deleteNode cfg key) v := by
  intro x hx
  unfold deleteNode at hx
  split at hx
  · cases hx
    exact ⟨rfl, hk⟩
  · cases hx

/-! ## Rotation and flush -/

theorem Inv.rotate {s : Traced} (h : Inv cfg s) {e' : Engine} (hr : s.engine.rotate = some e') :
    Inv cfg ⟨e', s.log⟩ := by
  have hord := h.ordered.rotate hr
  have hcov := h.covers.congr fun x => mem_rotate hr
  unfold Engine.rotate at hr
  split at hr
  · cases hr
  · cases hr
    exact ⟨hord, h.oracle, h.fresh, h.short, h.distinct, hcov⟩

theorem Inv.flush {s : Traced} (h : Inv cfg s) {e' : Engine}
    (hf : s.engine.executeFlush cfg = some e') : Inv cfg ⟨e', s.log⟩ := by
  have hshort : ∀ x ∈ s.engine.immNodes, x.key.length ≤ maxIndexKey := by
    intro x hx
    obtain ⟨g, hg, hk, _⟩ := h.covers.sound x (mem_layers.mpr (Or.inr (Or.inl hx)))
    rw [hk]
    exact h.short g hg
  rcases executeFlush_cases hf hshort with ⟨hnil, rfl⟩ | ⟨t, hwf, hent, rfl⟩
  · refine ⟨h.ordered.dropImm, h.oracle, h.fresh, h.short, h.distinct, h.covers.congr ?_⟩
    intro x
    rw [mem_layers, mem_layers, hnil]
    rfl
  · exact ⟨h.ordered.flush hwf hent, h.oracle, h.fresh, h.short, h.distinct, covers_flush h.covers hent⟩

def untouched (e : Engine) (target : Nat) (picked : List Table) : List Entry :=
  e.mem.nodes ++ (e.immNodes ++
    (((allTables e.levels).filter fun t => decide (t ∉ e.inputs target picked)).map
      Table.entries).flatten)

theorem mem_untouched {e : Engine} {target : Nat} {picked : List Table} {x : Entry} :
    x ∈ untouched e target picked ↔ x ∈ e.mem.nodes ∨ x ∈ e.immNodes ∨
      ∃ t ∈ allTables e.levels, t ∉ e.inputs target picked ∧ x ∈ t.entries := by
  simp only [untouched, List.mem_append, List.mem_flatten, List.mem_map, exists_exists_and_eq_and]
  simp only [List.mem_filter, decide_eq_true_eq, and_assoc]

section
variable {e : Engine} {source target : Nat} {picked : List Table}

theorem untouched_newer (h : e.Ordered cfg) (hm : Movable e source target picked)
    (hbottom : target = maxLevels - 1) {u : Table} (hu : u ∈ e.inputs target picked) :
    Newer (untouched e target picked) u.entries := by
  intro y hy x hx hk
  rcases mem_untouched.mp hy with hmem | himm | ⟨t, ht, hnot, hyt⟩
  · exact h.memTable u (hm.input_table hu) y hmem x hx hk
  · exact h.immTable u (hm.input_table hu) y himm x hx hk
  · obtain ⟨l, hl, htl⟩ := mem_allTables.mp ht
    by_cases hlt : l = target
    · subst hlt
      exact absurd hk (hm.rest_apart h htl hnot hu y hyt x hx)
    · have hpicked : t ∉ picked := fun hp => hnot (mem_inputs.mpr (Or.inr hp))
      exact hm.rest_newer h (by omega) htl hpicked hu y hyt x hx hk

theorem input_visible (h : e.Ordered cfg) (hm : Movable e source target picked)
    (hshort : ∀ x ∈ e.layers.flatten, x.key.length ≤ maxIndexKey) {x : Entry}
    (hx : x ∈ ((e.inputs target picked).map Table.entries).flatten)
    (hv : Visible Entry.key Entry.version e.oracle.minReadTs
      ((e.inputs target picked).map Table.entries).flatten x) :
    (∃ t ∈ (e.written cfg target picked).1, ∃ y ∈ t.entries, y.key = x.key ∧ y.version = x.version) ∨
      ((∃ z ∈ ((e.inputs target picked).map Table.entries).flatten,
          z.key = x.key ∧ z.version = x.version ∧ z.dead e.now = true) ∧
        target = maxLevels - 1 ∧
        ∀ t ∈ (e.written cfg target picked).1, ∀ y ∈ t.entries, y.key ≠ x.key) := by
  refine @drain_visible e.drainEnv e.levels target _ cfg.xxhash e.nextSeq (hm.iters_sorted h) ?_ x hx hv
  intro z hz
  obtain ⟨t, ht, hzt⟩ := mem_iters.mp hz
  exact hshort z (mem_layers.mpr (Or.inr (Or.inr ⟨t, hm.input_table ht, hzt⟩)))

theorem mem_layers_inputs (hm : Movable e source target picked) {x : Entry} :
    x ∈ e.layers.flatten ↔ x ∈ ((e.inputs target picked).map Table.entries).flatten ∨
      x ∈ untouched e target picked := by
  rw [mem_layers, mem_iters, mem_untouched]
  constructor
  · rintro (hx | hx | ⟨t, ht, hx⟩)
    · exact Or.inr (Or.inl hx)
    · exact Or.inr (Or.inr (Or.inl hx))
    · by_cases hin : t ∈ e.inputs target picked
      · exact Or.inl ⟨t, hin, hx⟩
      · exact Or.inr (Or.inr (Or.inr ⟨t, ht, hin, hx⟩))
  · rintro (⟨t, ht, hx⟩ | hx | hx | ⟨t, ht, _, hx⟩)
    · exact Or.inr (Or.inr ⟨t, hm.input_table ht, hx⟩)
    · exact Or.inl hx
    · exact Or.inr (Or.inl hx)
    · exact Or.inr (Or.inr ⟨t, ht, hx⟩)

theorem mem_layers_move (h : e.Ordered cfg) (hm : Movable e source target picked) {x : Entry} :
    x ∈ (e.moveTables cfg source target picked).layers.flatten ↔
      x ∈ ((e.written cfg target picked).1.map Table.entries).flatten ∨ x ∈ untouched e target picked := by
  rw [mem_layers, mem_untouched]
  simp only [mem_allTables_move hm h, List.mem_flatten, List.mem_map, exists_exists_and_eq_and]
  constructor
  · rintro (hx | hx | ⟨t, ⟨ht, hnot⟩ | ht, hx⟩)
    · exact Or.inr (Or.inl hx)
    · exact Or.inr (Or.inr (Or.inl hx))
    · exact Or.inr (Or.inr (Or.inr ⟨t, ht, hnot, hx⟩))
    · exact Or.inl ⟨t, ht, hx⟩
  · rintro (⟨t, ht, hx⟩ | hx | hx | ⟨t, ht, hnot, hx⟩)
    · exact Or.inr (Or.inr ⟨t, Or.inr ht, hx⟩)
    · exact Or.inl hx
    · exact Or.inr (Or.inl hx)
    · exact Or.inr (Or.inr ⟨t, Or.inl ⟨ht, hnot⟩, hx⟩)

theorem mem_written_entries (h : e.Ordered cfg) (hm : Movable e source target picked) {y : Entry}
    (hy : y ∈ ((e.written cfg target picked).1.map Table.entries).flatten) :
    ∃ x ∈ ((e.inputs target picked).map Table.entries).flatten, y = (x.compacted e.now).stored := by
  obtain ⟨l, hl, hyl⟩ := List.mem_flatten.mp hy
  obtain ⟨t, ht, rfl⟩ := List.mem_map.mp hl
  obtain ⟨u, hu, x, hx, rfl⟩ := hm.written_entry h ht hyl
  exact ⟨x, mem_iters.mpr ⟨u, hu, hx⟩, rfl⟩

end

section
variable {s : Traced} {source target : Nat} {picked : List Table}

theorem Inv.move (h : Inv cfg s) (hm : Movable s.engine source target picked) :
    Inv cfg ⟨s.engine.moveTables cfg source target picked, s.log⟩ := by
  refine ⟨h.ordered.move hm, h.oracle, h.fresh, h.short, h.distinct, ?_⟩
  have hshort : ∀ x ∈ s.engine.layers.flatten, x.key.length ≤ maxIndexKey := by
    intro x hx
    obtain ⟨g, hg, hk, _⟩ := h.covers.sound x hx
    rw [hk]
    exact h.short g hg
  refine h.covers.rewrite _ _ _ (fun _ => mem_layers_inputs hm) (fun _ => mem_layers_move h.ordered hm) ?_ ?_
  · intro y hy
    obtain ⟨x, hx, rfl⟩ := mem_written_entries h.ordered hm hy
    refine ⟨x, hx, by simp, by simp, ?_⟩
    intro g hg t ht
    rw [Entry.compacted_answer x ht]
    exact hg t ht
  · intro x hx hv
    rcases input_visible h.ordered hm hshort hx hv with
      ⟨t, ht, y, hy, hk, hver⟩ | ⟨⟨z, hz, hzk, hzv, hdead⟩, hb, hno⟩
    · exact Or.inl ⟨y, List.mem_flatten.mpr ⟨_, List.mem_map_of_mem ht, hy⟩, hk, hver⟩
    · refine Or.inr ⟨?_, ?_, ?_⟩
      · -- what the dropped entry stands for is dead
        intro g hg hgk hgv
        obtain ⟨g', hg', hk', hv', hr'⟩ := h.covers.sound z ((mem_layers_inputs hm).mpr (Or.inl hz))
        have heq : g' = g :=
          h.distinct g' hg' g hg (by rw [← hk', hzk, hgk]) (by rw [← hv', hzv, hgv])
        exact Entry.readsAs_gone (heq ▸ hr') hdead
      · intro y hy
        obtain ⟨l, hl, hyl⟩ := List.mem_flatten.mp hy
        obtain ⟨t, ht, rfl⟩ := List.mem_map.mp hl
        exact hno t ht y hyl
      · intro y hy hk
        obtain ⟨u, hu, hxu⟩ := mem_iters.mp hx
        exact untouched_newer h.ordered hm hb hu y hy x hxu hk

theorem Inv.compact (h : Inv cfg s) (hok : StepOk cfg s .compact) :
    Inv cfg ⟨s.engine.compact cfg, s.log⟩ := by
  rcases @compact_cases cfg s.engine with heq | ⟨hplan, heq⟩ | ⟨lvl, pick, h1, hlt, hp, heq⟩
  · rw [heq]
    exact h
  · rw [heq]
    exact h.move (movable_level0 (hok hplan))
  · rw [heq]
    exact h.move (movable_table h.ordered h1 hlt hp)

end

theorem inv_step {s s' : Traced} {op : Op} (h : Inv cfg s) (hok : StepOk cfg s op)
    (hs : s.step cfg op = some s') : Inv cfg s' := by
  cases op with
  | put key value expiresAt =>
    cases hs
    exact h.write (putNode_writes hok.2 _)
  | delete key =>
    cases hs
    exact h.write (deleteNode_writes hok.2 _)
  | rotate =>
    obtain ⟨e', he, rfl⟩ := Option.map_eq_some_iff.mp hs
    exact h.rotate he
  | flush =>
    obtain ⟨e', he, rfl⟩ := Option.map_eq_some_iff.mp hs
    exact h.flush he
  | compact =>
    cases hs
    exact h.compact hok
  | beginTx =>
    cases hs
    exact h.setOracle (Oracle.newReadTs_ok h.oracle) (Nat.le_refl _)
  | rollbackTx readTs =>
    cases hs
    exact h.setOracle (Oracle.done_ok h.oracle readTs) (Nat.le_refl _)
  | tick seconds =>
    cases hs
    exact h.advance s.engine.nextSeq (by omega) h.oracle (Nat.le_refl _) (Nat.le_refl _)

theorem Inv.getByAt {s : Traced} (h : Inv cfg s) {k : Bytes} {r : Nat}
    (hr : s.engine.oracle.minReadTs ≤ r)
    (ha : ∀ t ∈ allTables s.engine.levels, t.Aligned k) :
    s.engine.getByAt cfg k r = (s.newestWritten k r).bind (Entry.answer s.engine.now) := by
  have hsep : Separates Entry.version (Entry.hits k fun v => decide (v ≤ r)) s.log := by
    intro x hx y hy hxp hyp hv
    exact h.distinct x hx y hy (Entry.key_eq_of_hits hxp hyp) hv
  rw [Engine.getByAt, h.ordered.lookup_eq_newest ha, newestWritten]
  cases hl : newest Entry.version (Entry.hits k fun v => decide (v ≤ r)) s.engine.layers.flatten with
  | some x =>
    obtain ⟨g, hg, hsame⟩ := h.covers.read_some hr (newest_spec hl)
    rw [(newest_eq_some_iff hsep).mpr hg]
    exact hsame _ (le_refl _)
  | none =>
    have hnone := newest_eq_none.mp hl
    cases hg : newest Entry.version (Entry.hits k fun v => decide (v ≤ r)) s.log with
    | none => rfl
    | some g =>
      have hdead : g.dead s.engine.now = true := h.covers.read_none hr hnone (newest_spec hg)
      rw [Option.bind_some, Option.bind_none, Entry.answer, if_pos hdead]

/-- **LSM recency**: lookups at or above `MinReadTs` read the newest entry written. -/
theorem getByAt_log (now : Int) {ops : List Op} {s : Traced}
    (hg : Guarded (step cfg) (StepOk cfg) (fresh now) ops)
    (hr : run (step cfg) (fresh now) ops = some s) {k : Bytes} {maxVersion : Nat}
    (hmin : s.engine.oracle.minReadTs ≤ maxVersion)
    (ha : ∀ t ∈ allTables s.engine.levels, t.Aligned k) :
    s.engine.getByAt cfg k maxVersion =
      (s.newestWritten k maxVersion).bind (Entry.answer s.engine.now) :=
  (run_invariant inv_step (inv_fresh now) hg hr).getByAt hmin ha

/-! ## What goes wrong otherwise -/

/-- Every file counts 100 bytes, and a level is worth filling once the last one holds a file. -/
def smallTables : Config where
  memTableSize := 1
  levelSizeRatio := 20
  compactionThreshold := 1
  xxhash := fun _ => 0
  fileSize := fun _ => 100
  quotient := fun a b => (a : Rat) / b

/-- Two tables and a memtable, with a key that is overwritten and one that is deleted. -/
def rewritten : List Op :=
  [.put [107] [118] 0, .put [97] [119] 0, .rotate, .flush, .put [107] [120] 0, .delete [97], .rotate, .flush,
    .put [107] [121] 0]

theorem rewritten_guarded : Guarded (step smallTables) (StepOk smallTables) (fresh 0) rewritten := by
  refine guarded_of_forall ?_ _
  intro s op hop
  simp only [rewritten, List.mem_cons, List.not_mem_nil, or_false] at hop
  rcases hop with rfl | rfl | rfl | rfl | rfl | rfl | rfl | rfl | rfl
  all_goals trivial

theorem getByAt_log_rewritten : ∃ s, run (step smallTables) (fresh 0) rewritten = some s ∧
    (allTables s.engine.levels).length = 2 ∧
    ∀ k, s.engine.getByAt smallTables k 6 = (s.newestWritten k 6).bind (Entry.answer s.engine.now) := by
  refine ⟨_, rfl, by decide +kernel, fun k => getByAt_log 0 rewritten_guarded rfl (by decide +kernel) ?_⟩
  have hlen : ∀ t ∈ allTables ((run (step smallTables) (fresh 0) rewritten).elim (fun _ => [])
      fun s => s.engine.levels), ∀ b ∈ t.blocks, b.length ≤ restartInterval := by decide +kernel
  exact fun t ht b hb => aligned_of_length (hlen t ht b hb)

def overwrites : List Op :=
  .put [97] [0] 0 :: (List.range 17).map (fun i => .put [107] [UInt8.ofNat i] 0) ++ [.rotate, .flush]

theorem overwrites_guarded : Guarded (step smallTables) (StepOk smallTables) (fresh 0) overwrites := by
  refine guarded_of_forall ?_ _
  intro s op hop
  simp only [overwrites, List.cons_append, List.mem_cons, List.mem_append, List.mem_map,
    List.not_mem_nil, or_false] at hop
  rcases hop with rfl | ⟨i, _, rfl⟩ | rfl | rfl
  · exact ⟨by decide, by decide⟩
  · exact ⟨by decide, by decide⟩
  · trivial
  · trivial

/-- The lookup starts at the restart point and answers with the last but one value. -/
theorem restart_reads_overwritten :
    Guarded (step smallTables) (StepOk smallTables) (fresh 0) overwrites ∧
    ∃ s, run (step smallTables) (fresh 0) overwrites = some s ∧ s.engine.oracle.minReadTs ≤ 19 ∧
      s.engine.getByAt smallTables [107] 19 = some [1] ∧
      (s.newestWritten [107] 19).bind (Entry.answer s.engine.now) = some [16] :=
  ⟨overwrites_guarded, _, rfl, by decide +kernel, by decide +kernel, by decide +kernel⟩

end Traced
end Engine
end AkwaDB
