import AkwaDB.Engine.Background
import AkwaDB.Engine.Scan
import AkwaDB.Manifest.Rewrite

/-!
# AkwaDB.Engine.Clear

`clearInternal` next to flushes, compactions and the rewrites of the MANIFEST.

It holds `memTableMu` and the locks of the write-ahead log from its first step to its last, so no
write and no rotation come between them. But it takes neither `metaMu` nor any other lock that would
keep the background workers away: it swaps the memtables, empties the levels one by one and rewrites
the MANIFEST, and a worker that holds a memtable or tables from before puts them back afterwards.

- `inv_step`: from the moment nothing is under way, nothing the workers do brings an entry back.
- `clear_complete`: so a clear that no flush, compaction or rewrite of the MANIFEST overlaps leaves
  an engine in which nothing is found, nothing scanned and no table listed.
- `clear_incomplete`: with a flush or a compaction under way it does not.
-/

namespace AkwaDB
namespace Clearing

open Background (Choice Shared Worker)

/-- `compactManifest` before it rewrites the file: the level to copy next, and the tables copied. -/
structure Collect where
  next : Nat
  acc : List (Nat × Table)

def Collect.copy (levels : LevelTables) (c : Collect) : Collect :=
  ⟨c.next + 1, c.acc ++ (levels c.next).map fun t => (c.next, t)⟩

inductive Stage where
  | before
  | locked
  | emptying (next : Nat)
  | rewriting (c : Collect)
  | done

namespace Stage

def isBefore : Stage → Bool
  | before => true
  | _ => false

def running : Stage → Bool
  | before | done => false
  | _ => true

end Stage

/-- `maintainer` is the maintenance worker inside `compactManifest`. -/
structure Store where
  base : Shared
  maintainer : Option Collect
  stage : Stage

inductive Act where
  | work (a : Background.Act)
  | write (node : Nat → Option Entry)
  | rotate
  | maintain
  | clear

namespace Store

def setEngine (s : Store) (engine : Engine) : Store := { s with base := { s.base with engine } }

/-- The truncated file gets a record for every table that was copied. -/
def rewriteManifest (s : Store) (c : Collect) : Store :=
  { s with base := { s.base with manifest := Rewrite.rewritten c.acc } }

def maintain (s : Store) : Store :=
  match s.maintainer with
  | none => { s with maintainer := some ⟨0, []⟩ }
  | some c =>
    if c.next < maxLevels then { s with maintainer := some (c.copy s.base.engine.levels) }
    else { s.rewriteManifest c with maintainer := none }

def clear (s : Store) : Option Store :=
  let e := s.base.engine
  match s.stage with
  | .before => some { s with stage := .locked }
  | .locked =>
    some { s.setEngine { e with mem := SkipList.newSkipList, imm := none } with stage := .emptying 0 }
  | .emptying next =>
    if next < maxLevels then
      some { s.setEngine { e with levels := setLevel e.levels next [] } with stage := .emptying (next + 1) }
    else some { s with stage := .rewriting ⟨0, []⟩ }
  | .rewriting c =>
    if c.next < maxLevels then some { s with stage := .rewriting (c.copy e.levels) }
    else some { s.rewriteManifest c with stage := .done }
  | .done => none

def step (s : Store) : Act → Option Store
  | .work _ => none
  | .write node =>
    if s.stage.running then none else some (s.setEngine (s.base.engine.dispatch node))
  | .rotate =>
    if s.stage.running then none
    else s.base.engine.rotate.map fun e =>
      { s with base := { s.base with engine := e, tasks := s.base.tasks ++ e.imm.toList } }
  | .maintain => some s.maintain
  | .clear => s.clear

end Store

variable (cfg : Config)

def act (sh : Store) : Act → Worker → Option (Store × Worker)
  | .work a, w => (w.step cfg sh.base a).map fun r => ({ sh with base := r.1 }, r.2)
  | a, w => (sh.step a).map fun sh' => (sh', w)

abbrev System := Pool Store Worker

def step : System → Nat × Act → Option System := Pool.step (act cfg)

def isIdle : Worker → Bool
  | .idle => true
  | _ => false

def Quiet (s : System) : Prop :=
  (∀ w ∈ s.procs, isIdle w = true) ∧ s.shared.base.tasks.isEmpty = true ∧
    s.shared.maintainer.isNone = true

instance (s : System) : Decidable (Quiet s) := inferInstanceAs (Decidable (_ ∧ _ ∧ _))

/-- Nothing is under way or begins while the clear runs, and no write comes after its beginning. -/
def Undisturbed (s : System) (a : Nat × Act) : Prop :=
  match a.2 with
  | .clear => s.shared.stage.isBefore = true → Quiet s
  | .work (.pick _ _ _) => s.shared.stage.running = false
  | .maintain => s.shared.stage.running = false
  | .write _ => s.shared.stage.isBefore = true
  | _ => True

instance (s : System) (a : Nat × Act) : Decidable (Undisturbed s a) := by
  unfold Undisturbed
  split <;> infer_instance

/-! ## What a clear leaves -/

def Harmless : Worker → Prop
  | .idle => True
  | .flushing m _ => m.nodes = []
  | .logging true [] => True
  | _ => False

structure NoNodes (sh : Shared) : Prop where
  mem : sh.engine.mem.nodes = []
  imm : ∀ m ∈ sh.engine.imm, m.1.nodes = []
  tasks : ∀ m ∈ sh.tasks, m.1.nodes = []

structure Cleared (s : System) : Prop where
  nodes : NoNodes s.shared.base
  levels : ∀ l < maxLevels, s.shared.base.engine.levels l = []
  manifest : s.shared.base.manifest = []
  maintainer : ∀ c ∈ s.shared.maintainer, c.acc = []
  workers : ∀ w ∈ s.procs, Harmless w

def Inv (s : System) : Prop :=
  match s.shared.stage with
  | .before => True
  | .locked => Quiet s
  | .emptying next =>
    Quiet s ∧ NoNodes s.shared.base ∧ ∀ l < next, s.shared.base.engine.levels l = []
  | .rewriting c =>
    Quiet s ∧ NoNodes s.shared.base ∧ (∀ l < maxLevels, s.shared.base.engine.levels l = []) ∧ c.acc = []
  | .done => Cleared s

variable {cfg}

section Steps
variable {s s' : System}

theorem Collect.copy_acc {levels : LevelTables} (hl : ∀ l < maxLevels, levels l = []) {c : Collect}
    (hc : c.acc = []) (hlt : c.next < maxLevels) : (c.copy levels).acc = [] := by
  simp [copy, hc, hl _ hlt]

theorem step_cases {a : Nat × Act} (h : step cfg s a = some s') :
    (∃ b l p r q base, a.2 = .work b ∧ s.procs = l ++ p :: r ∧
      p.step cfg s.shared.base b = some (base, q) ∧ s' = ⟨{ s.shared with base }, l ++ q :: r⟩) ∨
    ∃ sh, s.shared.step a.2 = some sh ∧ s' = ⟨sh, s.procs⟩ := by
  obtain ⟨l, p, r, q, _, hl, hact, hl'⟩ := Pool.step_split h
  have hother : ∀ {sh : Option Store}, (sh.map fun sh' => (sh', p)) = some (s'.shared, q) →
      ∃ sh', sh = some sh' ∧ s' = ⟨sh', s.procs⟩ := by
    intro sh hmap
    obtain ⟨sh', hsh, heq⟩ := Option.map_eq_some_iff.mp hmap
    obtain ⟨hs, rfl⟩ := Prod.mk.inj heq
    exact ⟨sh', hsh, by rw [hs, hl, ← hl']⟩
  cases hb : a.2 with
  | work b =>
    rw [hb, act] at hact
    obtain ⟨⟨base, q'⟩, hw, heq⟩ := Option.map_eq_some_iff.mp hact
    obtain ⟨hs, rfl⟩ := Prod.mk.inj heq
    exact Or.inl ⟨b, l, p, r, q', base, rfl, hl, hw, by rw [← hl']; exact congrArg (Pool.mk · _) hs.symm⟩
  | _ =>
    rw [hb] at hact
    exact Or.inr (hother hact)

theorem pick_of_idle {sh base : Shared} {b : Background.Act} {p q : Worker} (hp : isIdle p = true)
    (ht : sh.tasks.isEmpty = true) (h : p.step cfg sh b = some (base, q)) :
    ∃ source target tables, b = .pick source target tables := by
  cases p with
  | idle =>
    cases b with
    | takeTask =>
      rw [Worker.step, List.isEmpty_iff.mp ht] at h
      cases h
    | pick source target tables => exact ⟨source, target, tables, rfl⟩
    | next => cases h
  | _ => cases hp

theorem harmless_step {sh base : Shared} {b : Background.Act} {p q : Worker} (hp : Harmless p)
    (hn : NoNodes sh) (hlv : ∀ l < maxLevels, sh.engine.levels l = [])
    (h : p.step cfg sh b = some (base, q)) :
    Harmless q ∧ NoNodes base ∧ base.engine.levels = sh.engine.levels ∧ base.manifest = sh.manifest := by
  cases p with
  | idle =>
    cases b with
    | takeTask =>
      simp only [Worker.step] at h
      split at h
      · cases h
      · rename_i m seq tasks htasks
        cases h
        have hall := hn.tasks
        rw [htasks] at hall
        exact ⟨hall (m, seq) (by simp), ⟨hn.mem, hn.imm, fun x hx => hall x (by simp [hx])⟩, rfl, rfl⟩
    | pick source target tables =>
      -- there is no table to pick
      simp only [Worker.step] at h
      split at h
      · rename_i hpick
        obtain ⟨hlt, hmax, hne, hsub⟩ := hpick
        rw [hlv source (Nat.lt_trans hlt hmax), List.sublist_nil] at hsub
        exact absurd hsub hne
      · cases h
    | next => cases h
  | flushing m seq =>
    cases b with
    | next =>
      have hempty : m.allVersions = [] := SkipList.allVersions_eq_nil.mpr hp
      simp only [Worker.step, Worker.next, if_pos hempty] at h
      cases h
      exact ⟨trivial, hn, rfl, rfl⟩
    | _ => cases h
  | logging flush records =>
    cases flush with
    | false => cases hp
    | true =>
      cases records with
      | cons r rs => cases hp
      | nil =>
        cases b with
        | next =>
          cases h
          exact ⟨trivial, ⟨hn.mem, by simp, hn.tasks⟩, rfl, rfl⟩
        | _ => cases h
  | _ => cases hp

theorem harmless_of_quiet (h : Quiet s) : ∀ w ∈ s.procs, Harmless w := by
  intro w hw
  have := h.1 w hw
  cases w with
  | idle => trivial
  | _ => cases this

theorem inv_work {b : Background.Act} {l r : List Worker} {p q : Worker} {base : Shared}
    (hi : Inv s) (hok : ∀ source target tables, b = .pick source target tables →
      s.shared.stage.running = false)
    (hl : s.procs = l ++ p :: r) (hw : p.step cfg s.shared.base b = some (base, q)) :
    Inv ⟨{ s.shared with base }, l ++ q :: r⟩ := by
  have hp : p ∈ s.procs := by rw [hl]; simp
  -- while the clear runs, an idle worker without tasks could only pick
  have hstuck : s.shared.stage.running = true → ¬ Quiet s := by
    intro hrun hq
    obtain ⟨source, target, tables, rfl⟩ := pick_of_idle (hq.1 p hp) hq.2.1 hw
    have := hok source target tables rfl
    rw [hrun] at this
    cases this
  unfold Inv at hi ⊢
  dsimp only
  cases hs : s.shared.stage with
  | before => trivial
  | done =>
    rw [hs] at hi
    have hc : Cleared s := hi
    obtain ⟨hq, hn, hlv, hm⟩ := harmless_step (hc.workers p hp) hc.nodes hc.levels hw
    refine ⟨hn, by rw [hlv]; exact hc.levels, hm.trans hc.manifest, hc.maintainer, ?_⟩
    exact Pool.forall_middle hq fun w hw => hc.workers w (by rw [hl]; exact mem_middle.mpr (Or.inr hw))
  | locked =>
    rw [hs] at hi hstuck
    exact absurd hi (hstuck rfl)
  | emptying next =>
    rw [hs] at hi hstuck
    exact absurd hi.1 (hstuck rfl)
  | rewriting c =>
    rw [hs] at hi hstuck
    exact absurd hi.1 (hstuck rfl)

theorem inv_of_stage {sh : Store} (hi : Inv s) (hrun : s.shared.stage.running = false)
    (hstage : sh.stage = s.shared.stage) (h : Cleared s → Cleared ⟨sh, s.procs⟩) :
    Inv ⟨sh, s.procs⟩ := by
  unfold Inv at hi ⊢
  dsimp only
  rw [hstage]
  cases hs : s.shared.stage with
  | before => trivial
  | done =>
    rw [hs] at hi
    exact h hi
  | _ =>
    rw [hs] at hrun
    cases hrun

theorem inv_rotate {sh : Store} (hi : Inv s) (h : s.shared.step .rotate = some sh) :
    Inv ⟨sh, s.procs⟩ := by
  simp only [Store.step] at h
  split at h
  · cases h
  · rename_i hrun
    obtain ⟨e, hr, rfl⟩ := Option.map_eq_some_iff.mp h
    refine inv_of_stage hi (by simpa using hrun) rfl fun hc => ?_
    unfold Engine.rotate at hr
    split at hr
    · cases hr
    · cases hr
      refine ⟨⟨rfl, ?_, ?_⟩, hc.levels, hc.manifest, hc.maintainer, hc.workers⟩
      · intro m hm
        cases hm
        exact hc.nodes.mem
      · intro m hm
        rcases List.mem_append.mp hm with hm | hm
        · exact hc.nodes.tasks m hm
        · rw [List.mem_singleton.mp hm]
          exact hc.nodes.mem

theorem rewritten_nil {c : Collect} (hc : c.acc = []) : Rewrite.rewritten c.acc = [] := by
  rw [hc]
  rfl

theorem inv_maintain (hi : Inv s) (hrun : s.shared.stage.running = false) :
    Inv ⟨s.shared.maintain, s.procs⟩ := by
  refine inv_of_stage hi hrun ?_ fun hc => ?_
  · unfold Store.maintain
    split
    · rfl
    · split <;> rfl
  · unfold Store.maintain
    split
    · exact ⟨hc.nodes, hc.levels, hc.manifest, by simp, hc.workers⟩
    · rename_i c hm
      have hacc : c.acc = [] := hc.maintainer c hm
      split
      · rename_i hlt
        refine ⟨hc.nodes, hc.levels, hc.manifest, ?_, hc.workers⟩
        intro c' hc'
        cases hc'
        exact Collect.copy_acc hc.levels hacc hlt
      · exact ⟨⟨hc.nodes.mem, hc.nodes.imm, hc.nodes.tasks⟩, hc.levels, rewritten_nil hacc, by simp,
          hc.workers⟩

theorem inv_clear {sh : Store} (hi : Inv s) (hok : s.shared.stage.isBefore = true → Quiet s)
    (h : s.shared.clear = some sh) : Inv ⟨sh, s.procs⟩ := by
  unfold Store.clear at h
  unfold Inv at hi
  cases hs : s.shared.stage with
  | before =>
    rw [hs] at h hok
    cases h
    exact hok rfl
  | locked =>
    rw [hs] at h hi
    cases h
    refine ⟨hi, ⟨rfl, by simp [Store.setEngine], ?_⟩, by simp⟩
    intro m hm
    have hempty := List.isEmpty_iff.mp (show s.shared.base.tasks.isEmpty = true from hi.2.1)
    simp [Store.setEngine, hempty] at hm
  | emptying next =>
    rw [hs] at h hi
    obtain ⟨hq, hn, hlv⟩ : Quiet s ∧ NoNodes s.shared.base ∧
      ∀ l < next, s.shared.base.engine.levels l = [] := hi
    dsimp only at h
    split at h
    · cases h
      refine ⟨hq, ⟨hn.mem, hn.imm, hn.tasks⟩, ?_⟩
      intro l hl
      by_cases heq : l = next
      · rw [heq]
        exact setLevel_same ..
      · exact (setLevel_other heq).trans (hlv l (by omega))
    · rename_i hend
      cases h
      exact ⟨hq, hn, fun l hl => hlv l (by omega), rfl⟩
  | rewriting c =>
    rw [hs] at h hi
    obtain ⟨hq, hn, hlv, hacc⟩ : Quiet s ∧ NoNodes s.shared.base ∧
      (∀ l < maxLevels, s.shared.base.engine.levels l = []) ∧ c.acc = [] := hi
    dsimp only at h
    split at h
    · rename_i hlt
      cases h
      exact ⟨hq, hn, hlv, Collect.copy_acc hlv hacc hlt⟩
    · cases h
      refine ⟨⟨hn.mem, hn.imm, hn.tasks⟩, hlv, rewritten_nil hacc, ?_, harmless_of_quiet hq⟩
      intro c' hc'
      have hnone := Option.isNone_iff_eq_none.mp hq.2.2
      simp [Store.rewriteManifest, hnone] at hc'
  | done =>
    rw [hs] at h
    cases h

theorem inv_step {a : Nat × Act} (hi : Inv s) (hok : Undisturbed s a) (h : step cfg s a = some s') :
    Inv s' := by
  rcases step_cases h with ⟨b, l, p, r, q, base, hb, hl, hw, rfl⟩ | ⟨sh, hsh, rfl⟩
  · refine inv_work hi ?_ hl hw
    rintro source target tables rfl
    simpa only [Undisturbed, hb] using hok
  · cases hb : a.2 with
    | work b =>
      rw [hb] at hsh
      cases hsh
    | write node =>
      simp only [Undisturbed, hb] at hok
      simp only [hb, Store.step] at hsh
      split at hsh
      · cases hsh
      · cases hsh
        unfold Inv
        cases hs : s.shared.stage with
        | before => simp [Store.setEngine, hs]
        | _ =>
          rw [hs] at hok
          cases hok
    | rotate =>
      rw [hb] at hsh
      exact inv_rotate hi hsh
    | maintain =>
      rw [hb] at hsh
      cases hsh
      exact inv_maintain hi (by simpa only [Undisturbed, hb] using hok)
    | clear =>
      rw [hb] at hsh
      exact inv_clear hi (by simpa only [Undisturbed, hb] using hok) hsh

end Steps

/-! ## Reading a cleared engine -/

theorem lookup_of_cleared {s : System} (h : Cleared s) (k : Bytes) (ok : Nat → Bool) :
    s.shared.base.engine.lookup cfg k ok = none := by
  have himm : s.shared.base.engine.immNodes = [] := by
    unfold Engine.immNodes
    split
    · rename_i m _ hm
      exact h.nodes.imm _ hm
    · rfl
  have htables : Engine.findInLevels cfg s.shared.base.engine.levels k ok = none := by
    refine List.findSome?_eq_none_iff.mpr fun lvl hlvl => ?_
    rw [h.levels lvl (List.mem_range.mp hlvl)]
    rfl
  rw [Engine.lookup, SkipList.find_eq_newest, Engine.immNodes_find, h.nodes.mem, himm, htables]
  rfl

theorem mergedIterator_eq_nil {iters : List (List Entry)} (h : iters.flatten = []) :
    mergedIterator iters = [] := by
  have hmerge : kmerge Entry.before iters = [] := by
    have := @kmerge_perm _ Entry.before iters
    rw [h] at this
    exact this.eq_nil
  rw [mergedIterator, hmerge]
  rfl

theorem getByPrefix_of_cleared {s : System} (h : Cleared s) (vl : Vlog.ValueLog) (pre : Bytes) :
    s.shared.base.engine.getByPrefix cfg vl pre = [] := by
  have htables : Engine.tableOrder s.shared.base.engine.levels = [] := by
    refine List.flatMap_eq_nil_iff.mpr fun lvl hlvl => ?_
    rw [h.levels lvl (List.mem_range.mp hlvl)]
    rfl
  have hempty : (s.shared.base.engine.prefixIters cfg pre).flatten = [] := by
    simp only [Engine.prefixIters, htables, List.filter_nil, List.map_nil, List.append_nil,
      List.flatten_cons, SkipList.seek, h.nodes.mem, List.dropWhile_nil, List.nil_append]
    cases himm : s.shared.base.engine.imm with
    | none => rfl
    | some m => simp [h.nodes.imm m himm]
  rw [Engine.getByPrefix, mergedIterator_eq_nil hempty]
  rfl

/-- **A clear is complete** when no flush, no compaction and no rewrite of the MANIFEST overlaps it. -/
theorem clear_complete {s₀ s : System} {acts : List (Nat × Act)} (hbefore : s₀.shared.stage = .before)
    (hg : Guarded (step cfg) Undisturbed s₀ acts) (hr : run (step cfg) s₀ acts = some s)
    (hdone : s.shared.stage = .done) :
    (∀ k ok, s.shared.base.engine.lookup cfg k ok = none) ∧
      (∀ vl pre, s.shared.base.engine.getByPrefix cfg vl pre = []) ∧
      ∀ seq, (Manifest.readManifest s.shared.base.manifest).1 seq = none := by
  have hinit : Inv s₀ := by
    unfold Inv
    rw [hbefore]
    trivial
  have hinv := run_invariant inv_step hinit hg hr
  unfold Inv at hinv
  rw [hdone] at hinv
  have hc : Cleared s := hinv
  refine ⟨lookup_of_cleared hc, getByPrefix_of_cleared hc, fun seq => ?_⟩
  rw [hc.manifest]
  rfl

def opened (workers : Nat) : System :=
  ⟨⟨⟨Engine.fresh 0, [], [], fun _ => 0⟩, none, .before⟩, List.replicate workers .idle⟩

def putAndRotate : List (Nat × Act) := [(0, .write (Engine.putNode [107] [0, 1] 0)), (0, .rotate)]

def clearSteps : List (Nat × Act) := List.replicate 14 (0, .clear)

def flushSteps : List (Nat × Act) := List.replicate 4 (0, .work .next)

def clearAfterFlush : List (Nat × Act) :=
  putAndRotate ++ [(0, .work .takeTask)] ++ flushSteps ++ clearSteps ++
    [(0, .rotate), (0, .work .takeTask), (0, .work .next), (0, .work .next)]

theorem clear_complete_afterFlush : ∃ s, run (step .plain) (opened 1) clearAfterFlush = some s ∧
    (∀ k ok, s.shared.base.engine.lookup .plain k ok = none) ∧
      (∀ vl pre, s.shared.base.engine.getByPrefix .plain vl pre = []) ∧
      ∀ seq, (Manifest.readManifest s.shared.base.manifest).1 seq = none := by
  obtain ⟨s, hs⟩ : ∃ s, run (step .plain) (opened 1) clearAfterFlush = some s := ⟨_, rfl⟩
  refine ⟨s, hs, clear_complete rfl (by decide +kernel) hs ?_⟩
  cases hs
  rfl

def clearDuringFlush : List (Nat × Act) :=
  putAndRotate ++ [(0, .work .takeTask)] ++ clearSteps ++ flushSteps

def flushedTable : Table :=
  ⟨3, 0, [[⟨[107], [0, 1], false, 0, 2⟩]], Filter.newFilter (fun _ => 0) [[107]], 0⟩

def clearDuringCompaction : List (Nat × Act) :=
  putAndRotate ++ [(0, .work .takeTask)] ++ flushSteps ++
    [(0, .work (.pick 0 4 [flushedTable])), (0, .work .next), (0, .work .next)] ++ clearSteps ++
    List.replicate 5 (0, .work .next)

def noSegments : Vlog.ValueLog := ⟨fun _ => none, 1, 0⟩

/-- **The key is back**, in either run, when all work has finished. -/
theorem clear_incomplete :
    (∃ s, run (step .plain) (opened 1) clearDuringFlush = some s ∧ s.shared.stage = .done ∧ Quiet s ∧
      s.shared.base.engine.getByAt .plain [107] 2 = some [0, 1] ∧
      s.shared.base.engine.getByPrefix .plain noSegments [107] = [([107], [1])] ∧
      (Manifest.readManifest s.shared.base.manifest).1 3 = some 0) ∧
    ∃ s, run (step .plain) (opened 1) clearDuringCompaction = some s ∧ s.shared.stage = .done ∧ Quiet s ∧
      s.shared.base.engine.getByAt .plain [107] 2 = some [0, 1] ∧
      s.shared.base.engine.getByPrefix .plain noSegments [107] = [([107], [1])] ∧
      (Manifest.readManifest s.shared.base.manifest).1 4 = some 4 := by
  refine ⟨⟨_, rfl, rfl, by decide +kernel, by decide +kernel, by decide +kernel, by decide +kernel⟩,
    ⟨_, rfl, rfl, by decide +kernel, by decide +kernel, by decide +kernel, by decide +kernel⟩⟩

end Clearing
end AkwaDB
