import AkwaDB.Engine.Ingest
import Mathlib.Logic.Function.Basic

/-!
# AkwaDB.Engine.Staging

`Ingest` down to its files, when any of its steps may fail.

The memtable is flushed first, which adds a table to the MANIFEST. Then all files are opened and looked at, and
only then moved, one after the other, under the next table numbers of the data directory. The tables are
installed when the last of them has been opened there. Nothing is moved back: what was moved before an error is in
the data directory and not in the MANIFEST, so that the next opening deletes it.

`ingest_unchanged_iff`: the errors that leave everything as it was.
-/

namespace AkwaDB
namespace Staging

open Engine (SameReads selfOverlaps targetLevel)
open Vlog (isValuePointer)

/-- A `.sst` file of the data directory by its number, or any other file. -/
inductive Path where
  | table (seq : Nat)
  | other (name : String)
  deriving DecidableEq, Repr

/-- An engine at rest and the files; table numbers not given out are not in use. -/
structure World where
  files : Path → Option Bytes
  engine : Engine
  manifest : Bytes
  quiet : engine.imm = none
  unused : ∀ seq, engine.nextSeq < seq → files (.table seq) = none

/-- What `copyFile` comes to: when it fails it leaves a part of the copy, or has not created it. -/
inductive Copied where
  | done
  | fails (left : Option Nat)
  deriving DecidableEq, Repr

/-- What table files hold, what a flush writes, and what becomes of each step, by its position. -/
structure Env where
  cfg : Config
  parse : Bytes → Option Table
  encode : Table → Bytes
  refuses : Bool
  opens : Nat → Bool
  reads : Nat → Bool
  renames : Nat → Bool
  copies : Nat → Copied
  removes : Nat → Bool
  reopens : Nat → Bool

inductive Failure where
  | flush
  | opening (path : Path)
  | reading (path : Path)
  | valuePointer (path : Path)
  | selfOverlap
  | moving (path : Path)
  | reopening (path : Path)
  deriving DecidableEq, Repr

structure Source where
  path : Path
  table : Table

namespace World

def number (w : World) : World where
  files := w.files
  engine := { w.engine with nextSeq := w.engine.nextSeq + 1 }
  manifest := w.manifest
  quiet := w.quiet
  unused seq h := w.unused seq (Nat.lt_of_succ_lt h)

def remove (w : World) (p : Path) : World where
  files := Function.update w.files p none
  engine := w.engine
  manifest := w.manifest
  quiet := w.quiet
  unused seq h := by
    by_cases heq : Path.table seq = p
    · rw [heq, Function.update_self]
    · rw [Function.update_of_ne heq]
      exact w.unused seq h

def create (w : World) (content : Bytes) : World where
  files := Function.update w.files (.table w.engine.nextSeq) (some content)
  engine := w.engine
  manifest := w.manifest
  quiet := w.quiet
  unused seq h := by
    rw [Function.update_of_ne (fun heq => by cases heq; omega)]
    exact w.unused seq h

/-- The writer takes a version for the request to flush. -/
def dispatched (w : World) : World where
  files := w.files
  engine := w.engine.dispatch fun _ => none
  manifest := w.manifest
  quiet := w.quiet
  unused seq h := w.unused seq ((Nat.le_max_left _ _).trans_lt h)

def forceFlush (env : Env) (w : World) : World :=
  if w.engine.mem.nodes = [] then w
  else
    match w.engine.flushTable env.cfg with
    | none =>
      { w with
        engine := w.engine.afterFlush none
        quiet := rfl
        unused := fun seq h => w.unused seq (Nat.lt_of_succ_lt h) }
    | some t =>
      { w.number.create (env.encode t) with
        engine := w.engine.afterFlush (some t)
        manifest := Manifest.appendManifest w.manifest Manifest.actionAdd 0 (w.engine.nextSeq + 1) t.minKey t.maxKey
        quiet := rfl
        unused := (w.number.create (env.encode t)).unused }

/-- `submitFlush`. -/
def flushed (env : Env) (w : World) : World := w.dispatched.forceFlush env

end World

def stage (env : Env) (w : World) : Nat → List Path → Except Failure (List Source)
  | _, [] => .ok []
  | i, p :: ps =>
    match (w.files p).bind env.parse with
    | none => .error (.opening p)
    | some t =>
      if env.opens i = false then .error (.opening p)
      else if env.reads i = false then .error (.reading p)
      else if t.entries.any (fun x => !x.deleted && isValuePointer x.value) then .error (.valuePointer p)
      else
        match stage env w (i + 1) ps with
        | .error f => .error f
        | .ok rest => .ok (⟨p, t⟩ :: rest)

def validate (env : Env) (w : World) (paths : List Path) : Except Failure (List Source) :=
  match stage env w 0 paths with
  | .error f => .error f
  | .ok staged =>
    let staged := staged.insertionSort fun a b => a.table.openedMinKey ≤ b.table.openedMinKey
    if selfOverlaps (staged.map Source.table) = true then .error .selfOverlap else .ok staged

/-- A file is renamed to the next number, or copied and removed; whether that succeeds. -/
def moveFile (env : Env) (j : Nat) (src : Path) (w : World) : World × Bool :=
  let w := w.number
  match w.files src with
  | none => (w, false)
  | some content =>
    if env.renames j = true then ((w.remove src).create content, true)
    else
      match env.copies j with
      | .done => (if env.removes j = true then (w.create content).remove src else w.create content, true)
      | .fails none => (w, false)
      | .fails (some n) => (w.create (content.take n), false)

def moveAll (env : Env) : Nat → List Source → World → World × Option Failure
  | _, [], w => (w, none)
  | j, s :: ss, w =>
    let (w, moved) := moveFile env j s.path w
    if moved = false then (w, some (.moving s.path))
    else if env.reopens j = false then (w, some (.reopening (.table w.engine.nextSeq)))
    else moveAll env (j + 1) ss w

def appendTables (level : Nat) : List Table → Bytes → Bytes
  | [], manifest => manifest
  | t :: ts, manifest =>
    appendTables level ts (Manifest.appendManifest manifest Manifest.actionAdd level t.seq t.openedMinKey t.maxKey)

def World.installed (w before : World) (tables : List Table) : World where
  files := w.files
  engine := { before.engine.install tables with nextSeq := w.engine.nextSeq }
  manifest :=
    let target := targetLevel before.engine.levels tables
    appendTables target (Engine.renumber target before.engine.nextSeq tables) w.manifest
  quiet := before.quiet
  unused := w.unused

def ingest (env : Env) (w : World) (paths : List Path) : World × Option Failure :=
  if paths = [] then (w, none)
  else if env.refuses = true then (w, some .flush)
  else
    let w := w.flushed env
    match validate env w paths with
    | .error f => (w, some f)
    | .ok staged =>
      match moveAll env 0 staged w with
      | (w', some f) => (w', some f)
      | (w', none) => (w'.installed w (staged.map Source.table), none)

/-- `OpenEngineWithOpts` deletes the tables that the MANIFEST does not list. -/
def removeOrphans (w : World) : Path → Option Bytes
  | .table seq => if ((Manifest.readManifest w.manifest).1 seq).isSome then w.files (.table seq) else none
  | .other name => w.files (.other name)

/-! ## What is to hold -/

/-- The sources, the data directory, the contents and the MANIFEST are as they were. -/
structure Unchanged (env : Env) (paths : List Path) (w w' : World) : Prop where
  sources : ∀ p ∈ paths, w'.files p = w.files p
  tables : ∀ seq, w.files (.table seq) = none → w'.files (.table seq) = none
  reads : ∀ vl, SameReads env.cfg vl w.engine w'.engine
  manifest : w'.manifest = w.manifest

/-- The memtable is empty; or its table cannot be created, and nothing of it is to be seen. -/
def FlushesNothing (env : Env) (w : World) : Prop :=
  w.engine.mem.nodes = [] ∨
    w.engine.flushTable env.cfg = none ∧ ∀ vl, SameReads env.cfg vl w.engine (w.engine.afterFlush none)

/-- The error comes from `submitFlush`; or nothing is flushed and either the files do not pass, or the first can
neither be renamed nor begun to be copied. -/
def Early (env : Env) (w : World) (paths : List Path) : Prop :=
  env.refuses = true ∨
    FlushesNothing env w ∧
      ((∃ f, validate env (w.flushed env) paths = .error f) ∨ env.renames 0 = false ∧ env.copies 0 = .fails none)

section Move
variable {env : Env} {w : World} {src q : Path} {j : Nat}

theorem moveFile_engine (env : Env) (j : Nat) (src : Path) (w : World) :
    (moveFile env j src w).1.engine = { w.engine with nextSeq := w.engine.nextSeq + 1 } ∧
      (moveFile env j src w).1.manifest = w.manifest := by
  unfold moveFile
  dsimp only
  split
  · exact ⟨rfl, rfl⟩
  · split
    · exact ⟨rfl, rfl⟩
    · split
      · split <;> exact ⟨rfl, rfl⟩
      · exact ⟨rfl, rfl⟩
      · exact ⟨rfl, rfl⟩

theorem moveFile_missing (hq : q ≠ .table (w.engine.nextSeq + 1)) (h : w.files q = none) :
    (moveFile env j src w).1.files q = none := by
  have hcreate : ∀ (u : World) content, u.engine.nextSeq = w.engine.nextSeq + 1 → u.files q = none →
      (u.create content).files q = none := by
    intro u content hseq hu
    show Function.update u.files _ _ q = none
    rw [hseq, Function.update_of_ne hq]
    exact hu
  have hremove : ∀ u : World, u.files q = none → (u.remove src).files q = none := by
    intro u hu
    show Function.update u.files src none q = none
    by_cases heq : q = src
    · rw [heq, Function.update_self]
    · rw [Function.update_of_ne heq]
      exact hu
  unfold moveFile
  dsimp only
  split
  · exact h
  · split
    · exact hcreate _ _ rfl (hremove _ h)
    · split
      · split
        · exact hremove _ (hcreate _ _ rfl h)
        · exact hcreate _ _ rfl h
      · exact h
      · exact hcreate _ _ rfl h

theorem moveFile_present (hq : q ≠ src) (h : w.files q ≠ none) : (moveFile env j src w).1.files q ≠ none := by
  have hcreate : ∀ (u : World) content, u.files q ≠ none → (u.create content).files q ≠ none := by
    intro u content hu
    show Function.update u.files _ _ q ≠ none
    by_cases heq : q = .table u.engine.nextSeq
    · rw [heq, Function.update_self]
      exact Option.some_ne_none _
    · rw [Function.update_of_ne heq]
      exact hu
  have hremove : ∀ u : World, u.files q ≠ none → (u.remove src).files q ≠ none := by
    intro u hu
    show Function.update u.files src none q ≠ none
    rw [Function.update_of_ne hq]
    exact hu
  unfold moveFile
  dsimp only
  split
  · exact h
  · split
    · exact hcreate _ _ (hremove _ h)
    · split
      · split
        · exact hremove _ (hcreate _ _ h)
        · exact hcreate _ _ h
      · exact h
      · exact hcreate _ _ h

theorem moveFile_trace {content : Bytes} (hsrc : w.files src = some content)
    (h : ¬(env.renames j = false ∧ env.copies j = .fails none)) :
    (moveFile env j src w).1.files src = none ∨
      (moveFile env j src w).1.files (.table (w.engine.nextSeq + 1)) ≠ none := by
  have hnew : ∀ (u : World) content, u.engine.nextSeq = w.engine.nextSeq + 1 →
      (u.create content).files (.table (w.engine.nextSeq + 1)) ≠ none := by
    intro u content hseq
    show Function.update u.files _ _ _ ≠ none
    rw [hseq, Function.update_self]
    exact Option.some_ne_none _
  have hfiles : w.number.files src = some content := hsrc
  unfold moveFile
  dsimp only
  rw [hfiles]
  dsimp only
  by_cases hrename : env.renames j = true
  · rw [if_pos hrename]
    exact .inr (hnew _ _ rfl)
  · rw [if_neg hrename]
    cases hcopy : env.copies j with
    | done =>
      dsimp only
      split
      · exact .inl (Function.update_self ..)
      · exact .inr (hnew _ _ rfl)
    | fails left =>
      cases left with
      | none => exact absurd ⟨by simpa using hrename, hcopy⟩ h
      | some n => exact .inr (hnew _ _ rfl)

theorem moveFile_nothing (hrename : env.renames j = false) (hcopy : env.copies j = .fails none) :
    moveFile env j src w = (w.number, false) := by
  unfold moveFile
  dsimp only
  split
  · rfl
  · rw [if_neg (by simp [hrename]), hcopy]

end Move

section All
variable {env : Env} {w : World} {ss : List Source} {q : Path} {j : Nat}

theorem moveAll_engine (env : Env) (j : Nat) (ss : List Source) (w : World) :
    (∃ n, (moveAll env j ss w).1.engine = { w.engine with nextSeq := n }) ∧
      (moveAll env j ss w).1.manifest = w.manifest := by
  induction ss generalizing j w with
  | nil => exact ⟨⟨w.engine.nextSeq, rfl⟩, rfl⟩
  | cons s ss ih =>
    obtain ⟨hengine, hmanifest⟩ := moveFile_engine env j s.path w
    rw [moveAll]
    dsimp only
    split
    · exact ⟨⟨_, hengine⟩, hmanifest⟩
    · split
      · exact ⟨⟨_, hengine⟩, hmanifest⟩
      · obtain ⟨⟨n, hn⟩, hm⟩ := ih (j + 1) (moveFile env j s.path w).1
        exact ⟨⟨n, by rw [hn, hengine]⟩, hm.trans hmanifest⟩

theorem moveAll_missing (hq : ∀ seq, q = .table seq → seq ≤ w.engine.nextSeq) (h : w.files q = none) :
    (moveAll env j ss w).1.files q = none := by
  induction ss generalizing j w with
  | nil => exact h
  | cons s ss ih =>
    have hne : q ≠ .table (w.engine.nextSeq + 1) := fun heq => by
      have := hq _ heq
      omega
    have hfirst : (moveFile env j s.path w).1.files q = none := moveFile_missing hne h
    rw [moveAll]
    dsimp only
    split
    · exact hfirst
    · split
      · exact hfirst
      · refine ih (fun seq heq => ?_) hfirst
        have := hq seq heq
        rw [(moveFile_engine env j s.path w).1]
        show seq ≤ w.engine.nextSeq + 1
        omega

theorem moveAll_present (hq : ∀ s ∈ ss, q ≠ s.path) (h : w.files q ≠ none) :
    (moveAll env j ss w).1.files q ≠ none := by
  induction ss generalizing j w with
  | nil => exact h
  | cons s ss ih =>
    have hfirst : (moveFile env j s.path w).1.files q ≠ none := moveFile_present (hq s List.mem_cons_self) h
    rw [moveAll]
    dsimp only
    split
    · exact hfirst
    · split
      · exact hfirst
      · exact ih (fun s hs => hq s (List.mem_cons_of_mem _ hs)) hfirst

/-- **What was moved is not moved back**: at the end a source is gone, or a table is there that was not. -/
theorem moveAll_trace {s : Source} (hfiles : ∀ u ∈ s :: ss, w.files u.path ≠ none)
    (h : ¬(env.renames j = false ∧ env.copies j = .fails none)) :
    (moveAll env j (s :: ss) w).1.files s.path = none ∨
      (moveAll env j (s :: ss) w).1.files (.table (w.engine.nextSeq + 1)) ≠ none := by
  obtain ⟨content, hcontent⟩ := Option.ne_none_iff_exists'.mp (hfiles s List.mem_cons_self)
  have hold : ∀ u ∈ s :: ss, ∀ seq, u.path = .table seq → seq ≤ w.engine.nextSeq := by
    intro u hu seq heq
    by_contra hlt
    refine hfiles u hu ?_
    rw [heq]
    exact w.unused seq (by omega)
  have hfirst := moveFile_trace hcontent h
  rw [moveAll]
  dsimp only
  split
  · exact hfirst
  · split
    · exact hfirst
    · have hseq : (moveFile env j s.path w).1.engine.nextSeq = w.engine.nextSeq + 1 := by
        rw [(moveFile_engine env j s.path w).1]
      rcases hfirst with hgone | hnew
      · refine .inl (moveAll_missing (fun seq heq => ?_) hgone)
        have := hold s List.mem_cons_self seq heq
        omega
      · refine .inr (moveAll_present (fun u hu heq => ?_) hnew)
        have := hold u (List.mem_cons_of_mem _ hu) _ heq.symm
        omega

theorem stage_files {paths : List Path} {i : Nat} {staged : List Source} (h : stage env w i paths = .ok staged) :
    staged.length = paths.length ∧ ∀ s ∈ staged, s.path ∈ paths ∧ w.files s.path ≠ none := by
  induction paths generalizing i staged with
  | nil =>
    cases h
    exact ⟨rfl, nofun⟩
  | cons p ps ih =>
    rw [stage] at h
    split at h
    · cases h
    · rename_i t hparse
      split at h
      · cases h
      · split at h
        · cases h
        · split at h
          · cases h
          · split at h
            · cases h
            · rename_i rest hrest
              cases h
              obtain ⟨hlen, hall⟩ := ih hrest
              refine ⟨congrArg (· + 1) hlen, fun s hs => ?_⟩
              rcases List.mem_cons.mp hs with rfl | hs
              · refine ⟨List.mem_cons_self, fun hnone => ?_⟩
                rw [hnone] at hparse
                cases hparse
              · exact ⟨List.mem_cons_of_mem _ (hall s hs).1, (hall s hs).2⟩

theorem validate_files {paths : List Path} {staged : List Source} (h : validate env w paths = .ok staged) :
    staged.length = paths.length ∧ ∀ s ∈ staged, s.path ∈ paths ∧ w.files s.path ≠ none := by
  unfold validate at h
  split at h
  · cases h
  · rename_i unsorted hstage
    dsimp only at h
    split at h
    · cases h
    · cases h
      obtain ⟨hlen, hall⟩ := stage_files hstage
      refine ⟨by rw [List.length_insertionSort, hlen], fun s hs => hall s ?_⟩
      exact (List.perm_insertionSort _ _).mem_iff.mp hs

end All

section Flush
variable {env : Env} {w : World}

theorem flushesNothing_dispatched : FlushesNothing env w.dispatched ↔ FlushesNothing env w := by
  have hmade : w.dispatched.engine.flushTable env.cfg = none ↔ w.engine.flushTable env.cfg = none := by
    simp only [Engine.flushTable, Table.createAtLevel, ite_eq_left_iff, reduceCtorEq, imp_false]
    exact Iff.rfl
  exact or_congr Iff.rfl (and_congr hmade Iff.rfl)

theorem forceFlush_files (h : FlushesNothing env w) :
    (w.forceFlush env).files = w.files ∧ (w.forceFlush env).manifest = w.manifest ∧
      ∀ vl, SameReads env.cfg vl w.engine (w.forceFlush env).engine := by
  unfold World.forceFlush
  split
  · exact ⟨rfl, rfl, fun _ => ⟨fun _ => rfl, fun _ _ => rfl, fun _ => rfl, fun _ => rfl, fun _ => rfl⟩⟩
  · rename_i hne
    obtain ⟨hnone, hsame⟩ := h.resolve_left hne
    rw [hnone]
    exact ⟨rfl, rfl, hsame⟩

theorem forceFlush_seen (h : ¬ FlushesNothing env w) :
    (w.forceFlush env).manifest ≠ w.manifest ∨ ¬ ∀ vl, SameReads env.cfg vl w.engine (w.forceFlush env).engine := by
  rw [FlushesNothing, not_or] at h
  obtain ⟨hne, hseen⟩ := h
  unfold World.forceFlush
  rw [if_neg hne]
  cases hmade : w.engine.flushTable env.cfg with
  | none => exact .inr fun hsame => hseen ⟨hmade, hsame⟩
  | some t =>
    refine .inl fun heq => ?_
    have hlen := congrArg List.length heq
    simp only [Manifest.appendManifest, List.length_append, Manifest.frame, bePut_length] at hlen
    omega

theorem flushed_files (h : FlushesNothing env w) :
    (w.flushed env).files = w.files ∧ (w.flushed env).manifest = w.manifest ∧
      ∀ vl, SameReads env.cfg vl w.engine (w.flushed env).engine :=
  forceFlush_files (flushesNothing_dispatched.mpr h)

theorem flushed_seen (h : ¬ FlushesNothing env w) :
    (w.flushed env).manifest ≠ w.manifest ∨ ¬ ∀ vl, SameReads env.cfg vl w.engine (w.flushed env).engine :=
  forceFlush_seen (mt flushesNothing_dispatched.mp h)

end Flush

theorem sameReads_nextSeq {cfg : Config} {vl : Vlog.ValueLog} {e e' : Engine} (n : Nat) :
    SameReads cfg vl e { e' with nextSeq := n } ↔ SameReads cfg vl e e' := Iff.rfl

theorem sameReads_refl (cfg : Config) (vl : Vlog.ValueLog) (e : Engine) : SameReads cfg vl e e :=
  ⟨fun _ => rfl, fun _ _ => rfl, fun _ => rfl, fun _ => rfl, fun _ => rfl⟩

theorem moved_unchanged_iff {env : Env} {w : World} {paths : List Path} {s : Source} {ss : List Source}
    (hvalid : validate env (w.flushed env) paths = .ok (s :: ss)) :
    Unchanged env paths w (moveAll env 0 (s :: ss) (w.flushed env)).1 ↔
      FlushesNothing env w ∧ env.renames 0 = false ∧ env.copies 0 = .fails none := by
  obtain ⟨-, hstaged⟩ := validate_files hvalid
  obtain ⟨⟨n, hengine⟩, hmanifest⟩ := moveAll_engine env 0 (s :: ss) (w.flushed env)
  constructor
  · intro hun
    have hflush : FlushesNothing env w := by
      by_contra hnot
      rcases flushed_seen hnot with hseen | hseen
      · exact hseen (hmanifest.symm.trans hun.manifest)
      · refine hseen fun vl => ?_
        have hreads := hun.reads vl
        rw [hengine, sameReads_nextSeq] at hreads
        exact hreads
    refine ⟨hflush, ?_⟩
    by_contra hmove
    obtain ⟨hfiles, -, -⟩ := flushed_files hflush
    rcases moveAll_trace (fun u hu => (hstaged u hu).2) hmove with hgone | hnew
    · have hsource := hun.sources s.path (hstaged s List.mem_cons_self).1
      refine (hstaged s List.mem_cons_self).2 ?_
      rw [hfiles, ← hsource]
      exact hgone
    · refine hnew (hun.tables _ ?_)
      rw [← hfiles]
      exact (w.flushed env).unused _ (Nat.lt_succ_self _)
  · rintro ⟨hflush, hrename, hcopy⟩
    obtain ⟨hfiles, hman, hreads⟩ := flushed_files hflush
    have hmove : moveAll env 0 (s :: ss) (w.flushed env) = ((w.flushed env).number, some (.moving s.path)) := by
      rw [moveAll, moveFile_nothing hrename hcopy]
      rfl
    rw [hmove]
    exact ⟨fun p _ => congrFun hfiles p, fun seq hseq => (congrFun hfiles _).trans hseq,
      fun vl => (sameReads_nextSeq _).mpr (hreads vl), hman⟩

theorem invalid_unchanged_iff {env : Env} {w : World} {paths : List Path} :
    Unchanged env paths w (w.flushed env) ↔ FlushesNothing env w := by
  constructor
  · intro hun
    by_contra hnot
    rcases flushed_seen hnot with hseen | hseen
    · exact hseen hun.manifest
    · exact hseen hun.reads
  · intro hflush
    obtain ⟨hfiles, hman, hreads⟩ := flushed_files hflush
    exact ⟨fun p _ => congrFun hfiles p, fun seq hseq => (congrFun hfiles _).trans hseq, hreads, hman⟩

/-- **An error leaves everything as it was exactly if it comes before anything is flushed or moved.** -/
theorem ingest_unchanged_iff (env : Env) {w w' : World} {paths : List Path} {f : Failure}
    (h : ingest env w paths = (w', some f)) : Unchanged env paths w w' ↔ Early env w paths := by
  unfold ingest at h
  split at h
  · cases h
  rename_i hpaths
  split at h
  · rename_i hrefuses
    cases h
    exact iff_of_true ⟨fun _ _ => rfl, fun _ => id, fun vl => sameReads_refl _ vl _, rfl⟩ (.inl hrefuses)
  rename_i hrefuses
  dsimp only at h
  rw [Early, or_iff_right hrefuses]
  cases hvalid : validate env (w.flushed env) paths with
  | error g =>
    rw [hvalid] at h
    cases h
    rw [invalid_unchanged_iff]
    exact ⟨fun hflush => ⟨hflush, .inl ⟨_, rfl⟩⟩, And.left⟩
  | ok staged =>
    obtain ⟨hlen, -⟩ := validate_files hvalid
    rw [hvalid] at h
    cases staged with
    | nil => exact absurd (List.eq_nil_of_length_eq_zero hlen.symm) hpaths
    | cons s ss =>
      have hw' : w' = (moveAll env 0 (s :: ss) (w.flushed env)).1 := by
        dsimp only at h
        split at h
        · rename_i heq
          cases h
          rw [heq]
        · cases h
      rw [hw', moved_unchanged_iff hvalid]
      refine and_congr_right fun _ => ⟨.inr, fun hor => ?_⟩
      exact hor.resolve_left (by rintro ⟨g, hg⟩; cases hg)

def oneKey (key : UInt8) : Table :=
  ⟨0, 0, [[⟨[key], [0, 118], false, 0, 1⟩]], Filter.newFilter (fun _ => 0) [[key]], 0⟩

/-- Files that hold the one byte of their key; renames succeed as `renames` says. -/
def twoFiles (renames : Nat → Bool) : Env where
  cfg := Config.plain
  parse bytes := match bytes with
    | [key] => some (oneKey key)
    | _ => none
  encode _ := []
  refuses := false
  opens _ := true
  reads _ := true
  renames := renames
  copies _ := .fails none
  removes _ := true
  reopens _ := true

def besides : World where
  files p := if p = .other "a" then some [97] else if p = .other "b" then some [98] else none
  engine := Engine.fresh 0
  manifest := []
  quiet := rfl
  unused _ _ := rfl

theorem ingest_unchanged_missing :
    ∃ w', ingest (twoFiles fun _ => true) besides [.other "a", .other "c"] = (w', some (.opening (.other "c"))) ∧
      Unchanged (twoFiles fun _ => true) [.other "a", .other "c"] besides w' :=
  ⟨_, rfl, (ingest_unchanged_iff (twoFiles fun _ => true) rfl).mpr (.inr ⟨.inl rfl, .inl ⟨_, rfl⟩⟩)⟩

/-- The second file cannot be renamed; the first is nowhere after the next opening. -/
theorem ingest_loses_source :
    ∃ w', ingest (twoFiles (· == 0)) besides [.other "a", .other "b"] = (w', some (.moving (.other "b"))) ∧
      w'.files (.other "a") = none ∧ w'.files (.table 3) = some [97] ∧ removeOrphans w' (.other "a") = none ∧
      removeOrphans w' (.table 3) = none ∧
      ¬ Unchanged (twoFiles (· == 0)) [.other "a", .other "b"] besides w' := by
  refine ⟨_, rfl, rfl, rfl, rfl, rfl, fun hun => ?_⟩
  have hsource := hun.sources (.other "a") (by simp)
  cases hsource

end Staging
end AkwaDB
