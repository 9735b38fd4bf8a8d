import AkwaDB.Manifest.Record
import AkwaDB.Store.Table

/-!
# AkwaDB.Manifest.Disk

What a compaction does to the disk, and what the next open makes of it: the MANIFEST, the table
files, and the rule that a file the MANIFEST does not list is deleted.

A compaction creates its outputs, then logs each input as deleted and removes its file, and then
logs the outputs as added. `Disk.run_create`, `Disk.recover_delete` and `Disk.recover_add` say
which tables an open finds after any part of each phase.
-/

namespace AkwaDB

structure Disk where
  manifest : Bytes
  files : List Table

/-- `MarkRemove` may keep the file; it is not listed then, so an open deletes it all the same. -/
inductive DiskStep where
  | create (t : Table)
  | log (r : Manifest.Record)
  | remove (seq : Nat)

namespace Disk

def step (d : Disk) : DiskStep → Disk
  | .create t => ⟨d.manifest, d.files ++ [t]⟩
  | .log r => ⟨Manifest.appendManifest d.manifest r.action r.level r.seqNum r.minKey r.maxKey, d.files⟩
  | .remove seq => ⟨d.manifest, d.files.filter fun t => decide (t.seq ≠ seq)⟩

def run (d : Disk) (steps : List DiskStep) : Disk := steps.foldl step d

def levelMap (d : Disk) : Manifest.Levels := (Manifest.readManifest d.manifest).1

/-- The tables `OpenEngineWithOpts` loads: a file the MANIFEST does not list is deleted. -/
def recover (d : Disk) : List Table := d.files.filter fun t => (d.levelMap t.seq).isSome

theorem mem_recover {d : Disk} {t : Table} :
    t ∈ d.recover ↔ t ∈ d.files ∧ (d.levelMap t.seq).isSome = true := by
  rw [recover, List.mem_filter]

theorem run_nil (d : Disk) : d.run [] = d := rfl

theorem run_append (d : Disk) (a b : List DiskStep) : d.run (a ++ b) = (d.run a).run b :=
  List.foldl_append

end Disk

def tableRecord (action : UInt8) (level : Nat) (t : Table) : Manifest.Record :=
  ⟨action, level, t.seq, t.minKey, t.maxKey⟩

/-- A record `readManifest` accepts and reads back as written. -/
structure Fits (level : Nat) (t : Table) : Prop where
  level : level < 256
  seq : t.seq < 2 ^ 64
  data : 18 + t.minKey.length + t.maxKey.length ≤ Manifest.maxDataLen

section
variable {d : Disk} (hc : Manifest.Clean d.manifest) {level : Nat} {t : Table} (hf : Fits level t)
include hc hf

theorem Disk.log_clean (action : UInt8) :
    Manifest.Clean (d.step (.log (tableRecord action level t))).manifest ∧
      (d.step (.log (tableRecord action level t))).levelMap =
        Manifest.applyRecord d.levelMap (tableRecord action level t).data := by
  have hlen : (tableRecord action level t).data.length ≤ Manifest.maxDataLen := by
    rw [Manifest.data_length]
    exact hf.data
  exact hc.append hlen

theorem Disk.levelMap_log_del (s : Nat) :
    (d.step (.log (tableRecord Manifest.actionDel level t))).levelMap s =
      if s = t.seq then none else d.levelMap s := by
  rw [(Disk.log_clean hc hf Manifest.actionDel).2,
    Manifest.applyRecord_del d.levelMap rfl hf.seq hf.level]
  rfl

theorem Disk.levelMap_log_add (s : Nat) :
    (d.step (.log (tableRecord Manifest.actionAdd level t))).levelMap s =
      if s = t.seq then some level else d.levelMap s := by
  rw [(Disk.log_clean hc hf Manifest.actionAdd).2,
    Manifest.applyRecord_add d.levelMap rfl hf.seq hf.level]
  rfl

theorem Disk.mem_recover_log_del {u : Table} :
    u ∈ (d.step (.log (tableRecord Manifest.actionDel level t))).recover ↔
      u ∈ d.recover ∧ u.seq ≠ t.seq := by
  rw [mem_recover, mem_recover, levelMap_log_del hc hf]
  by_cases h : u.seq = t.seq <;> simp [h, Disk.step]

theorem Disk.mem_recover_log_add {u : Table} :
    u ∈ (d.step (.log (tableRecord Manifest.actionAdd level t))).recover ↔
      u ∈ d.recover ∨ (u ∈ d.files ∧ u.seq = t.seq) := by
  rw [mem_recover, mem_recover, levelMap_log_add hc hf]
  by_cases h : u.seq = t.seq
  · simp only [h, if_true, Option.isSome_some, and_true, Disk.step]
    exact ⟨Or.inr, fun h => h.elim And.left id⟩
  · simp [h, Disk.step]

end

theorem Disk.mem_recover_remove {d : Disk} {seq : Nat} {u : Table} :
    u ∈ (d.step (.remove seq)).recover ↔ u ∈ d.recover ∧ u.seq ≠ seq := by
  rw [mem_recover, mem_recover]
  simp only [Disk.step, List.mem_filter, decide_eq_true_eq, Disk.levelMap]
  tauto

/-! ## Prefixes of the three phases -/

theorem Disk.run_create (outs : List Table) :
    ∀ d : Disk, d.run (outs.map DiskStep.create) = ⟨d.manifest, d.files ++ outs⟩ := by
  induction outs with
  | nil => intro d; simp [Disk.run]
  | cons t outs ih =>
    intro d
    have := ih (d.step (.create t))
    rw [List.map_cons, Disk.run, List.foldl_cons]
    rw [Disk.run] at this
    rw [this]
    simp [Disk.step]

/-- The records of the deletions, each followed by the removal of the file. -/
def deleteSteps (dels : List (Nat × Table)) : List DiskStep :=
  dels.flatMap fun x => [.log (tableRecord Manifest.actionDel x.1 x.2), .remove x.2.seq]

theorem Disk.recover_delete (dels : List (Nat × Table)) :
    ∀ (d : Disk) (n : Nat), Manifest.Clean d.manifest → (∀ x ∈ dels, Fits x.1 x.2) →
      Manifest.Clean (d.run ((deleteSteps dels).take n)).manifest ∧
        ∀ u, u ∈ (d.run ((deleteSteps dels).take n)).recover ↔
          u ∈ d.recover ∧ ∀ x ∈ dels.take ((n + 1) / 2), u.seq ≠ x.2.seq := by
  induction dels with
  | nil =>
    intro d n hc _
    exact ⟨by simpa [deleteSteps, Disk.run] using hc, by simp [deleteSteps, Disk.run]⟩
  | cons x dels ih =>
    intro d n hc hf
    have hfx := hf x (by simp)
    have hclean := (Disk.log_clean hc hfx Manifest.actionDel).1
    match n with
    | 0 => exact ⟨hc, by simp [Disk.run]⟩
    | 1 =>
      refine ⟨hclean, fun u => ?_⟩
      have := Disk.mem_recover_log_del hc hfx (u := u)
      simpa [deleteSteps, Disk.run] using this
    | n + 2 =>
      obtain ⟨hc', hrec⟩ := ih
        ((d.step (.log (tableRecord Manifest.actionDel x.1 x.2))).step (.remove x.2.seq)) n hclean
        (fun y hy => hf y (by simp [hy]))
      refine ⟨hc', fun u => (hrec u).trans ?_⟩
      have hhalf : (n + 2 + 1) / 2 = (n + 1) / 2 + 1 := by omega
      rw [Disk.mem_recover_remove, Disk.mem_recover_log_del hc hfx, hhalf]
      simp only [List.take_succ_cons, List.forall_mem_cons]
      tauto

theorem Disk.files_delete (dels : List (Nat × Table)) :
    ∀ (d : Disk) (u : Table), u ∈ (d.run (deleteSteps dels)).files ↔
      u ∈ d.files ∧ ∀ x ∈ dels, u.seq ≠ x.2.seq := by
  induction dels with
  | nil => intro d u; simp [deleteSteps, Disk.run]
  | cons x dels ih =>
    intro d u
    refine (ih ((d.step (.log (tableRecord Manifest.actionDel x.1 x.2))).step (.remove x.2.seq)) u).trans ?_
    simp only [Disk.step, List.mem_filter, decide_eq_true_eq, List.forall_mem_cons]
    tauto

theorem Disk.recover_add {level : Nat} (outs : List Table) :
    ∀ (d : Disk) (n : Nat), Manifest.Clean d.manifest → (∀ t ∈ outs, Fits level t) → ∀ u,
      u ∈ (d.run ((outs.map fun t => DiskStep.log (tableRecord Manifest.actionAdd level t)).take n)).recover ↔
        u ∈ d.recover ∨ (u ∈ d.files ∧ ∃ t ∈ outs.take n, u.seq = t.seq) := by
  induction outs with
  | nil => intro d n _ _ u; simp [Disk.run]
  | cons t outs ih =>
    intro d n hc hf u
    have hft := hf t (by simp)
    cases n with
    | zero => simp [Disk.run]
    | succ n =>
      refine (ih (d.step (.log (tableRecord Manifest.actionAdd level t))) n
        (Disk.log_clean hc hft Manifest.actionAdd).1 (fun v hv => hf v (by simp [hv])) u).trans ?_
      rw [Disk.mem_recover_log_add hc hft]
      simp only [List.take_succ_cons, List.exists_mem_cons_iff, Disk.step]
      tauto

end AkwaDB
