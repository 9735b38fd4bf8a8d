import AkwaDB.Compaction.Output
import AkwaDB.Manifest.Disk

/-!
# AkwaDB.Compaction.Job

One compaction as a sequence of steps on the disk. `compactLevel0` picks all of level 0 for the
base level and `compactLevelTable` one table for the next level; they differ in nothing else, so a
`Job` is either of them.

A crash leaves some prefix of the steps. `Job.survivors_deleting` and `Job.survivors_adding` say
what the next open finds: the tables without the first few inputs, or the tables outside the job
with the first few outputs.
-/

namespace AkwaDB

def rangesOverlap (a b : Table) : Bool :=
  decide (a.minKey ≤ b.maxKey) && decide (b.minKey ≤ a.maxKey)

theorem rangesOverlap_of_key {a b : Table} (ha : VersionSorted a.entries)
    (hb : VersionSorted b.entries) {x y : Entry} (hx : x ∈ a.entries) (hy : y ∈ b.entries)
    (hk : x.key = y.key) : rangesOverlap a b = true := by
  simp only [rangesOverlap, Bool.and_eq_true, decide_eq_true_eq]
  refine ⟨(Table.minKey_le ha hx).trans ?_, (Table.minKey_le hb hy).trans ?_⟩
  · rw [hk]
    exact Table.le_maxKey hb hy
  · rw [← hk]
    exact Table.le_maxKey ha hx

def overlapping (levels : LevelTables) (target : Nat) (picked : List Table) : List Table :=
  (levels target).filter fun t => picked.any fun p => rangesOverlap p t

/-- Keys up to this length keep every MANIFEST record below `Manifest.maxDataLen`. -/
def maxRecordKey : Nat := 5242871

structure TableStore (xxhash : Bytes → UInt64) where
  levels : LevelTables
  nextSeq : Nat
  wf : ∀ t ∈ allTables levels, t.WF xxhash
  seqs : ((allTables levels).map Table.seq).Nodup
  numbered : ∀ t ∈ allTables levels, t.seq ≤ nextSeq
  keyLen : ∀ t ∈ allTables levels, ∀ x ∈ t.entries, x.key.length ≤ maxRecordKey

/-- A compaction about to start, on a disk whose MANIFEST lists exactly the tables of the engine. -/
structure Job (xxhash : Bytes → UInt64) where
  store : TableStore xxhash
  env : DrainEnv
  fromLevel : Nat
  target : Nat
  picked : List Table
  disk : Disk
  lt : fromLevel < target
  target_lt : target < maxLevels
  picked_sub : picked.Sublist (store.levels fromLevel)
  clean : Manifest.Clean disk.manifest
  files : (disk.files.map Table.seq).Nodup
  numbered : ∀ t ∈ disk.files, t.seq ≤ store.nextSeq
  listed : ∀ s, store.nextSeq < s → disk.levelMap s = none
  live : ∀ t, t ∈ disk.recover ↔ t ∈ allTables store.levels
  counter : (drainMergedIterator xxhash env store.levels target store.nextSeq
    ((overlapping store.levels target picked ++ picked).map Table.entries)).2 < 2 ^ 64

namespace Job

variable {xxhash : Bytes → UInt64} (j : Job xxhash)

def overlaps : List Table := overlapping j.store.levels j.target j.picked

def inputs : List Table := j.overlaps ++ j.picked

def pre : List Table := allTables j.store.levels

def without (d : Nat) : List Table := j.pre.filter fun t => decide (t ∉ j.inputs.take d)

def rest : List Table := j.without j.inputs.length

def outputs : List Table :=
  (drainMergedIterator xxhash j.env j.store.levels j.target j.store.nextSeq
    (j.inputs.map Table.entries)).1

def withOutputs (a : Nat) : List Table := j.rest ++ j.outputs.take a

def post : List Table := j.rest ++ j.outputs

def deletions : List (Nat × Table) :=
  j.overlaps.map (fun t => (j.target, t)) ++ j.picked.map fun t => (j.fromLevel, t)

def steps : List DiskStep :=
  j.outputs.map DiskStep.create ++ deleteSteps j.deletions ++
    j.outputs.map fun t => .log (tableRecord Manifest.actionAdd j.target t)

/-- The tables an open finds when the process dies after `n` steps. -/
def survivors (n : Nat) : List Table := (j.disk.run (j.steps.take n)).recover

theorem deletions_tables : j.deletions.map Prod.snd = j.inputs := by
  simp [deletions, inputs, Function.comp_def]

/-! ## The tables of a job -/

variable {t u : Table}

theorem input_mem (ht : t ∈ j.inputs) : t ∈ j.pre := by
  rcases List.mem_append.mp ht with ht | ht
  · exact mem_allTables.mpr ⟨_, j.target_lt, List.mem_of_mem_filter ht⟩
  · exact mem_allTables.mpr ⟨_, Nat.lt_trans j.lt j.target_lt, j.picked_sub.subset ht⟩

theorem mem_without {d : Nat} : t ∈ j.without d ↔ t ∈ j.pre ∧ t ∉ j.inputs.take d := by
  simp [without]

theorem mem_rest : t ∈ j.rest ↔ t ∈ j.pre ∧ t ∉ j.inputs := by
  simp [rest, without]

theorem mem_withOutputs {a : Nat} :
    t ∈ j.withOutputs a ↔ t ∈ j.rest ∨ t ∈ j.outputs.take a := List.mem_append

theorem eq_of_seq (ht : t ∈ j.pre) (hu : u ∈ j.pre) (h : t.seq = u.seq) : t = u :=
  List.inj_on_of_nodup_map j.store.seqs ht hu h

theorem iters_sorted : ∀ l ∈ j.inputs.map Table.entries, VersionSorted l := by
  intro l hl
  obtain ⟨t, ht, rfl⟩ := List.mem_map.mp hl
  exact (j.store.wf t (j.input_mem ht)).sorted

theorem mem_iters {x : Entry} :
    x ∈ (j.inputs.map Table.entries).flatten ↔ ∃ t ∈ j.inputs, x ∈ t.entries := by
  simp only [List.mem_flatten, List.mem_map, exists_exists_and_eq_and]

theorem output_wf (ht : t ∈ j.outputs) :
    t.WF xxhash ∧ j.store.nextSeq < t.seq ∧ t.seq < 2 ^ 64 := by
  obtain ⟨hwf, _, h1, h2⟩ := drain_wf j.iters_sorted ht
  exact ⟨hwf, h1, Nat.lt_of_le_of_lt h2 j.counter⟩

theorem output_entry (ht : t ∈ j.outputs) {y : Entry} (hy : y ∈ t.entries) :
    ∃ u ∈ j.inputs, ∃ x ∈ u.entries, y = (x.compacted j.env.now).stored := by
  obtain ⟨x, hx, rfl⟩ := drain_sound j.iters_sorted ht hy
  obtain ⟨u, hu, hxu⟩ := j.mem_iters.mp hx
  exact ⟨u, hu, x, hxu, rfl⟩

theorem eq_of_output_seq (ht : t ∈ j.outputs) (hu : u ∈ j.outputs) (h : t.seq = u.seq) : t = u := by
  have hpw := @drain_pairwise j.env j.store.levels j.target _ xxhash j.store.nextSeq j.iters_sorted
  have hnodup : (j.outputs.map Table.seq).Nodup :=
    List.pairwise_map.mpr (hpw.imp fun h => Nat.ne_of_lt h.1)
  exact List.inj_on_of_nodup_map hnodup ht hu h

theorem output_unique (ht : t ∈ j.outputs) (hu : u ∈ j.outputs) {x y : Entry} (hx : x ∈ t.entries)
    (hy : y ∈ u.entries) (hk : x.key = y.key) : t = u := by
  obtain ⟨a, ha, rfl⟩ := List.mem_iff_getElem.mp ht
  obtain ⟨b, hb, rfl⟩ := List.mem_iff_getElem.mp hu
  have hpw := List.pairwise_iff_getElem.mp
    (@drain_pairwise j.env j.store.levels j.target _ xxhash j.store.nextSeq j.iters_sorted)
  rcases Nat.lt_trichotomy a b with h | rfl | h
  · exact absurd hk ((hpw a b ha hb h).2 x hx y hy).ne
  · rfl
  · exact absurd hk ((hpw b a hb ha h).2 y hy x hx).ne'

/-! ## What an open finds -/

theorem minKey_fits (hwf : t.WF xxhash) (hlen : ∀ x ∈ t.entries, x.key.length ≤ maxRecordKey)
    {level : Nat} (hl : level < maxLevels) (hseq : t.seq < 2 ^ 64) : Fits level t := by
  obtain ⟨x, hx⟩ : ∃ x, t.entries.head? = some x := by
    cases h : t.entries with
    | nil => exact absurd h hwf.ne_nil
    | cons x xs => exact ⟨x, rfl⟩
  obtain ⟨y, hy⟩ : ∃ y, t.entries.getLast? = some y := by
    cases h : t.entries.getLast? with
    | none => exact absurd (List.getLast?_eq_none_iff.mp h) hwf.ne_nil
    | some y => exact ⟨y, rfl⟩
  have h1 := hlen x (List.mem_of_mem_head? hx)
  have h2 := hlen y (List.mem_of_getLast? hy)
  refine ⟨Nat.lt_trans hl (by decide), hseq, ?_⟩
  simp only [Table.minKey, Table.maxKey, hx, hy, Option.map_some, Option.getD_some,
    maxRecordKey, Manifest.maxDataLen] at *
  omega

theorem deletion_fits {x : Nat × Table} (hx : x ∈ j.deletions) : Fits x.1 x.2 := by
  have hin : x.2 ∈ j.inputs := by
    rw [← j.deletions_tables]
    exact List.mem_map_of_mem hx
  have hpre := j.input_mem hin
  have hl : x.1 < maxLevels := by
    rcases List.mem_append.mp hx with hx | hx
    · obtain ⟨t, _, rfl⟩ := List.mem_map.mp hx
      exact j.target_lt
    · obtain ⟨t, _, rfl⟩ := List.mem_map.mp hx
      exact Nat.lt_trans j.lt j.target_lt
  have hcount : j.store.nextSeq < 2 ^ 64 := by
    obtain ⟨chunks, _, _, heq⟩ := @drain_eq_buildTables xxhash j.env j.store.levels j.target
      j.store.nextSeq (j.inputs.map Table.entries)
    have := j.counter
    change (drainMergedIterator xxhash j.env j.store.levels j.target j.store.nextSeq
      (j.inputs.map Table.entries)).2 < 2 ^ 64 at this
    rw [heq] at this
    simp only at this
    omega
  exact minKey_fits (j.store.wf _ hpre) (j.store.keyLen _ hpre) hl
    (Nat.lt_of_le_of_lt (j.store.numbered _ hpre) hcount)

theorem output_fits (ht : t ∈ j.outputs) : Fits j.target t := by
  obtain ⟨hwf, _, hseq⟩ := j.output_wf ht
  refine minKey_fits hwf ?_ j.target_lt hseq
  intro y hy
  obtain ⟨u, hu, x, hx, rfl⟩ := j.output_entry ht hy
  simpa using j.store.keyLen u (j.input_mem hu) x hx

theorem mem_recover_created (outs : List Table) (hsub : outs.Sublist j.outputs) (u : Table) :
    u ∈ (Disk.mk j.disk.manifest (j.disk.files ++ outs)).recover ↔ u ∈ j.pre := by
  rw [Disk.mem_recover, List.mem_append]
  refine Iff.trans ?_ (j.live u)
  rw [Disk.mem_recover]
  constructor
  · rintro ⟨hu | hu, hs⟩
    · exact ⟨hu, hs⟩
    · have := j.listed u.seq (j.output_wf (hsub.subset hu)).2.1
      change (j.disk.levelMap u.seq).isSome = true at hs
      rw [this] at hs
      cases hs
  · rintro ⟨hu, hs⟩
    exact ⟨Or.inl hu, hs⟩

theorem seq_ne_iff (hu : u ∈ j.pre) (m : Nat) :
    (∀ x ∈ j.deletions.take m, u.seq ≠ x.2.seq) ↔ u ∉ j.inputs.take m := by
  have htake : j.inputs.take m = (j.deletions.take m).map Prod.snd := by
    rw [List.map_take, j.deletions_tables]
  rw [htake]
  constructor
  · intro h hmem
    obtain ⟨x, hx, rfl⟩ := List.mem_map.mp hmem
    exact h x hx rfl
  · intro h x hx hseq
    have hxin : x.2 ∈ j.inputs := by
      rw [← j.deletions_tables]
      exact List.mem_map_of_mem (List.mem_of_mem_take hx)
    rw [j.eq_of_seq hu (j.input_mem hxin) hseq] at h
    exact h (List.mem_map_of_mem hx)

theorem recover_deleting (outs : List Table) (hsub : outs.Sublist j.outputs) (n : Nat) :
    Manifest.Clean ((Disk.mk j.disk.manifest (j.disk.files ++ outs)).run
        ((deleteSteps j.deletions).take n)).manifest ∧
      ∀ u, u ∈ ((Disk.mk j.disk.manifest (j.disk.files ++ outs)).run
        ((deleteSteps j.deletions).take n)).recover ↔ u ∈ j.without ((n + 1) / 2) := by
  obtain ⟨hclean, hrec⟩ := Disk.recover_delete j.deletions
    ⟨j.disk.manifest, j.disk.files ++ outs⟩ n j.clean (fun x hx => j.deletion_fits hx)
  refine ⟨hclean, fun u => ?_⟩
  rw [hrec, j.mem_recover_created outs hsub, mem_without]
  constructor
  · rintro ⟨hu, hx⟩
    exact ⟨hu, (j.seq_ne_iff hu _).mp hx⟩
  · rintro ⟨hu, hx⟩
    exact ⟨hu, (j.seq_ne_iff hu _).mpr hx⟩

theorem run_take (n : Nat) :
    j.disk.run (j.steps.take n) =
      ((Disk.mk j.disk.manifest (j.disk.files ++ j.outputs.take n)).run
        ((deleteSteps j.deletions).take (n - j.outputs.length))).run
          ((j.outputs.map fun t => DiskStep.log (tableRecord Manifest.actionAdd j.target t)).take
            (n - (j.outputs.length + (deleteSteps j.deletions).length))) := by
  rw [steps, List.take_append, List.take_append, Disk.run_append, Disk.run_append, ← List.map_take,
    Disk.run_create, List.length_append, List.length_map]

theorem deleteSteps_length (dels : List (Nat × Table)) :
    (deleteSteps dels).length = dels.length * 2 := by
  induction dels with
  | nil => rfl
  | cons x dels ih =>
    simp only [deleteSteps, List.flatMap_cons, List.length_append, List.length_cons,
      List.length_nil] at ih ⊢
    omega

theorem without_of_le {d : Nat} (h : j.inputs.length ≤ d) : j.without d = j.rest := by
  rw [rest, without, without, List.take_of_length_le h, List.take_length]

theorem survivors_deleting {n : Nat} (hn : n ≤ j.outputs.length + j.inputs.length * 2) (t : Table) :
    t ∈ j.survivors n ↔ t ∈ j.without ((n - j.outputs.length + 1) / 2) := by
  have hlen := deleteSteps_length j.deletions
  rw [← List.length_map (f := Prod.snd), j.deletions_tables] at hlen
  have hzero : n - (j.outputs.length + (deleteSteps j.deletions).length) = 0 := by omega
  rw [survivors, run_take, hzero, List.take_zero, Disk.run_nil]
  exact (j.recover_deleting _ (List.take_sublist n j.outputs) _).2 t

theorem survivors_adding {n : Nat} (hn : j.outputs.length + j.inputs.length * 2 ≤ n) (t : Table) :
    t ∈ j.survivors n ↔
      t ∈ j.withOutputs (n - (j.outputs.length + j.inputs.length * 2)) := by
  have hlen := deleteSteps_length j.deletions
  rw [← List.length_map (f := Prod.snd), j.deletions_tables] at hlen
  have htake : j.outputs.take n = j.outputs := List.take_of_length_le (by omega)
  have hfull : (deleteSteps j.deletions).take (n - j.outputs.length) = deleteSteps j.deletions :=
    List.take_of_length_le (by omega)
  obtain ⟨hclean, hrec⟩ := j.recover_deleting _ (List.take_sublist n j.outputs) (n - j.outputs.length)
  rw [htake, hfull] at hclean hrec
  rw [survivors, run_take, htake, hfull,
    Disk.recover_add j.outputs _ _ hclean (fun u hu => j.output_fits hu), hrec,
    j.without_of_le (by omega), Disk.files_delete, hlen, mem_withOutputs]
  refine or_congr Iff.rfl ?_
  constructor
  · rintro ⟨⟨hfile, _⟩, u, hu, hseq⟩
    have huo := List.mem_of_mem_take hu
    have hnew := (j.output_wf huo).2.1
    rcases List.mem_append.mp hfile with ht | ht
    · have := j.numbered t ht
      omega
    · rw [eq_of_output_seq j ht huo hseq]
      exact hu
  · intro ht
    have hto := List.mem_of_mem_take ht
    refine ⟨⟨List.mem_append_right _ hto, ?_⟩, t, ht, rfl⟩
    intro x hx hseq
    have hin : x.2 ∈ j.inputs := by
      rw [← j.deletions_tables]
      exact List.mem_map_of_mem hx
    have h1 := j.store.numbered _ (j.input_mem hin)
    have h2 := (j.output_wf hto).2.1
    omega

end Job
end AkwaDB
