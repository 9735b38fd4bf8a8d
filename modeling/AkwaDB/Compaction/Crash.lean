import AkwaDB.Compaction.Job

/-!
# AkwaDB.Compaction.Crash

What a crash in the middle of a compaction leaves of the keys.

The inputs are logged as deleted before the outputs are logged as added, so a crash in between
loses every key whose newest version was in an input. `crashAtomic_iff` makes that exact. A crash
is harmless at every point when, for every number of inputs, the tables without the first so many
inputs show the same live keys as all tables do. The one other way is a compaction that is not
invisible even when it completes.
-/

namespace AkwaDB

def HoldsEntry (S : List Table) (x : Entry) : Prop := ∃ t ∈ S, x ∈ t.entries

def NewestIn (S : List Table) (x : Entry) : Prop :=
  HoldsEntry S x ∧ ∀ y, HoldsEntry S y → y.key = x.key → y.version ≤ x.version

def LiveIn (now : Int) (S : List Table) (x : Entry) : Prop := NewestIn S x ∧ x.dead now = false

/-- The tables show the same keys with the same newest versions. -/
def SameLive (now : Int) (S T : List Table) : Prop := ∀ x, LiveIn now S x ↔ LiveIn now T x

theorem HoldsEntry.mono {S T : List Table} (h : ∀ t ∈ S, t ∈ T) {x : Entry}
    (hx : HoldsEntry S x) : HoldsEntry T x := by
  obtain ⟨t, ht, hxt⟩ := hx
  exact ⟨t, h t ht, hxt⟩

theorem NewestIn.anti {S T : List Table} (h : ∀ t ∈ S, t ∈ T) {x : Entry} (hx : NewestIn T x)
    (hS : HoldsEntry S x) : NewestIn S x :=
  ⟨hS, fun y hy hk => hx.2 y (hy.mono h) hk⟩

theorem sameLive_of_mem_iff {now : Int} {S T : List Table} (h : ∀ t, t ∈ S ↔ t ∈ T) :
    SameLive now S T := by
  intro x
  have hST : ∀ t ∈ S, t ∈ T := fun t => (h t).mp
  have hTS : ∀ t ∈ T, t ∈ S := fun t => (h t).mpr
  exact ⟨fun hx => ⟨hx.1.anti hTS (hx.1.1.mono hST), hx.2⟩,
    fun hx => ⟨hx.1.anti hST (hx.1.1.mono hTS), hx.2⟩⟩

theorem SameLive.symm {now : Int} {S T : List Table} (h : SameLive now S T) : SameLive now T S :=
  fun x => (h x).symm

theorem SameLive.trans {now : Int} {S T U : List Table} (h : SameLive now S T)
    (h' : SameLive now T U) : SameLive now S U := fun x => (h x).trans (h' x)

namespace Job

variable {xxhash : Bytes → UInt64} (j : Job xxhash)

/-- No live key is lost, and everything is as before the compaction or as after it. -/
def Safe (S : List Table) : Prop :=
  (∀ x, LiveIn j.env.now j.pre x → LiveIn j.env.now S x) ∧
    (SameLive j.env.now S j.pre ∨ SameLive j.env.now S j.post)

def CrashAtomic : Prop := ∀ n, j.Safe (j.survivors n)

theorem Safe.congr {S T : List Table} (h : ∀ t, t ∈ S ↔ t ∈ T) (hS : j.Safe S) : j.Safe T := by
  have hST : SameLive j.env.now T S := (sameLive_of_mem_iff h).symm
  refine ⟨fun x hx => (hST x).mpr (hS.1 x hx), hS.2.imp hST.trans hST.trans⟩

theorem Safe.of_sameLive {S : List Table} (h : SameLive j.env.now S j.pre) : j.Safe S :=
  ⟨fun x hx => (h x).mpr hx, Or.inl h⟩

theorem rest_sub {t : Table} (ht : t ∈ j.rest) : t ∈ j.pre := (j.mem_rest.mp ht).1

theorem holds_pre {x : Entry} :
    HoldsEntry j.pre x ↔ HoldsEntry j.rest x ∨ HoldsEntry j.inputs x := by
  constructor
  · rintro ⟨t, ht, hx⟩
    by_cases hin : t ∈ j.inputs
    · exact Or.inr ⟨t, hin, hx⟩
    · exact Or.inl ⟨t, j.mem_rest.mpr ⟨ht, hin⟩, hx⟩
  · rintro (h | h)
    · exact h.mono fun t => j.rest_sub
    · exact h.mono fun t => j.input_mem

theorem holds_withOutputs {a : Nat} {x : Entry} :
    HoldsEntry (j.withOutputs a) x ↔ HoldsEntry j.rest x ∨ HoldsEntry (j.outputs.take a) x := by
  constructor
  · rintro ⟨t, ht, hx⟩
    exact (j.mem_withOutputs.mp ht).imp (fun h => ⟨t, h, hx⟩) (fun h => ⟨t, h, hx⟩)
  · rintro (⟨t, ht, hx⟩ | ⟨t, ht, hx⟩)
    · exact ⟨t, j.mem_withOutputs.mpr (Or.inl ht), hx⟩
    · exact ⟨t, j.mem_withOutputs.mpr (Or.inr ht), hx⟩

theorem output_version_le {x y : Entry} (hx : NewestIn j.pre x) (hy : HoldsEntry j.outputs y)
    (hk : y.key = x.key) : y.version ≤ x.version := by
  obtain ⟨t, ht, hyt⟩ := hy
  obtain ⟨u, hu, z, hz, rfl⟩ := j.output_entry ht hyt
  have := hx.2 z ⟨u, j.input_mem hu, hz⟩ (by simpa using hk)
  simpa using this

theorem newest_input_of_output {t : Table} (ht : t ∈ j.outputs) {x : Entry} (hx : x ∈ t.entries)
    (hlive : x.dead j.env.now = false) (hmax : ∀ y ∈ t.entries, y.key = x.key → y.version ≤ x.version) :
    NewestIn j.inputs x := by
  obtain ⟨u, hu, z, hz, rfl⟩ := j.output_entry ht hx
  have hzlive : z.dead j.env.now = false := by
    rwa [Entry.compacted_dead z (le_refl _)] at hlive
  rw [Entry.compacted_of_live hzlive] at hx hmax ⊢
  refine ⟨⟨u, hu, hz⟩, ?_⟩
  rintro y ⟨v, hv, hyv⟩ hk
  -- the newest input version of the key was kept next to `z`
  have hyl : y ∈ (j.inputs.map Table.entries).flatten := j.mem_iters.mpr ⟨v, hv, hyv⟩
  obtain ⟨w, hw⟩ : ∃ w, newest Entry.version (Entry.hits z.key fun _ => true)
      (j.inputs.map Table.entries).flatten = some w :=
    newest_isSome Entry.version hyl (by simp [hk])
  have hw' := newest_spec hw
  have hwk : w.key = z.key := (Entry.hits_iff.mp hw'.pass).1
  have hwmax : ∀ e ∈ (j.inputs.map Table.entries).flatten, e.key = w.key → e.version ≤ w.version :=
    fun e he hek => hw'.max e he (by simp [hek, hwk])
  obtain ⟨w', hw'l, hw'k, hw'v, hkeep⟩ :=
    @keptGroup_of_visible j.env j.store.levels j.target _ j.iters_sorted w hw'.mem
      (fun e he hek hlt => absurd (hwmax e he hek) (Nat.not_le.mpr hlt))
  obtain ⟨kept, hkept, hall, c, hc, hcz⟩ := drain_group j.iters_sorted ht hx
  have hck : c.key = z.key := by rw [hcz]; simp
  rcases hkeep with ⟨kept', hkept', hwm⟩ | ⟨_, _, hdrop⟩
  · have hsame := keptGroups_unique j.iters_sorted hkept' hkept hwm hc
      (by simp [hw'k, hwk, hck])
    rw [hsame] at hwm
    have hle := hmax _ (hall _ hwm) (by simp [hw'k, hwk])
    have hyw := hwmax y hyl (hk.trans hwk.symm)
    simp only [Entry.stored_version, Entry.compacted_version, hw'v] at hle
    omega
  · exact absurd (hck.trans hwk.symm) (hdrop kept hkept c hc)

theorem sameLive_withOutputs (h : SameLive j.env.now j.rest j.pre) (a : Nat) :
    SameLive j.env.now (j.withOutputs a) j.pre := by
  intro x
  constructor
  · rintro ⟨hx, hlive⟩
    rcases j.holds_withOutputs.mp hx.1 with hr | ⟨t, ht, hxt⟩
    · refine (h x).mp ⟨hx.anti (fun t ht => ?_) hr, hlive⟩
      exact j.mem_withOutputs.mpr (Or.inl ht)
    · have hto := List.mem_of_mem_take ht
      have hin := j.newest_input_of_output hto hxt hlive (fun y hy =>
        hx.2 y ⟨t, j.mem_withOutputs.mpr (Or.inr ht), hy⟩)
      refine ⟨⟨j.holds_pre.mpr (Or.inr hin.1), ?_⟩, hlive⟩
      intro y hy hk
      rcases j.holds_pre.mp hy with hy | hy
      · exact hx.2 y (j.holds_withOutputs.mpr (Or.inl hy)) hk
      · exact hin.2 y hy hk
  · intro hx
    have hr := (h x).mpr hx
    refine ⟨⟨j.holds_withOutputs.mpr (Or.inl hr.1.1), ?_⟩, hx.2⟩
    intro y hy hk
    rcases j.holds_withOutputs.mp hy with hy | hy
    · exact hr.1.2 y hy hk
    · exact j.output_version_le hx.1 (hy.mono fun t => List.mem_of_mem_take) hk

theorem sameLive_withOutputs_post (h : SameLive j.env.now j.rest j.post) (a : Nat) :
    SameLive j.env.now (j.withOutputs a) j.post := by
  have hsub : ∀ t ∈ j.withOutputs a, t ∈ j.post := by
    intro t ht
    rcases j.mem_withOutputs.mp ht with ht | ht
    · exact List.mem_append_left _ ht
    · exact List.mem_append_right _ (List.mem_of_mem_take ht)
  intro x
  constructor
  · rintro ⟨hx, hlive⟩
    rcases j.holds_withOutputs.mp hx.1 with hr | ⟨t, ht, hxt⟩
    · exact (h x).mp ⟨hx.anti (fun t ht => j.mem_withOutputs.mpr (Or.inl ht)) hr, hlive⟩
    · refine ⟨⟨hx.1.mono hsub, ?_⟩, hlive⟩
      rintro y ⟨u, hu, hy⟩ hk
      rcases List.mem_append.mp hu with hu | hu
      · exact hx.2 y (j.holds_withOutputs.mpr (Or.inl ⟨u, hu, hy⟩)) hk
      · -- all versions of the key are in one output, and that one is listed
        rw [j.output_unique hu (List.mem_of_mem_take ht) hy hxt hk] at hy
        exact hx.2 y (j.holds_withOutputs.mpr (Or.inr ⟨t, ht, hy⟩)) hk
  · intro hx
    have hr := (h x).mpr hx
    exact ⟨hx.1.anti hsub (j.holds_withOutputs.mpr (Or.inl hr.1.1)), hx.2⟩

theorem post_eq_withOutputs : j.post = j.withOutputs j.outputs.length := by
  rw [post, withOutputs, List.take_length]

theorem without_of_crashAtomic (h : j.CrashAtomic) (d : Nat) : j.Safe (j.without d) := by
  rcases Nat.le_total d j.inputs.length with hd | hd
  · refine Safe.congr j ?_ (h (j.outputs.length + d * 2))
    intro t
    have := j.survivors_deleting (n := j.outputs.length + d * 2) (by omega) t
    rwa [show (j.outputs.length + d * 2 - j.outputs.length + 1) / 2 = d by omega] at this
  · rw [j.without_of_le hd]
    refine Safe.congr j ?_ (h (j.outputs.length + j.inputs.length * 2))
    intro t
    have := j.survivors_adding (Nat.le_refl (j.outputs.length + j.inputs.length * 2)) t
    rw [this, j.mem_withOutputs]
    simp

/-- **A compaction is crash-atomic exactly when deleting its inputs one by one is invisible**, or
when the compaction is itself visible and each partial deletion looks like before or after it. -/
theorem crashAtomic_iff :
    j.CrashAtomic ↔
      (∀ d, SameLive j.env.now (j.without d) j.pre) ∨
        (¬ SameLive j.env.now j.post j.pre ∧ ∀ d, j.Safe (j.without d)) := by
  constructor
  · intro h
    have hw := j.without_of_crashAtomic h
    by_cases hpost : SameLive j.env.now j.post j.pre
    · exact Or.inl fun d => (hw d).2.elim id fun hp => hp.trans hpost
    · exact Or.inr ⟨hpost, hw⟩
  · intro h n
    rcases Nat.le_total n (j.outputs.length + j.inputs.length * 2) with hn | hn
    · refine Safe.congr j (fun t => (j.survivors_deleting hn t).symm) ?_
      exact h.elim (fun h => Safe.of_sameLive j (h _)) (fun h => h.2 _)
    · refine Safe.congr j (fun t => (j.survivors_adding hn t).symm) ?_
      rcases h with h | ⟨hpost, h⟩
      · exact Safe.of_sameLive j (j.sameLive_withOutputs (h _) _)
      · have hrest := h j.inputs.length
        rcases hrest.2 with hr | hr
        · -- then the finished compaction would be invisible as well
          rw [j.post_eq_withOutputs] at hpost
          exact absurd (j.sameLive_withOutputs hr _) hpost
        · have hw := j.sameLive_withOutputs_post hr (n - (j.outputs.length + j.inputs.length * 2))
          refine ⟨fun x hx => (hw x).mpr ((hr x).mp (hrest.1 x hx)), Or.inr hw⟩

end Job

/-! ## A lost key -/

section
open Manifest (actionAdd)

def zeroHash : Bytes → UInt64 := fun _ => 0

def soleEntry : Entry := ⟨[107], [0, 118], false, 0, 2⟩

def soleTable : Table := ⟨1, 0, [[soleEntry]], Filter.newFilter zeroHash [[107]], 0⟩

def soleLevels : LevelTables := fun lvl => if lvl = 0 then [soleTable] else []

def soleDisk : Disk := Disk.step ⟨[], [soleTable]⟩ (.log (tableRecord actionAdd 0 soleTable))

theorem soleTable_wf : soleTable.WF zeroHash := by
  have h : Table.createAtLevel zeroHash 0 1 0 [soleEntry] = some soleTable := by decide +kernel
  exact (Table.createAtLevel_wf (List.pairwise_singleton _ _) (by simp) h).1

theorem soleLevels_tables : allTables soleLevels = [soleTable] := rfl

theorem soleTable_fits : Fits 0 soleTable := ⟨by decide, by decide, by decide +kernel⟩

theorem emptyManifest_clean : Manifest.Clean [] := ⟨[], by simp, rfl⟩

theorem soleDisk_levelMap (s : Nat) : soleDisk.levelMap s = if s = 1 then some 0 else none :=
  Disk.levelMap_log_add (d := ⟨[], [soleTable]⟩) emptyManifest_clean soleTable_fits s

def soleJob : Job zeroHash where
  store :=
    { levels := soleLevels
      nextSeq := 1
      wf := by
        intro t ht
        rw [soleLevels_tables, List.mem_singleton] at ht
        rw [ht]
        exact soleTable_wf
      seqs := by decide +kernel
      numbered := by decide +kernel
      keyLen := by decide +kernel }
  env := ⟨0, 2, 2, 0⟩
  fromLevel := 0
  target := 4
  picked := [soleTable]
  disk := soleDisk
  lt := by decide
  target_lt := by decide
  picked_sub := List.Sublist.refl _
  clean := (Disk.log_clean (d := ⟨[], [soleTable]⟩) emptyManifest_clean soleTable_fits actionAdd).1
  files := by decide +kernel
  numbered := by decide +kernel
  listed := by
    intro s hs
    have hs : 1 < s := hs
    rw [soleDisk_levelMap, if_neg (by omega)]
  live := by
    intro t
    rw [Disk.mem_recover, soleDisk_levelMap, soleLevels_tables]
    constructor
    · exact fun h => h.1
    · intro h
      refine ⟨h, ?_⟩
      rw [List.mem_singleton.mp h]
      rfl
  counter := by decide +kernel

/-- The process dies behind the record of the deletion: the next open finds no table. -/
theorem soleJob_loses_key : soleJob.survivors 2 = [] ∧ ¬ soleJob.CrashAtomic := by
  have hnone : soleJob.survivors 2 = [] := by decide +kernel
  refine ⟨hnone, fun h => ?_⟩
  have hlive : LiveIn 0 soleJob.pre soleEntry := by
    refine ⟨⟨⟨soleTable, by simp [Job.pre, soleJob, soleLevels_tables], by simp [soleTable, Table.entries]⟩, ?_⟩, rfl⟩
    rintro y ⟨t, ht, hy⟩ _
    have ht' : t = soleTable := List.mem_singleton.mp ht
    rw [ht'] at hy
    rw [List.mem_singleton.mp hy]
  obtain ⟨⟨⟨t, ht, _⟩, _⟩, _⟩ := (h 2).1 soleEntry hlive
  rw [hnone] at ht
  cases ht

end
end AkwaDB
