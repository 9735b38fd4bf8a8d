import AkwaDB.Lib.Reach
import AkwaDB.Manifest.Record
import AkwaDB.Wal.Record
import Mathlib.Data.List.Sort

/-!
# AkwaDB.Wal.Restart

Opening with leftover segments, and crashes while that is going on.

`OpenEngineWithOpts` reads the MANIFEST, which it also cuts (`readManifest`), and removes the
`wal_flush_` segments whose table is listed. If there are others it reads them and `wal.log`, writes
all records to `wal.log.recover`, removes `wal.log`, renames the new file to it, and removes the
segments. An open that follows a crash starts from whatever files are left: it reads what the one
before has left of the MANIFEST, and it removes `wal.log.recover`.

- `replays_all`: after any number of crashes an open replays every write that was there at first,
  provided that no crash came between the removal of `wal.log` and the rename while `wal.log` had a
  write that no segment has, and that what is left of the MANIFEST lists none of the segments.
- `restart_loses`: either way writes may be lost otherwise.

Files are given by their intact records (`recover_write`); torn tails are cut off by `Recover`.
-/

namespace AkwaDB
namespace Wal

open Manifest (readManifest)

/-- The MANIFEST and the log files: the segments, `wal.log`, and `wal.log.recover`. -/
structure LogDisk where
  manifest : Bytes
  segments : List (Nat × List Record)
  wal : Option (List Record)
  tmp : Option (List Record)

inductive FsOp where
  /-- `Truncate`, at the end of `readManifest`. -/
  | cutManifest
  | removeTmp
  | createTmp
  | appendTmp (r : Record)
  | removeWal
  | renameTmp
  | removeSegment (seq : Nat)

namespace LogDisk

def apply (d : LogDisk) : FsOp → LogDisk
  | .cutManifest => { d with manifest := (readManifest d.manifest).2 }
  | .removeTmp => { d with tmp := none }
  | .createTmp => { d with tmp := some [] }
  | .appendTmp r => { d with tmp := d.tmp.map (· ++ [r]) }
  | .removeWal => { d with wal := none }
  | .renameTmp =>
    match d.tmp with
    | none => d
    | some rs => { d with wal := some rs, tmp := none }
  | .removeSegment seq => { d with segments := d.segments.filter fun g => decide (g.1 ≠ seq) }

/-- The table of a segment is listed. -/
def listed (manifest : Bytes) (seq : Nat) : Bool := ((readManifest manifest).1 seq).isSome

def uncommittedWALs (d : LogDisk) : List (Nat × List Record) :=
  (d.segments.filter fun g => !listed d.manifest g.1).insertionSort fun g h => g.1 ≤ h.1

/-- What an open that comes to its end replays. -/
def records (d : LogDisk) : List Record := d.uncommittedWALs.flatMap Prod.snd ++ d.wal.getD []

/-- `WriteVersion` gives a record that is written again the time of the writing. -/
def restamp (clock : Nat → Int64) (rs : List Record) : List Record :=
  rs.mapIdx fun i r => { r with timestamp := clock i }

def removeCommitted (d : LogDisk) : List FsOp :=
  (d.segments.filter fun g => listed d.manifest g.1).map fun g => .removeSegment g.1

def copyOps (clock : Nat → Int64) (d : LogDisk) : List FsOp :=
  [.removeTmp, .createTmp] ++ (restamp clock d.records).map .appendTmp

/-- What an open does to the files, in order. -/
def openOps (clock : Nat → Int64) (d : LogDisk) : List FsOp :=
  .cutManifest :: (d.removeCommitted ++
    if d.uncommittedWALs = [] then []
    else
      copyOps clock d ++ .removeWal :: .renameTmp :: d.uncommittedWALs.map fun g => .removeSegment g.1)

/-- An open that dies after `n` of its operations. -/
def crash (clock : Nat → Int64) (d : LogDisk) (n : Nat) : LogDisk :=
  ((openOps clock d).take n).foldl apply d

end LogDisk

/-- A record without its timestamp, which the replay does not read. -/
def Record.write (r : Record) : UInt8 × Bytes × Bytes × Int64 × UInt64 :=
  (r.op, r.key, r.value, r.expiresAt, r.version)

namespace LogDisk

def writes (d : LogDisk) : List (UInt8 × Bytes × Bytes × Int64 × UInt64) :=
  d.records.map Record.write

/-- The number of operations before `wal.log` is removed. -/
def untilRemoval (d : LogDisk) : Nat := d.removeCommitted.length + d.records.length + 3

/-- Until the rename, what is left of the MANIFEST has to list none of the segments; and between the
removal of `wal.log` and the rename, every write of `wal.log` has to be in a segment. -/
def Harmless (d : LogDisk) (n : Nat) : Prop :=
  d.uncommittedWALs ≠ [] → 0 < n →
    (n < d.untilRemoval + 2 → ∀ g ∈ d.uncommittedWALs, listed (readManifest d.manifest).2 g.1 = false) ∧
      (n = d.untilRemoval + 1 → ∀ r ∈ d.wal.getD [], ∃ q ∈ d.uncommittedWALs.flatMap Prod.snd, q.write = r.write)

instance (d : LogDisk) (n : Nat) : Decidable (d.Harmless n) := by
  unfold Harmless
  infer_instance

/-! ## The files after a crash -/

theorem mem_uncommittedWALs {d : LogDisk} {g : Nat × List Record} :
    g ∈ d.uncommittedWALs ↔ g ∈ d.segments ∧ listed d.manifest g.1 = false := by
  rw [uncommittedWALs, (List.perm_insertionSort _ _).mem_iff, List.mem_filter, Bool.not_eq_true']

@[simp] theorem restamp_length (clock : Nat → Int64) (rs : List Record) :
    (restamp clock rs).length = rs.length := by
  simp [restamp]

theorem restamp_writes (clock : Nat → Int64) (rs : List Record) :
    (restamp clock rs).map Record.write = rs.map Record.write := by
  refine List.ext_getElem (by simp) fun i h1 h2 => ?_
  simp [restamp, Record.write]

/-- Operations that leave `wal.log` and the segments without a table alone. -/
def Quiet (manifest : Bytes) : FsOp → Prop
  | .removeTmp | .createTmp | .appendTmp _ => True
  | .removeSegment seq => listed manifest seq = true
  | _ => False

theorem foldl_quiet {manifest : Bytes} {ops : List FsOp} (h : ∀ op ∈ ops, Quiet manifest op) (d : LogDisk) :
    (ops.foldl apply d).wal = d.wal ∧ (ops.foldl apply d).manifest = d.manifest ∧
      ∀ g ∈ d.segments, listed manifest g.1 = false → g ∈ (ops.foldl apply d).segments := by
  induction ops generalizing d with
  | nil => exact ⟨rfl, rfl, fun _ hg _ => hg⟩
  | cons op ops ih =>
    obtain ⟨hwal, hman, hseg⟩ := ih (fun o ho => h o (List.mem_cons_of_mem _ ho)) (d.apply op)
    have hop := h op List.mem_cons_self
    rw [List.foldl_cons, hwal, hman]
    cases op with
    | removeTmp | createTmp | appendTmp r => exact ⟨rfl, rfl, hseg⟩
    | removeSegment seq =>
      refine ⟨rfl, rfl, fun g hg hnot => hseg g (List.mem_filter.mpr ⟨hg, decide_eq_true ?_⟩) hnot⟩
      rintro rfl
      exact absurd (hnot.symm.trans hop) Bool.false_ne_true
    | cutManifest | removeWal | renameTmp => exact hop.elim

theorem foldl_appendTmp (rs : List Record) (d : LogDisk) (qs : List Record) (h : d.tmp = some qs) :
    ((rs.map FsOp.appendTmp).foldl apply d).tmp = some (qs ++ rs) := by
  induction rs generalizing d qs with
  | nil => simpa using h
  | cons r rs ih =>
    rw [List.map_cons, List.foldl_cons, ih (d.apply (.appendTmp r)) (qs ++ [r])]
    · simp
    · simp [apply, h]

theorem foldl_removeSegment (seqs : List (Nat × List Record)) (d : LogDisk) :
    ((seqs.map fun g => FsOp.removeSegment g.1).foldl apply d).wal = d.wal := by
  induction seqs generalizing d with
  | nil => rfl
  | cons g seqs ih =>
    rw [List.map_cons, List.foldl_cons, ih]
    rfl

section
variable (clock : Nat → Int64) (d : LogDisk)

theorem quiet_removeCommitted : ∀ op ∈ d.removeCommitted, Quiet d.manifest op := by
  intro op hop
  obtain ⟨g, hg, rfl⟩ := List.mem_map.mp hop
  exact (List.mem_filter.mp hg).2

theorem quiet_copyOps : ∀ op ∈ d.removeCommitted ++ copyOps clock d, Quiet d.manifest op := by
  intro op hop
  rcases List.mem_append.mp hop with hop | hop
  · exact quiet_removeCommitted d op hop
  · simp only [copyOps, List.mem_append, List.mem_cons, List.not_mem_nil, or_false, List.mem_map] at hop
    rcases hop with (rfl | rfl) | ⟨r, _, rfl⟩ <;> trivial

theorem copyOps_length : (d.removeCommitted ++ copyOps clock d).length + 1 = d.untilRemoval := by
  simp only [copyOps, untilRemoval, List.length_append, List.length_cons, List.length_nil, List.length_map,
    restamp_length]
  omega

theorem foldl_copyOps_tmp (e : LogDisk) :
    ((d.removeCommitted ++ copyOps clock d).foldl apply e).tmp = some (restamp clock d.records) := by
  rw [copyOps, List.foldl_append, List.foldl_append]
  exact foldl_appendTmp _ _ [] rfl

variable {d}

theorem crash_committed (h : d.uncommittedWALs = []) (n : Nat) : (d.crash clock n).wal = d.wal := by
  cases n with
  | zero => rfl
  | succ n =>
    rw [crash, openOps, if_pos h, List.append_nil, List.take_succ_cons, List.foldl_cons]
    exact (foldl_quiet (fun op hop => quiet_removeCommitted d op (List.mem_of_mem_take hop)) _).1

/-- Before the rename nothing is missing but `wal.log`; afterwards it has everything. -/
theorem crash_cases (h : d.uncommittedWALs ≠ []) {n : Nat} (hn : 0 < n) :
    (n < d.untilRemoval + 2 ∧ (d.crash clock n).manifest = (readManifest d.manifest).2 ∧
        (∀ g ∈ d.uncommittedWALs, g ∈ (d.crash clock n).segments) ∧
        (n ≠ d.untilRemoval + 1 → (d.crash clock n).wal = d.wal)) ∨
      (d.crash clock n).wal = some (restamp clock d.records) := by
  obtain ⟨k, rfl⟩ : ∃ k, n = k + 1 := ⟨n - 1, by omega⟩
  have hlen := copyOps_length clock d
  have hquiet := quiet_copyOps clock d
  have hkept : ∀ ops : List FsOp, (∀ op ∈ ops, Quiet d.manifest op) → ∀ g ∈ d.uncommittedWALs,
      g ∈ (ops.foldl apply (d.apply .cutManifest)).segments := fun ops hops g hg =>
    (foldl_quiet hops (d.apply .cutManifest)).2.2 g (mem_uncommittedWALs.mp hg).1 (mem_uncommittedWALs.mp hg).2
  rw [crash, openOps, if_neg h, ← List.append_assoc, List.take_succ_cons, List.foldl_cons]
  rcases Nat.lt_trichotomy (k + 1) (d.untilRemoval + 1) with hk | hk | hk
  · have hops : ∀ op ∈ (d.removeCommitted ++ copyOps clock d).take k, Quiet d.manifest op := fun op hop =>
      hquiet op (List.mem_of_mem_take hop)
    rw [List.take_append_of_le_length (by omega)]
    obtain ⟨hwal, hman, _⟩ := foldl_quiet hops (d.apply .cutManifest)
    exact .inl ⟨by omega, hman, hkept _ hops, fun _ => hwal⟩
  · rw [List.take_append, List.take_of_length_le (by omega), show k - _ = 1 by omega, List.foldl_append]
    obtain ⟨_, hman, _⟩ := foldl_quiet hquiet (d.apply .cutManifest)
    exact .inl ⟨by omega, hman, hkept _ hquiet, fun hne => absurd hk hne⟩
  · obtain ⟨j, hj⟩ : ∃ j, k - (d.removeCommitted ++ copyOps clock d).length = j + 2 :=
      ⟨k - (d.removeCommitted ++ copyOps clock d).length - 2, by omega⟩
    have htmp := foldl_copyOps_tmp clock d (d.apply .cutManifest)
    right
    rw [List.take_append, List.take_of_length_le (by omega), hj, List.foldl_append, List.take_succ_cons,
      List.take_succ_cons, List.foldl_cons, List.foldl_cons, ← List.map_take, foldl_removeSegment]
    generalize (d.removeCommitted ++ copyOps clock d).foldl apply (d.apply .cutManifest) = e at htmp
    simp only [apply, htmp]

end

/-! ## Writes across crashes -/

theorem mem_writes {d : LogDisk} {w : UInt8 × Bytes × Bytes × Int64 × UInt64} :
    w ∈ d.writes ↔ (∃ r ∈ d.uncommittedWALs.flatMap Prod.snd, r.write = w) ∨ ∃ r ∈ d.wal.getD [], r.write = w := by
  simp only [writes, records, List.mem_map, List.mem_append, or_and_right, exists_or]

theorem writes_crash (clock : Nat → Int64) {d : LogDisk} {n : Nat} (h : d.Harmless n) :
    d.writes ⊆ (d.crash clock n).writes := by
  intro w hw
  by_cases hne : d.uncommittedWALs = []
  · rw [mem_writes, hne] at hw
    rw [mem_writes, crash_committed clock hne]
    exact .inr (hw.resolve_left (by simp))
  rcases Nat.eq_zero_or_pos n with rfl | hn
  · exact hw
  obtain ⟨hstays, hgap⟩ := h hne hn
  rcases crash_cases clock hne hn with ⟨hlt, hman, hseg, hwal⟩ | hwal
  · have hkeep : ∀ r ∈ d.uncommittedWALs.flatMap Prod.snd, r.write ∈ (d.crash clock n).writes := by
      intro r hr
      obtain ⟨g, hg, hrg⟩ := List.mem_flatMap.mp hr
      refine mem_writes.mpr (.inl ⟨r, List.mem_flatMap.mpr ⟨g, mem_uncommittedWALs.mpr ⟨hseg g hg, ?_⟩, hrg⟩, rfl⟩)
      rw [hman]
      exact hstays hlt g hg
    rcases mem_writes.mp hw with ⟨r, hr, rfl⟩ | ⟨r, hr, rfl⟩
    · exact hkeep r hr
    · by_cases heq : n = d.untilRemoval + 1
      · obtain ⟨q, hq, hqr⟩ := hgap heq r hr
        exact hqr ▸ hkeep q hq
      · exact mem_writes.mpr (.inr ⟨r, (hwal heq).symm ▸ hr, rfl⟩)
  · refine mem_writes.mpr (.inr ?_)
    rw [hwal]
    rw [writes, ← restamp_writes clock] at hw
    exact List.mem_map.mp hw

def crashes (clock : Nat → Int64) (d : LogDisk) (ns : List Nat) : LogDisk := ns.foldl (crash clock) d

theorem writes_crashes (clock : Nat → Int64) {d : LogDisk} {ns : List Nat}
    (h : Guarded (fun d n => some (crash clock d n)) Harmless d ns) : d.writes ⊆ (d.crashes clock ns).writes := by
  induction ns generalizing d with
  | nil => exact fun _ hw => hw
  | cons n ns ih => exact fun w hw => ih (h.2 _ rfl) (writes_crash clock h.1 hw)

/-- **An open after any harmless crashes replays every write.** -/
theorem replays_all (clock : Nat → Int64) {d : LogDisk} {ns : List Nat}
    (h : Guarded (fun d n => some (crash clock d n)) Harmless d ns) :
    ∀ r ∈ d.records, ∃ q ∈ (d.crashes clock ns).records, q.write = r.write :=
  fun _ hr => List.mem_map.mp (writes_crashes clock h (List.mem_map_of_mem hr))

def putRecord (key : UInt8) (version : UInt64) : Record := ⟨opPut, [key], [118], 0, version, 0⟩

def leftover (manifest : Bytes) : LogDisk :=
  ⟨manifest, [(3, [putRecord 97 2])], some [putRecord 98 3], none⟩

/-- The first open dies while it copies, the second behind the rename. -/
theorem replays_all_twice : (leftover []).records = [putRecord 97 2, putRecord 98 3] ∧
    ∀ r ∈ (leftover []).records,
      ∃ q ∈ ((leftover []).crashes (fun _ => 0) [4, 7]).records, q.write = r.write :=
  ⟨by decide, replays_all _ (by decide)⟩

/-- Table 3 was flushed and merged into table 4: cut to the size of the last record, the first is left. -/
def mergedAway : Bytes :=
  Manifest.appendManifest (Manifest.appendManifest (Manifest.appendManifest [] Manifest.actionAdd 0 3 [97] [97])
    Manifest.actionDel 0 3 [97] [97]) Manifest.actionAdd 4 4 [97] [97]

/-- After a crash in the gap the next open removes the copy and replays the segment alone; and when what is left of
the MANIFEST lists table 3 again, it removes the segment and replays `wal.log` alone. -/
theorem restart_loses :
    (leftover []).records = [putRecord 97 2, putRecord 98 3] ∧
      ((leftover []).crash (fun _ => 0) 6).wal = none ∧
      ((leftover []).crash (fun _ => 0) 6).tmp = some [putRecord 97 2, putRecord 98 3] ∧
      ((leftover []).crashes (fun _ => 0) [6]).records = [putRecord 97 2] ∧
      (leftover mergedAway).records = [putRecord 97 2, putRecord 98 3] ∧
      ((leftover mergedAway).crashes (fun _ => 0) [4]).records = [putRecord 98 3] := by
  decide +kernel

end LogDisk
end Wal
end AkwaDB
