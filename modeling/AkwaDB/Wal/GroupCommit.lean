import AkwaDB.Lib.Faulty
import AkwaDB.Wal.File

/-!
# AkwaDB.Wal.GroupCommit

A batch of `groupCommitLoop` when the file may fail: what each writer is told, and what is in the file by
then.

One error stands for the whole batch. It is set by the first record that cannot be written and by the sync
hook and `Sync`, but not by the `Flush` between them, whose result is thrown away.

* `writeTasks_ok` — without an error all records of the batch are behind each other in the writer,
* `honest_iff` — a batch that is acknowledged is in the file unless that `Flush` falls short.
-/

namespace AkwaDB
namespace Wal

def bufferSize : Nat := 64 * 1024

/-- What `writeDirect` hands to the writer; an empty value is left out. -/
def recordPieces (ks : Nat → UInt8) (off : Nat) (r : Record) : List Bytes :=
  let encKey := crypt ks (off + walHeaderSize) r.key
  let encVal := crypt ks (off + walHeaderSize + r.key.length) r.value
  let head := header r.op encKey.length encVal.length r.expiresAt r.version r.timestamp
  [head ++ bePut 4 (crc32 (head ++ encKey ++ encVal)).toNat, encKey] ++
    if encVal = [] then [] else [encVal]

theorem flatten_recordPieces (ks : Nat → UInt8) (off : Nat) (r : Record) :
    (recordPieces ks off r).flatten = writeDirect ks off r := by
  simp only [recordPieces, writeDirect]
  split
  · rename_i hempty
    simp [hempty]
  · simp

/-- An open log. As long as no write has failed, `currentOffset` is where the next record goes. -/
structure Log where
  ks : Nat → UInt8
  writer : Faulty
  currentOffset : Nat
  counted : writer.failed = false → currentOffset = writer.content.length

/-- A `writeTask`: its record, and whether that can be encrypted. -/
structure Task where
  record : Record
  crypts : Bool
  deriving DecidableEq, Repr

/-- A batch of the loop, the first task of which was waited for, with what the sync hook and `Sync` return. -/
structure Batch where
  first : Task
  rest : List Task
  hook : Bool
  sync : Bool

def Batch.tasks (b : Batch) : List Task := b.first :: b.rest

namespace Log
variable {l : Log} {t : Task} {ts : List Task} {b : Batch}

def written (l : Log) (r : Record) : Faulty :=
  (recordPieces l.ks l.currentOffset r).foldl (Faulty.write bufferSize) l.writer

theorem written_ok {r : Record} (h : (l.written r).failed = false) :
    l.writer.failed = false ∧
      (l.written r).content = l.writer.content ++ Wal.writeDirect l.ks l.currentOffset r := by
  rw [← flatten_recordPieces]
  exact Faulty.foldl_write_ok h

theorem written_counted {r : Record} (h : (l.written r).failed = false) :
    l.currentOffset + r.size = (l.written r).content.length := by
  obtain ⟨hok, hcontent⟩ := written_ok h
  rw [hcontent, List.length_append, writeDirect_size, l.counted hok]

/-- One turn of the loop over the batch, and whether it meets an error. -/
def writeTask (l : Log) (t : Task) : Log × Bool :=
  if t.crypts = false then (l, true)
  else if h : (l.written t.record).failed = false then
    ({ l with writer := l.written t.record, currentOffset := l.currentOffset + t.record.size,
              counted := fun _ => written_counted h }, false)
  else ({ l with writer := l.written t.record, counted := fun h' => absurd h' h }, true)

/-- The loop over the batch: the offsets it sends, and whether there was an error. -/
def writeTasks : Log → List Task → Log × List Nat × Bool
  | l, [] => (l, [], false)
  | l, t :: ts =>
    let (l', err) := l.writeTask t
    if err = true then (l', 0 :: ts.map fun _ => 0, true)
    else
      let (l'', offsets, err) := l'.writeTasks ts
      (l'', (l.currentOffset + walHeaderSize + t.record.key.length) :: offsets, err)

def flush (l : Log) : Log where
  ks := l.ks
  writer := l.writer.flush
  currentOffset := l.currentOffset
  counted h := by rw [Faulty.content_flush]; exact l.counted (Faulty.flush_ok h).1

structure Result where
  offset : Nat
  err : Bool
  deriving DecidableEq, Repr

/-- A batch with the lock held: the log afterwards and what the tasks are told. -/
def commitBatch (l : Log) (b : Batch) : Log × List Result :=
  let (l', offsets, writeErr) := l.writeTasks b.tasks
  if writeErr = true then (l', offsets.map (⟨·, true⟩))
  else (l'.flush, offsets.map (⟨·, !(b.hook && b.sync)⟩))

/-- The log of a file that `Open` begins or finds: the header of a new one is in the buffer. -/
def opened (ks : Nat → UInt8) (disk head : Bytes) (fates : List Fate) : Log where
  ks := ks
  writer := ⟨⟨disk, if disk = [] then head else []⟩, false, fates⟩
  currentOffset := if disk = [] then head.length else disk.length
  counted _ := by
    by_cases hnew : disk = [] <;> simp [Faulty.content, Buffered.content, hnew]

def Has (l : Log) (t : Task) (offset : Nat) : Prop :=
  ∃ start, offset = start + walHeaderSize + t.record.key.length ∧
    (l.writer.file.disk.drop start).take t.record.size = Wal.writeDirect l.ks start t.record ∧
    (l.writer.file.disk.drop offset).take t.record.value.length = crypt l.ks offset t.record.value

/-- A task told of no error has its record in the file and its value at the offset it is told. -/
def Honest (l : Log) (b : Batch) : Prop :=
  ∀ (i : Nat) (t : Task) (res : Result), b.tasks[i]? = some t → (l.commitBatch b).2[i]? = some res →
    res.err = false → b.hook = true ∧ b.sync = true ∧ (l.commitBatch b).1.Has t res.offset

/-- When all else succeeds, the write of the `Flush` does not fall short of the buffer. -/
def Flushes (l : Log) (b : Batch) : Prop :=
  (l.writeTasks b.tasks).2.2 = false → b.hook = true → b.sync = true →
    ∀ n fates, (l.writeTasks b.tasks).1.writer.fates = .fails n :: fates →
      (l.writeTasks b.tasks).1.writer.file.buf.length ≤ n

/-! ### The loop over a batch -/

def valueOffsets : Nat → List Task → List Nat
  | _, [] => []
  | off, t :: ts => (off + walHeaderSize + t.record.key.length) :: valueOffsets (off + t.record.size) ts

theorem writeTask_ok (h : (l.writeTask t).2 = false) :
    l.writer.failed = false ∧ (l.writeTask t).1.writer.failed = false ∧ (l.writeTask t).1.ks = l.ks ∧
      (l.writeTask t).1.currentOffset = l.currentOffset + t.record.size ∧
      (l.writeTask t).1.writer.content = l.writer.content ++ Wal.writeDirect l.ks l.currentOffset t.record := by
  unfold writeTask at h ⊢
  by_cases hcrypts : t.crypts = false
  · rw [if_pos hcrypts] at h
    cases h
  · rw [if_neg hcrypts] at h ⊢
    by_cases hwritten : (l.written t.record).failed = false
    · rw [dif_pos hwritten]
      obtain ⟨hok, hcontent⟩ := written_ok hwritten
      exact ⟨hok, hwritten, rfl, rfl, hcontent⟩
    · rw [dif_neg hwritten] at h
      cases h

theorem writeTasks_cons (h : (l.writeTasks (t :: ts)).2.2 = false) :
    (l.writeTask t).2 = false ∧
      l.writeTasks (t :: ts) = (((l.writeTask t).1.writeTasks ts).1,
        (l.currentOffset + walHeaderSize + t.record.key.length) :: ((l.writeTask t).1.writeTasks ts).2.1,
        ((l.writeTask t).1.writeTasks ts).2.2) := by
  cases herr : (l.writeTask t).2 with
  | true =>
    simp only [writeTasks, herr, if_true] at h
    cases h
  | false => exact ⟨rfl, by simp [writeTasks, herr]⟩

/-- **Without an error the records are behind each other, and the offsets are those of their values.** -/
theorem writeTasks_ok (hok : l.writer.failed = false) (h : (l.writeTasks ts).2.2 = false) :
    (l.writeTasks ts).1.writer.failed = false ∧ (l.writeTasks ts).1.ks = l.ks ∧
      (l.writeTasks ts).2.1 = valueOffsets l.currentOffset ts ∧
      (l.writeTasks ts).1.writer.content =
        l.writer.content ++ writeAll l.ks l.currentOffset (ts.map (·.record)) := by
  induction ts generalizing l with
  | nil => exact ⟨hok, rfl, rfl, by simp [writeTasks, writeAll, Writer.write]⟩
  | cons t ts ih =>
    obtain ⟨hfirst, heq⟩ := writeTasks_cons h
    rw [heq] at h ⊢
    obtain ⟨-, hok', hks, hoff, hcontent⟩ := writeTask_ok hfirst
    obtain ⟨hfailed, hks', hoffsets, hall⟩ := ih hok' h
    refine ⟨hfailed, hks'.trans hks, ?_, ?_⟩
    · simp only [hoffsets, hoff, valueOffsets]
    · simp only [hall, hcontent, hks, hoff, List.map_cons, writeAll_cons, List.append_assoc]

/-! ### Records in a file -/

theorem drop_writeDirect (ks : Nat → UInt8) (off : Nat) (r : Record) :
    (Wal.writeDirect ks off r).drop (walHeaderSize + r.key.length) =
      crypt ks (off + walHeaderSize + r.key.length) r.value := by
  rw [Wal.writeDirect]
  refine List.drop_left' ?_
  simp [header, walHeaderSize]
  omega

theorem record_at (ks : Nat → UInt8) {pre : Bytes} {i offset : Nat} (ht : ts[i]? = some t)
    (hoff : (valueOffsets pre.length ts)[i]? = some offset) :
    ∃ start, offset = start + walHeaderSize + t.record.key.length ∧
      ((pre ++ writeAll ks pre.length (ts.map (·.record))).drop start).take t.record.size =
        Wal.writeDirect ks start t.record := by
  induction ts generalizing pre i with
  | nil => cases ht
  | cons u ts ih =>
    rw [List.map_cons, writeAll_cons]
    cases i with
    | zero =>
      obtain rfl : u = t := by simpa using ht
      refine ⟨pre.length, by simpa [valueOffsets] using hoff.symm, ?_⟩
      rw [List.drop_left, ← writeDirect_size ks pre.length, List.take_left]
    | succ i =>
      -- the first record becomes part of what stands before the rest
      have hlen : pre.length + u.record.size = (pre ++ Wal.writeDirect ks pre.length u.record).length := by
        rw [List.length_append, writeDirect_size]
      rw [valueOffsets, List.getElem?_cons_succ, hlen] at hoff
      obtain ⟨start, hstart, hbytes⟩ := ih (by simpa using ht) hoff
      refine ⟨start, hstart, ?_⟩
      rw [← hbytes, hlen]
      rw [List.append_assoc]

theorem has_of_content {offset i : Nat} {pre : Bytes} (ht : ts[i]? = some t)
    (hdisk : l.writer.file.disk = pre ++ writeAll l.ks pre.length (ts.map (·.record)))
    (hoff : (valueOffsets pre.length ts)[i]? = some offset) : l.Has t offset := by
  obtain ⟨start, hstart, hbytes⟩ := record_at l.ks ht hoff
  rw [← hdisk] at hbytes
  refine ⟨start, hstart, hbytes, ?_⟩
  have hvalue := congrArg (List.drop (walHeaderSize + t.record.key.length)) hbytes
  rw [drop_writeDirect, List.drop_take, List.drop_drop] at hvalue
  rw [hstart, ← hvalue]
  congr 1
  · simp only [Record.size]
    omega
  · congr 1
    omega

theorem Has.le {offset : Nat} (h : l.Has t offset) :
    offset + t.record.value.length ≤ l.writer.file.disk.length := by
  obtain ⟨start, rfl, hbytes, -⟩ := h
  have hlen := congrArg List.length hbytes
  rw [writeDirect_size, List.length_take, List.length_drop] at hlen
  simp only [Record.size, walHeaderSize] at hlen ⊢
  omega

theorem sum_le_of_ends {off n : Nat} (hne : ts ≠ [])
    (h : ∀ (i : Nat) (t : Task) (offset : Nat), ts[i]? = some t → (valueOffsets off ts)[i]? = some offset →
      offset + t.record.value.length ≤ n) :
    off + ((ts.map (·.record)).map Record.size).sum ≤ n := by
  induction ts generalizing off with
  | nil => exact absurd rfl hne
  | cons t ts ih =>
    cases ts with
    | nil =>
      have hend := h 0 t _ rfl rfl
      simp only [List.map_cons, List.map_nil, List.sum_cons, List.sum_nil, Record.size]
      omega
    | cons u ts =>
      have hrest : off + t.record.size + (((u :: ts).map (·.record)).map Record.size).sum ≤ n :=
        ih (List.cons_ne_nil u ts)
          fun i t offset ht hoff => h (i + 1) t offset (by simpa using ht) (by simpa [valueOffsets] using hoff)
      rw [List.map_cons, List.map_cons, List.sum_cons]
      omega

/-! ### What the tasks are told -/

theorem commitBatch_failed (h : (l.writeTasks b.tasks).2.2 = true) :
    l.commitBatch b = ((l.writeTasks b.tasks).1, (l.writeTasks b.tasks).2.1.map (⟨·, true⟩)) := by
  simp [commitBatch, h]

theorem commitBatch_written (h : (l.writeTasks b.tasks).2.2 = false) :
    l.commitBatch b =
      ((l.writeTasks b.tasks).1.flush, (l.writeTasks b.tasks).2.1.map (⟨·, !(b.hook && b.sync)⟩)) := by
  simp [commitBatch, h]

theorem batch_written (h : (l.writeTasks b.tasks).2.2 = false) :
    (l.writeTasks b.tasks).1.writer.failed = false ∧ (l.writeTasks b.tasks).1.ks = l.ks ∧
      (l.writeTasks b.tasks).2.1 = valueOffsets l.writer.content.length b.tasks ∧
      (l.writeTasks b.tasks).1.writer.content =
        l.writer.content ++ writeAll l.ks l.writer.content.length (b.tasks.map (·.record)) := by
  have hok : l.writer.failed = false := (writeTask_ok (writeTasks_cons h).1).1
  rw [← l.counted hok]
  exact writeTasks_ok hok h

theorem buf_flush_eq_nil (hok : l.writer.failed = false) :
    l.flush.writer.file.buf = [] ↔
      ∀ n fates, l.writer.fates = .fails n :: fates → l.writer.file.buf.length ≤ n := by
  have hbuf : l.flush.writer.file.buf = _ := Faulty.buf_flush hok
  rw [hbuf]
  cases hfates : l.writer.fates with
  | nil => simp
  | cons fate fates =>
    cases fate with
    | succeeds => simp
    | fails n => simp

theorem flush_content (l : Log) :
    l.flush.writer.file.disk ++ l.flush.writer.file.buf = l.writer.content := Faulty.content_flush l.writer

/-! ### What gets to the file -/

/-- **Acknowledgements are honest exactly when the flush that nobody looks at does not fall short.** -/
theorem honest_iff (l : Log) (b : Batch) : l.Honest b ↔ l.Flushes b := by
  cases hwritten : (l.writeTasks b.tasks).2.2 with
  | true =>
    refine iff_of_true ?_ (fun h => absurd (hwritten.symm.trans h) (by decide))
    intro i t res ht hres herr
    rw [commitBatch_failed hwritten, List.getElem?_map, Option.map_eq_some_iff] at hres
    obtain ⟨offset, -, rfl⟩ := hres
    cases herr
  | false =>
    obtain ⟨hok, hks, hoffsets, hcontent⟩ := batch_written hwritten
    have hflush := flush_content (l.writeTasks b.tasks).1
    rw [hcontent] at hflush
    rw [Flushes, Honest, commitBatch_written hwritten, hoffsets]
    constructor
    · intro hhonest _ hhook hsync
      rw [← buf_flush_eq_nil hok]
      have hall := @sum_le_of_ends b.tasks l.writer.content.length
        (l.writeTasks b.tasks).1.flush.writer.file.disk.length (List.cons_ne_nil _ _)
        fun i t offset ht hoff => (hhonest i t ⟨offset, !(b.hook && b.sync)⟩ ht
          (by rw [List.getElem?_map, hoff]; rfl) (by simp [hhook, hsync])).2.2.le
      have hlen := congrArg List.length hflush
      rw [List.length_append, List.length_append, writeAll_length] at hlen
      exact List.eq_nil_of_length_eq_zero (by omega)
    · intro hflushes i t res ht hres herr
      rw [List.getElem?_map, Option.map_eq_some_iff] at hres
      obtain ⟨offset, hoffset, rfl⟩ := hres
      obtain ⟨hhook, hsync⟩ : b.hook = true ∧ b.sync = true := by simpa using herr
      have hbuf := (buf_flush_eq_nil hok).mpr (hflushes hwritten hhook hsync)
      rw [hbuf, List.append_nil] at hflush
      refine ⟨hhook, hsync, has_of_content ht ?_ hoffset⟩
      rw [hflush]
      show _ = _ ++ writeAll (l.writeTasks b.tasks).1.ks _ _
      rw [hks]

/-- `Sync` succeeds, the write is acknowledged, and the file is empty. -/
theorem acknowledged_unwritten :
    ¬ (opened (fun _ => 0) [] [] [.fails 0]).Honest ⟨⟨⟨1, [107], [118], 0, 1, 0⟩, true⟩, [], true, true⟩ ∧
      ((opened (fun _ => 0) [] [] [.fails 0]).commitBatch
        ⟨⟨⟨1, [107], [118], 0, 1, 0⟩, true⟩, [], true, true⟩).2 = [⟨38, false⟩] ∧
      ((opened (fun _ => 0) [] [] [.fails 0]).commitBatch
        ⟨⟨⟨1, [107], [118], 0, 1, 0⟩, true⟩, [], true, true⟩).1.writer.file.disk = [] := by
  have hdisk : ((opened (fun _ => 0) [] [] [.fails 0]).commitBatch
      ⟨⟨⟨1, [107], [118], 0, 1, 0⟩, true⟩, [], true, true⟩).1.writer.file.disk = [] := by decide +kernel
  have hres : ((opened (fun _ => 0) [] [] [.fails 0]).commitBatch
      ⟨⟨⟨1, [107], [118], 0, 1, 0⟩, true⟩, [], true, true⟩).2 = [⟨38, false⟩] := by decide +kernel
  refine ⟨fun hhonest => ?_, hres, hdisk⟩
  have hle := (hhonest 0 _ ⟨38, false⟩ rfl (by rw [hres]; rfl) rfl).2.2.le
  rw [hdisk] at hle
  exact absurd hle (by decide)

end Log
end Wal
end AkwaDB
