import AkwaDB.Wal.Record

/-!
# AkwaDB.Wal.File

The log as a file that is appended to and cut back, when either may fail half-way.

The log counts the bytes it has appended (`currentOffset`) and never asks the file. `WriteVersion`
is called under a lock, so a record is written, flushed and synced before the next one comes. The
writer may refuse a record when some of its bytes have already reached the file; then the count stays
behind. The loop that commits ignores the error of the flush, so a record may also be counted
without having reached the file; then the count runs ahead.

`recovered` is the log that `Recover` leaves: the file behind its last whole record, and the count there.
-/

namespace AkwaDB
namespace Wal

/-- What becomes of one append. `reached` is the number of bytes that get to the file. -/
inductive Append where
  /-- The record was counted; the sync hook or the sync of the file may still report an error. -/
  | written (reached : Nat) (failed : Bool)
  /-- The writer reported an error, so not all of the record is in the file. -/
  | refused (reached : Nat)
  deriving DecidableEq, Repr

def Append.Whole (n : Nat) : Append → Prop
  | written reached _ => n ≤ reached
  | refused _ => False

/-- The file, once the header of `start` bytes has been flushed to it, and the count. -/
structure WalFile (start : Nat) where
  file : Bytes
  currentOffset : Nat
  start_le_length : start ≤ file.length
  start_le_offset : start ≤ currentOffset

namespace WalFile
variable {start : Nat}

/-- `WriteVersion`: whether it returns an error, and the file after it. -/
def writeVersion (ks : Nat → UInt8) (o : Append) (w : WalFile start) (r : Record) :
    Bool × WalFile start :=
  let bs := writeDirect ks w.currentOffset r
  have hlen (cs : Bytes) : start ≤ (w.file ++ cs).length := by
    rw [List.length_append]
    exact Nat.le_add_right_of_le w.start_le_length
  match o with
  | .written reached failed =>
    (failed, ⟨w.file ++ bs.take reached, w.currentOffset + bs.length, hlen _,
      Nat.le_add_right_of_le w.start_le_offset⟩)
  | .refused reached =>
    (true, ⟨w.file ++ bs.dropLast.take reached, w.currentOffset, hlen _, w.start_le_offset⟩)

/-- A file of `n` bytes: cut, or filled up with zeros. -/
def resize (n : Nat) (file : Bytes) : Bytes := file.take n ++ List.replicate (n - file.length) 0

@[simp] theorem resize_length (n : Nat) (file : Bytes) : (resize n file).length = n := by
  simp only [resize, List.length_append, List.length_take, List.length_replicate]
  omega

def truncateTo (w : WalFile start) (n : Nat) (h : start ≤ n) : WalFile start :=
  ⟨resize n w.file, n, by rwa [resize_length], h⟩

def records (ks : Nat → UInt8) (w : WalFile start) : List Record := (recover ks start w.file).1

def readable (ks : Nat → UInt8) (w : WalFile start) : Nat := (recover ks start w.file).2.length

end WalFile

def Record.size (r : Record) : Nat := walHeaderSize + r.key.length + r.value.length

theorem writeDirect_size (ks : Nat → UInt8) (off : Nat) (r : Record) :
    (writeDirect ks off r).length = r.size := writeDirect_length ks off r

theorem writeAll_cons (ks : Nat → UInt8) (off : Nat) (r : Record) (rs : List Record) :
    writeAll ks off (r :: rs) = writeDirect ks off r ++ writeAll ks (off + r.size) rs := by
  rw [← writeDirect_size ks off r]
  rfl

theorem writeAll_length (ks : Nat → UInt8) (off : Nat) (rs : List Record) :
    (writeAll ks off rs).length = (rs.map Record.size).sum := by
  induction rs generalizing off with
  | nil => rfl
  | cons r rs ih => rw [writeAll_cons, List.length_append, writeDirect_size, ih, List.map_cons, List.sum_cons]

namespace WalFile
variable {start : Nat}

theorem writeVersion_offset {ks : Nat → UInt8} {o : Append} {w : WalFile start} {r : Record} {n : Nat}
    (h : o.Whole n) : (w.writeVersion ks o r).2.currentOffset = w.currentOffset + r.size := by
  cases o with
  | written reached failed => exact congrArg (w.currentOffset + ·) (writeDirect_size ks w.currentOffset r)
  | refused reached => cases h

theorem readable_eq (ks : Nat → UInt8) (w : WalFile start) :
    w.readable ks = start + (format ks).reader.consumed start (w.file.drop start) := by
  have hle := (format ks).reader.consumed_le start (w.file.drop start)
  have hstart := w.start_le_length
  rw [List.length_drop] at hle
  rw [readable, recover, List.length_take]
  omega

/-- `Recover`, as far as the file goes. -/
def recovered (ks : Nat → UInt8) (w : WalFile start) : WalFile start where
  file := (recover ks start w.file).2
  currentOffset := w.readable ks
  start_le_length := by
    change start ≤ w.readable ks
    rw [readable_eq]
    exact Nat.le_add_right _ _
  start_le_offset := by
    rw [readable_eq]
    exact Nat.le_add_right _ _

end WalFile
end Wal
end AkwaDB
