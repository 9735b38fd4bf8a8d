import AkwaDB.Lib.Bytes

/-!
# AkwaDB.Lib.Faulty

A buffered writer on a file whose writes may fail, as Go's `bufio.Writer`. An error is kept: every later call
returns it, and nothing more gets to the file.

* `write_ok` — a write that returns no error has appended its bytes,
* `flush_ok` — after a flush that returns no error all is in the file,
* `buf_flush` — what a flush holds back when it fails.
-/

namespace AkwaDB

/-- The bytes that have reached the file, and those held back. -/
structure Buffered where
  disk : Bytes
  buf : Bytes
  deriving DecidableEq, Repr

namespace Buffered

def content (w : Buffered) : Bytes := w.disk ++ w.buf

def flush (w : Buffered) : Buffered := ⟨w.disk ++ w.buf, []⟩

@[simp] theorem disk_flush (w : Buffered) : w.flush.disk = w.content := rfl

end Buffered

inductive Fate where
  | succeeds
  /-- An error is returned after so many bytes. -/
  | fails (reached : Nat)
  deriving DecidableEq, Repr

/-- `fates` are those of the writes to come, which succeed where it ends. -/
structure Faulty where
  file : Buffered
  failed : Bool
  fates : List Fate
  deriving DecidableEq, Repr

namespace Faulty

def content (w : Faulty) : Bytes := w.file.content

def flush (w : Faulty) : Faulty :=
  if w.failed = true ∨ w.file.buf = [] then w
  else
    match w.fates with
    | .fails n :: fates => ⟨⟨w.file.disk ++ w.file.buf.take n, w.file.buf.drop n⟩, true, fates⟩
    | fates => ⟨w.file.flush, false, fates.tail⟩

/-- Bytes that pass by the buffer; the rest of them is lost at an error. -/
def direct (w : Faulty) (p : Bytes) : Faulty :=
  match w.fates with
  | .fails n :: fates => ⟨⟨w.file.disk ++ p.take n, w.file.buf⟩, true, fates⟩
  | fates => ⟨⟨w.file.disk ++ p, w.file.buf⟩, false, fates.tail⟩

def fill (w : Faulty) (p : Bytes) : Faulty :=
  { w with file := ⟨w.file.disk, w.file.buf ++ p⟩ }.flush

/-- `Write` with a buffer of `size` bytes. It returns an error if there is one afterwards. -/
def write (size : Nat) (w : Faulty) (p : Bytes) : Faulty :=
  let room := size - w.file.buf.length
  if w.failed = true then w
  else if p.length ≤ room then { w with file := ⟨w.file.disk, w.file.buf ++ p⟩ }
  else if w.file.buf = [] then w.direct p
  else
    let w' := w.fill (p.take room)
    if w'.failed = true then w'
    else if (p.drop room).length ≤ size then { w' with file := ⟨w'.file.disk, p.drop room⟩ }
    else w'.direct (p.drop room)

variable {w : Faulty}

@[simp] theorem content_flush (w : Faulty) : w.flush.content = w.content := by
  unfold flush
  split
  · rfl
  · split <;> simp [content, Buffered.content, Buffered.flush]

theorem flush_ok (h : w.flush.failed = false) : w.failed = false ∧ w.flush.file = ⟨w.content, []⟩ := by
  unfold flush at h ⊢
  by_cases hskip : w.failed = true ∨ w.file.buf = []
  · rw [if_pos hskip] at h ⊢
    have hbuf : w.file.buf = [] := hskip.resolve_left (by simp [h])
    refine ⟨h, ?_⟩
    rw [content, Buffered.content, hbuf, List.append_nil, ← hbuf]
  · rw [if_neg hskip] at h ⊢
    rw [not_or] at hskip
    refine ⟨by simpa using hskip.1, ?_⟩
    split at h
    · cases h
    · rfl

theorem buf_flush (h : w.failed = false) :
    w.flush.file.buf = match w.fates with
      | .fails n :: _ => w.file.buf.drop n
      | _ => [] := by
  unfold flush
  by_cases hbuf : w.file.buf = []
  · rw [if_pos (.inr hbuf), hbuf]
    split <;> simp
  · rw [if_neg (by simp [h, hbuf])]
    split <;> simp [Buffered.flush]

theorem fill_ok {p : Bytes} (h : (w.fill p).failed = false) : (w.fill p).file = ⟨w.content ++ p, []⟩ := by
  rw [fill] at h ⊢
  rw [(flush_ok h).2]
  simp [content, Buffered.content]

theorem direct_ok {p : Bytes} (hbuf : w.file.buf = []) (h : (w.direct p).failed = false) :
    (w.direct p).content = w.content ++ p := by
  unfold direct at h ⊢
  split at h
  · cases h
  · simp [content, Buffered.content, hbuf]

theorem write_failed {size : Nat} {p : Bytes} (h : w.failed = true) : w.write size p = w := by
  simp [write, h]

theorem write_ok {size : Nat} {p : Bytes} (h : (w.write size p).failed = false) :
    w.failed = false ∧ (w.write size p).content = w.content ++ p := by
  cases hfailed : w.failed with
  | true =>
    rw [write_failed hfailed, hfailed] at h
    cases h
  | false =>
    refine ⟨rfl, ?_⟩
    simp only [write, hfailed, Bool.false_eq_true, if_false] at h ⊢
    by_cases hroom : p.length ≤ size - w.file.buf.length
    · rw [if_pos hroom]
      simp [content, Buffered.content]
    · rw [if_neg hroom] at h ⊢
      by_cases hempty : w.file.buf = []
      · rw [if_pos hempty] at h ⊢
        exact direct_ok hempty h
      · rw [if_neg hempty] at h ⊢
        by_cases hfill : (w.fill (p.take (size - w.file.buf.length))).failed = true
        · rw [if_pos hfill, hfill] at h
          cases h
        · rw [if_neg hfill] at h ⊢
          have hfile := fill_ok (by simpa using hfill)
          split at h
          · rename_i hsmall
            rw [if_pos hsmall, content, Buffered.content, hfile]
            simp
          · rename_i hlarge
            rw [if_neg hlarge, direct_ok (by rw [hfile]) h, content, Buffered.content, hfile]
            simp

/-! ### What is in the file when a write fails -/

theorem foldl_write_ok {size : Nat} {ps : List Bytes} (h : (ps.foldl (write size) w).failed = false) :
    w.failed = false ∧ (ps.foldl (write size) w).content = w.content ++ ps.flatten := by
  induction ps generalizing w with
  | nil => exact ⟨h, by simp⟩
  | cons p ps ih =>
    rw [List.foldl_cons] at h ⊢
    obtain ⟨hfirst, hrest⟩ := ih h
    obtain ⟨hok, hcontent⟩ := write_ok hfirst
    exact ⟨hok, by rw [hrest, hcontent, List.flatten_cons, List.append_assoc]⟩

end Faulty
end AkwaDB
