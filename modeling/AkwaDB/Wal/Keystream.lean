import AkwaDB.Lib.Reach
import AkwaDB.Wal.File

/-!
# AkwaDB.Wal.Keystream

What an encrypted log gives away when it is cut back.

Counter mode adds a keystream to the data, and the keystream depends on nothing but the offset once the file
has its key and base IV. `TruncateTo`, `Recover` and an append that fails leave the log at an offset where
something was encrypted before, and the next record is encrypted with the same keystream. Whoever has the file
from before and after knows the sum of the two records.

`keystream_once`: in a history in which no cut, no `Recover` and no reopening takes the log back in front of
something that was encrypted, and no append fails that encrypted something, no offset is used twice for different
bytes.
-/

namespace AkwaDB
namespace Wal

/-! ## Bytes and their offsets -/

/-- Every byte with the offset it is encrypted at. -/
def spread : Nat → Bytes → List (Nat × UInt8)
  | _, [] => []
  | off, b :: bs => (off, b) :: spread (off + 1) bs

theorem mem_spread {off o : Nat} {bs : Bytes} {b : UInt8} :
    (o, b) ∈ spread off bs ↔ off ≤ o ∧ bs[o - off]? = some b := by
  induction bs generalizing off with
  | nil => simp [spread]
  | cons c bs ih =>
    rw [spread, List.mem_cons, ih, Prod.mk.injEq]
    rcases Nat.lt_trichotomy o off with hlt | rfl | hgt
    · constructor
      · rintro (⟨rfl, -⟩ | ⟨hle, -⟩) <;> omega
      · rintro ⟨hle, -⟩
        omega
    · simp [eq_comm]
    · obtain ⟨d, rfl⟩ := Nat.exists_eq_add_of_lt hgt
      have hcons : (c :: bs)[off + d + 1 - off]? = bs[d]? := by
        rw [show off + d + 1 - off = d + 1 by omega, List.getElem?_cons_succ]
      rw [hcons, show off + d + 1 - (off + 1) = d by omega]
      constructor
      · rintro (⟨h, -⟩ | ⟨-, h⟩)
        · omega
        · exact ⟨by omega, h⟩
      · rintro ⟨-, h⟩
        exact .inr ⟨by omega, h⟩

/-- What `writeDirect` encrypts: the key and behind it the value. -/
def encrypted (off : Nat) (r : Record) : List (Nat × UInt8) := spread (off + walHeaderSize) (r.key ++ r.value)

namespace WalFile

variable {start : Nat}

def reopened (w : WalFile start) (kept : Nat) (h : start ≤ kept) : WalFile start where
  file := w.file.take kept
  currentOffset := (w.file.take kept).length
  start_le_length := by
    rw [List.length_take]
    exact Nat.le_min.mpr ⟨h, w.start_le_length⟩
  start_le_offset := by
    rw [List.length_take]
    exact Nat.le_min.mpr ⟨h, w.start_le_length⟩

end WalFile

inductive LogEvent where
  | write (o : Append) (r : Record)
  | truncateTo (n : Nat)
  | recover
  | reopen (kept : Nat)

/-- A log with everything that was encrypted for it. -/
structure CipherLog (start : Nat) where
  wal : WalFile start
  used : List (Nat × UInt8)

namespace CipherLog

variable {start : Nat} {ks : Nat → UInt8}

def step (ks : Nat → UInt8) (s : CipherLog start) : LogEvent → Option (CipherLog start)
  | .write o r => some ⟨(s.wal.writeVersion ks o r).2, s.used ++ encrypted s.wal.currentOffset r⟩
  | .truncateTo n => if h : start ≤ n then some ⟨s.wal.truncateTo n h, s.used⟩ else none
  | .recover => some ⟨s.wal.recovered ks, s.used⟩
  | .reopen kept => if h : start ≤ kept then some ⟨s.wal.reopened kept h, s.used⟩ else none

def Once (s : CipherLog start) : Prop := ∀ p ∈ s.used, ∀ q ∈ s.used, p.1 = q.1 → p.2 = q.2

instance (s : CipherLog start) : Decidable s.Once := inferInstanceAs (Decidable (∀ p ∈ s.used, _))

/-- The data of a record at offset `n` is behind all that was encrypted. -/
def Behind (s : CipherLog start) (n : Nat) : Prop := ∀ q ∈ s.used, q.1 < n + walHeaderSize

/-- A refused append has encrypted its data without moving on, and whatever sets the offset keeps it behind all that
was encrypted: `Recover` sets it to the end of the readable records, opening the log to the end of the file. -/
def StepOk (ks : Nat → UInt8) (s : CipherLog start) : LogEvent → Prop
  | .write (.refused _) r => r.key ++ r.value = []
  | .write (.written _ _) _ => True
  | .truncateTo n => s.Behind n
  | .recover => s.Behind (s.wal.readable ks)
  | .reopen kept => s.Behind (min kept s.wal.file.length)

instance (s : CipherLog start) (n : Nat) : Decidable (s.Behind n) := inferInstanceAs (Decidable (∀ q ∈ s.used, _))

instance (s : CipherLog start) : (e : LogEvent) → Decidable (s.StepOk ks e)
  | .write (.refused _) r => inferInstanceAs (Decidable (r.key ++ r.value = []))
  | .write (.written _ _) _ => inferInstanceAs (Decidable True)
  | .truncateTo n => inferInstanceAs (Decidable (s.Behind n))
  | .recover => inferInstanceAs (Decidable (s.Behind _))
  | .reopen _ => inferInstanceAs (Decidable (s.Behind _))

theorem spread_once {off : Nat} {bs : Bytes} : ∀ p ∈ spread off bs, ∀ q ∈ spread off bs, p.1 = q.1 → p.2 = q.2 := by
  rintro ⟨o, b⟩ hp ⟨o', b'⟩ hq rfl
  have hb := (mem_spread.mp hp).2
  rw [(mem_spread.mp hq).2] at hb
  exact (Option.some.inj hb).symm

theorem lt_of_mem_encrypted {off : Nat} {r : Record} {p : Nat × UInt8} (h : p ∈ encrypted off r) :
    off + walHeaderSize ≤ p.1 ∧ p.1 < off + r.size := by
  obtain ⟨hle, hget⟩ := mem_spread.mp h
  have hlt := (List.getElem?_eq_some_iff.mp hget).1
  rw [List.length_append] at hlt
  refine ⟨hle, ?_⟩
  unfold Record.size
  omega

theorem once_write {s : CipherLog start} (h : s.Once) (hb : s.Behind s.wal.currentOffset) (w : WalFile start)
    (r : Record) :
    Once ⟨w, s.used ++ encrypted s.wal.currentOffset r⟩ := by
  have hcross : ∀ q ∈ s.used, ∀ p ∈ encrypted s.wal.currentOffset r, p.1 ≠ q.1 := fun q hq p hp =>
    ((hb q hq).trans_le (lt_of_mem_encrypted hp).1).ne'
  intro p hp q hq heq
  rcases List.mem_append.mp hp with hp | hp
  · rcases List.mem_append.mp hq with hq | hq
    · exact h p hp q hq heq
    · exact absurd heq.symm (hcross p hp q hq)
  · rcases List.mem_append.mp hq with hq | hq
    · exact absurd heq (hcross q hq p hp)
    · exact spread_once p hp q hq heq

theorem step_behind {s s' : CipherLog start} {e : LogEvent} (h : s.Once ∧ s.Behind s.wal.currentOffset)
    (hok : s.StepOk ks e) (hs : step ks s e = some s') : s'.Once ∧ s'.Behind s'.wal.currentOffset := by
  cases e with
  | write o r =>
    obtain rfl := Option.some.inj hs
    refine ⟨once_write h.1 h.2 _ r, fun q hq => ?_⟩
    have hsize := writeDirect_size ks s.wal.currentOffset r
    cases o with
    | written reached failed =>
      -- the count has moved behind the record
      show q.1 < s.wal.currentOffset + (writeDirect ks s.wal.currentOffset r).length + walHeaderSize
      rw [hsize]
      rcases List.mem_append.mp hq with hq | hq
      · exact (h.2 q hq).trans_le (by omega)
      · exact (lt_of_mem_encrypted hq).2.trans_le (by omega)
    | refused reached =>
      rw [encrypted, hok, spread, List.append_nil] at hq
      exact h.2 q hq
  | truncateTo n =>
    obtain ⟨_, heq⟩ := Option.dite_none_right_eq_some.mp hs
    obtain rfl := Option.some.inj heq
    exact ⟨h.1, hok⟩
  | recover =>
    obtain rfl := Option.some.inj hs
    exact ⟨h.1, hok⟩
  | reopen kept =>
    obtain ⟨_, heq⟩ := Option.dite_none_right_eq_some.mp hs
    obtain rfl := Option.some.inj heq
    refine ⟨h.1, fun q hq => ?_⟩
    show q.1 < (s.wal.file.take kept).length + walHeaderSize
    rw [List.length_take]
    exact hok q hq

end CipherLog

open CipherLog

variable {start : Nat}

/-- **The keystream is used once** in a history that never takes the log back over what was encrypted. -/
theorem keystream_once (ks : Nat → UInt8) (w : WalFile start) (events : List LogEvent) (s : CipherLog start)
    (hg : Guarded (step ks) (StepOk ks) ⟨w, []⟩ events) (h : run (step ks) ⟨w, []⟩ events = some s) : s.Once := by
  have hinit : (⟨w, []⟩ : CipherLog start).Once ∧ (⟨w, []⟩ : CipherLog start).Behind w.currentOffset :=
    ⟨fun p hp => (List.not_mem_nil hp).elim, fun q hq => (List.not_mem_nil hq).elim⟩
  exact (run_invariant step_behind hinit hg h).1

def headerOnly : WalFile 32 := ⟨List.replicate 32 0, 32, by decide, by decide⟩

/-- A record, a batch that is rolled back before it wrote anything, a restart, and one more record. -/
theorem keystream_once_restart :
    let events : List LogEvent := [.write (.written 40 false) ⟨1, [97], [98, 99], 0, 1, 0⟩, .truncateTo 72,
      .reopen 100, .recover, .write (.written 40 false) ⟨1, [97], [100, 101], 0, 2, 0⟩]
    ∃ s, run (step fun o => UInt8.ofNat (7 * o)) ⟨headerOnly, []⟩ events = some s ∧ s.Once := by
  intro events
  exact ⟨_, rfl, keystream_once _ headerOnly events _ (by decide +kernel) rfl⟩

/-- A record is cut off and another written in its place: the files give the sum of the two values. -/
theorem keystream_reused :
    let first : Record := ⟨1, [97], [98, 99, 100], 0, 1, 0⟩
    let second : Record := ⟨1, [97], [120, 121, 122], 0, 2, 0⟩
    let ks : Nat → UInt8 := fun o => UInt8.ofNat (7 * o + 3)
    let before := run (step ks) ⟨headerOnly, []⟩ [.write (.written 41 false) first]
    let after := run (step ks) ⟨headerOnly, []⟩
      [.write (.written 41 false) first, .truncateTo 32, .write (.written 41 false) second]
    let torn := run (step ks) ⟨headerOnly, []⟩
      [.write (.written 40 false) first, .reopen 72, .recover, .write (.written 41 false) second]
    (after.any fun s => decide s.Once) = false ∧ (torn.any fun s => decide s.Once) = false ∧
      ∃ b a, before = some b ∧ after = some a ∧
        List.zipWith (· ^^^ ·) (b.wal.file.drop 70) (a.wal.file.drop 70) =
          List.zipWith (· ^^^ ·) first.value second.value := by
  refine ⟨by decide +kernel, by decide +kernel, _, _, rfl, rfl, by decide +kernel⟩

end Wal
end AkwaDB
