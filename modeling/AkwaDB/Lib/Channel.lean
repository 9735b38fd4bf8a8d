import Mathlib.Data.List.Basic

/-!
# AkwaDB.Lib.Channel

Buffered channels as Go has them. A send on a closed channel panics, and a receive from a closed
channel that is empty succeeds with the zero value.

The lemmas say what each outcome of a send or a receive tells about the channel.
-/

namespace AkwaDB

structure Chan (α : Type) where
  cap : Nat
  buf : List α
  closed : Bool

namespace Chan

variable {α : Type}

def make (α : Type) (cap : Nat) : Chan α := ⟨cap, [], false⟩

inductive Sent (α : Type) where
  | blocks
  | panics
  | sent (c : Chan α)

inductive Received (α : Type) where
  | blocks
  /-- The zero value, and `ok` false. -/
  | closed
  | value (v : α) (c : Chan α)

def send (c : Chan α) (v : α) : Sent α :=
  if c.closed then .panics
  else if c.buf.length < c.cap then .sent { c with buf := c.buf ++ [v] }
  else .blocks

def recv (c : Chan α) : Received α :=
  match c.buf with
  | v :: buf => .value v { c with buf }
  | [] => if c.closed then .closed else .blocks

/-- `close(c)`; `none` is the panic over a channel that is closed already. -/
def close (c : Chan α) : Option (Chan α) := if c.closed then none else some { c with closed := true }

theorem send_eq_panics {c : Chan α} {v : α} : c.send v = .panics ↔ c.closed = true := by
  unfold send
  cases c.closed with
  | true => simp
  | false =>
    simp only [Bool.false_eq_true, if_false, iff_false]
    split <;> simp

theorem send_eq_sent {c c' : Chan α} {v : α} (h : c.send v = .sent c') :
    c.closed = false ∧ c' = { c with buf := c.buf ++ [v] } := by
  unfold send at h
  split at h
  · cases h
  · rename_i hopen
    split at h
    · cases h
      exact ⟨by simpa using hopen, rfl⟩
    · cases h

theorem recv_eq_value {c c' : Chan α} {v : α} (h : c.recv = .value v c') :
    c.buf = v :: c'.buf ∧ c' = { c with buf := c'.buf } := by
  unfold recv at h
  split at h
  · rename_i hbuf
    cases h
    exact ⟨hbuf, rfl⟩
  · split at h <;> cases h

theorem recv_eq_closed {c : Chan α} (h : c.recv = .closed) : c.buf = [] ∧ c.closed = true := by
  unfold recv at h
  split at h
  · cases h
  · rename_i hbuf
    split at h
    · rename_i hclosed
      exact ⟨hbuf, hclosed⟩
    · cases h

theorem recv_eq_blocks {c : Chan α} (h : c.recv = .blocks) : c.buf = [] := by
  unfold recv at h
  split at h
  · cases h
  · assumption

theorem close_eq_some {c c' : Chan α} : c.close = some c' ↔ c.closed = false ∧ c' = { c with closed := true } := by
  unfold close
  cases c.closed <;> simp [eq_comm]

end Chan
end AkwaDB
