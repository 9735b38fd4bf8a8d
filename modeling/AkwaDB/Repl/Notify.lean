import AkwaDB.Lib.Interleave
import AkwaDB.Repl.Replica

/-!
# AkwaDB.Repl.Notify

What `notifyWrites` is called with, against what went into the memtable.

A writer drains some requests, dispatches them one by one, acknowledges them all and then notifies
them all, without a look at the results. Of a batch it keeps only the slice: the entries are read
again from the array behind it, which belongs to the caller, and the caller goes on as soon as it is
acknowledged. An increment is notified by its client, with the value that was acknowledged.

- `dispatch`: what a request inserts, whatever becomes of it.
- `Note.content`: what a note comes to, if nobody writes to the array.
- `notified_exactly`: while every request inserts what it is for and no array is written to before it
  is notified, a writer that has finished has notified what it inserted, each entry once.
- `notified_not_inserted`: a put on a full disk and a delete of a missing key are notified all the same.
-/

namespace AkwaDB
namespace Notify

open Repl Wal

/-- The first elements of an array that others may write to. -/
structure Slice where
  array : Nat
  len : Nat

inductive Request where
  | put (key val : Bytes) (expiresAt : Int64)
  | delete (key : Bytes) (checkExists : Bool)
  | batch (s : Slice)
  | incr (key : Bytes) (delta : Int64)
  | gcRewrite (key val : Bytes) (expiresAt : Int64)
  | clear
  | flush

/-- What becomes of a request: the disk is full, an append or a write of the value log fails, the
value a rewrite is for is still where it was. -/
structure Outcome where
  diskFull : Bool
  fails : Bool
  current : Bool

structure Shared where
  now : Int
  db : Keyspace
  arrays : Nat → List BatchWriteEntry

def Shared.read (sh : Shared) (s : Slice) : List BatchWriteEntry := (sh.arrays s.array).take s.len

/-- What a batch entry becomes in the memtable: a tombstone has no value and no expiry. -/
def stored (b : BatchWriteEntry) : ReplEntry :=
  if b.deleted then ⟨.delete, b.key, [], 0, 0⟩ else ⟨.put, b.key, b.value, b.expiresAt, 0⟩

def dispatch (sh : Shared) (o : Outcome) : Request → List ReplEntry
  | .put key val expiresAt => if o.diskFull || o.fails then [] else [⟨.put, key, val, expiresAt, 0⟩]
  | .delete key checkExists =>
    let existed := !checkExists || (sh.db.live sh.now key).isSome
    if existed && !o.fails then [⟨.delete, key, [], 0, 0⟩] else []
  | .batch s =>
    let batchHasWrites := (sh.read s).any fun b => !b.deleted
    if (o.diskFull && batchHasWrites) || o.fails then [] else (sh.read s).map stored
  | .incr key delta =>
    if o.diskFull || o.fails then []
    else
      match incrResult sh.db sh.now key delta with
      | none => []
      | some n =>
        let ttl := sh.db.ttl sh.now key
        [⟨.put, key, formatInt n, Int64.ofInt (if 0 < ttl then sh.now + ttl else 0), 0⟩]
  | .gcRewrite key val expiresAt => if o.current && !o.fails then [⟨.put, key, val, expiresAt, 0⟩] else []
  | .clear => []
  | .flush => []

def Shared.after (sh : Shared) (o : Outcome) (r : Request) : Shared :=
  match r with
  | .clear => { sh with db := fun _ => none }
  | r => { sh with db := effects sh.db (dispatch sh o r) }

inductive Note where
  | entry (e : ReplEntry)
  /-- The elements of a slice from some index on. -/
  | slice (s : Slice) (next : Nat)

def Request.notes : Request → List Note
  | .put key val expiresAt => [.entry ⟨.put, key, val, expiresAt, 0⟩]
  | .delete key _ => [.entry ⟨.delete, key, [], 0, 0⟩]
  | .batch s => [.slice s 0]
  | _ => []

def Request.owed (inserted : List ReplEntry) : Request → List ReplEntry
  | .incr _ _ => inserted.map fun e => { e with expiresAt := 0 }
  | _ => []

/-! ## Writers, clients and callers -/

inductive Proc where
  | idle
  /-- Requests still to dispatch; notes, insertions and debts of clients so far. -/
  | dispatching (todo : List Request) (notes : List Note) (inserted owed : List ReplEntry)
  | notifying (notes : List Note) (inserted owed told : List ReplEntry)

inductive Act where
  | drain (rs : List Request)
  | dispatch (o : Outcome)
  | ack
  | notify
  /-- The client of an increment notifies it. -/
  | announce (i : Nat)
  | overwrite (array i : Nat) (b : BatchWriteEntry)
  | tick (seconds : Nat)

def act (sh : Shared) : Act → Proc → Option (Shared × Proc)
  | .drain rs, .idle => some (sh, .dispatching rs [] [] [])
  | .drain rs, .notifying [] _ [] _ => some (sh, .dispatching rs [] [] [])
  | .dispatch o, .dispatching (r :: todo) notes inserted owed =>
    let xs := Notify.dispatch sh o r
    some (sh.after o r, .dispatching todo (notes ++ r.notes) (inserted ++ xs) (owed ++ r.owed xs))
  | .ack, .dispatching [] notes inserted owed => some (sh, .notifying notes inserted owed [])
  | .notify, .notifying (.entry e :: notes) inserted owed told =>
    some (sh, .notifying notes inserted owed (told ++ [e]))
  | .notify, .notifying (.slice s next :: notes) inserted owed told =>
    match (sh.read s)[next]? with
    | some b => some (sh, .notifying (.slice s (next + 1) :: notes) inserted owed (told ++ [batchEntry b]))
    | none => some (sh, .notifying notes inserted owed told)
  | .announce i, .notifying notes inserted owed told =>
    owed[i]?.map fun e => (sh, .notifying notes inserted (owed.eraseIdx i) (told ++ [e]))
  | .overwrite array i b, p =>
    some ({ sh with arrays := Function.update sh.arrays array ((sh.arrays array).set i b) }, p)
  | .tick seconds, p => some ({ sh with now := sh.now + seconds }, p)
  | _, _ => none

abbrev System := Pool Shared Proc

def step : System → Nat × Act → Option System := Pool.step act

def start (now : Int) (db : Keyspace) (arrays : Nat → List BatchWriteEntry) (procs : Nat) : System :=
  ⟨⟨now, db, arrays⟩, List.replicate procs .idle⟩

/-- The request inserts what it is for: it goes through, a delete finds its key, a tombstone of a
batch has neither value nor expiry; an increment may fail, but keeps no expiry; a rewrite inserts
nothing. -/
def Request.Plain (sh : Shared) (o : Outcome) : Request → Prop
  | .put _ _ _ => o.diskFull = false ∧ o.fails = false
  | .delete key checkExists =>
    (checkExists = false ∨ (sh.db.live sh.now key).isSome = true) ∧ o.fails = false
  | .batch s => o.fails = false ∧ (o.diskFull = true → ∀ b ∈ sh.read s, b.deleted = true) ∧
    ∀ b ∈ sh.read s, b.deleted = true → b.value = [] ∧ b.expiresAt = 0
  | .incr key _ => sh.db.ttl sh.now key ≤ 0
  | .gcRewrite _ _ _ => o.current = false ∨ o.fails = true
  | .clear => True
  | .flush => True

def Proc.arrays : Proc → List Nat
  | idle => []
  | dispatching _ notes _ _ => notes.filterMap fun | .slice s _ => some s.array | .entry _ => none
  | notifying notes _ _ _ => notes.filterMap fun | .slice s _ => some s.array | .entry _ => none

def Sound (s : System) (a : Nat × Act) : Prop :=
  match a.2, s.procs[a.1]? with
  | .dispatch o, some (.dispatching (r :: _) _ _ _) => r.Plain s.shared o
  | .overwrite array _ _, _ => ∀ p ∈ s.procs, array ∉ p.arrays
  | _, _ => True

instance (sh : Shared) (o : Outcome) (r : Request) : Decidable (r.Plain sh o) := by
  unfold Request.Plain
  split <;> infer_instance

instance (s : System) (a : Nat × Act) : Decidable (Sound s a) := by
  unfold Sound
  split <;> infer_instance

/-! ## What is still to be notified -/

def Note.content (arrays : Nat → List BatchWriteEntry) : Note → List ReplEntry
  | .entry e => [e]
  | .slice s next => (((arrays s.array).take s.len).drop next).map batchEntry

def contents (arrays : Nat → List BatchWriteEntry) (notes : List Note) : List ReplEntry :=
  notes.flatMap (Note.content arrays)

/-- What was inserted is what has been, will be and is owed to be notified. -/
def Proc.Settles (arrays : Nat → List BatchWriteEntry) : Proc → Prop
  | idle => True
  | dispatching _ notes inserted owed => (contents arrays notes ++ owed).Perm inserted
  | notifying notes inserted owed told => (told ++ contents arrays notes ++ owed).Perm inserted

theorem stored_eq_batchEntry {b : BatchWriteEntry} (h : b.deleted = true → b.value = [] ∧ b.expiresAt = 0) :
    stored b = batchEntry b := by
  unfold stored batchEntry
  split
  · rename_i hdel
    rw [(h hdel).1, (h hdel).2]
  · rfl

variable {sh : Shared} {arrays : Nat → List BatchWriteEntry} {notes : List Note}
  {inserted owed told : List ReplEntry}

theorem contents_notes {o : Outcome} {r : Request} (h : r.Plain sh o) :
    contents sh.arrays r.notes ++ r.owed (dispatch sh o r) = dispatch sh o r := by
  cases r with
  | put key val expiresAt =>
    obtain ⟨hdisk, hfails⟩ := h
    simp [contents, Request.notes, Note.content, Request.owed, dispatch, hdisk, hfails]
  | delete key checkExists =>
    obtain ⟨hex, hfails⟩ := h
    have hexisted : (!checkExists || (sh.db.live sh.now key).isSome) = true := by
      rcases hex with rfl | hex
      · rfl
      · rw [hex, Bool.or_true]
    simp [contents, Request.notes, Note.content, Request.owed, dispatch, hexisted, hfails]
  | batch s =>
    obtain ⟨hfails, hdisk, htomb⟩ := h
    have hnot : (o.diskFull && (sh.read s).any fun b => !b.deleted) = false := by
      cases hd : o.diskFull with
      | false => rfl
      | true =>
        simp only [Bool.true_and, List.any_eq_false, Bool.not_eq_true', Bool.not_eq_false]
        exact hdisk hd
    have hmap : (sh.read s).map stored = (sh.read s).map batchEntry :=
      List.map_congr_left fun b hb => stored_eq_batchEntry (htomb b hb)
    have hinsert : dispatch sh o (.batch s) = (sh.read s).map batchEntry := by
      simp only [dispatch, hnot, hfails, Bool.or_self, Bool.false_eq_true, if_false]
      exact hmap
    have hnotes : contents sh.arrays (Request.batch s).notes = (sh.read s).map batchEntry :=
      List.flatMap_singleton _ _
    rw [hinsert, hnotes]
    exact List.append_nil _
  | incr key delta =>
    have hexp : ¬ 0 < sh.db.ttl sh.now key := by
      have hle : sh.db.ttl sh.now key ≤ 0 := h
      omega
    simp only [dispatch, contents, Request.notes, Request.owed, List.flatMap_nil, List.nil_append]
    split
    · rfl
    · split
      · rfl
      · rfl
  | gcRewrite key val expiresAt =>
    have hnone : (o.current && !o.fails) = false := by
      rcases h with h | h
      · rw [h, Bool.false_and]
      · rw [h, Bool.not_true, Bool.and_false]
    simp [contents, Request.notes, Request.owed, dispatch, hnone]
  | clear => rfl
  | flush => rfl

theorem contents_overwrite {array : Nat}
    (h : array ∉ notes.filterMap fun | .slice s _ => some s.array | .entry _ => none)
    (bs : List BatchWriteEntry) :
    contents (Function.update arrays array bs) notes = contents arrays notes := by
  refine List.flatMap_congr fun n hn => ?_
  cases n with
  | entry e => rfl
  | slice s next =>
    have hne : s.array ≠ array := by
      rintro rfl
      exact h (List.mem_filterMap.mpr ⟨.slice s next, hn, rfl⟩)
    simp only [Note.content, Function.update_of_ne hne]

theorem settles_overwrite {array : Nat} {p : Proc} (h : p.Settles arrays) (hp : array ∉ p.arrays)
    (bs : List BatchWriteEntry) : p.Settles (Function.update arrays array bs) := by
  cases p with
  | idle => trivial
  | dispatching todo notes inserted owed =>
    show (contents _ notes ++ owed).Perm inserted
    rw [contents_overwrite hp]
    exact h
  | notifying notes inserted owed told =>
    show (told ++ contents _ notes ++ owed).Perm inserted
    rw [contents_overwrite hp]
    exact h

theorem settles_dispatch {o : Outcome} {r : Request} {todo : List Request}
    (h : (contents sh.arrays notes ++ owed).Perm inserted) (hr : r.Plain sh o) :
    (Proc.dispatching todo (notes ++ r.notes) (inserted ++ dispatch sh o r)
      (owed ++ r.owed (dispatch sh o r))).Settles sh.arrays := by
  have hnew := contents_notes hr
  show (contents sh.arrays (notes ++ r.notes) ++ (owed ++ r.owed (dispatch sh o r))).Perm _
  have hsplit : contents sh.arrays (notes ++ r.notes) = contents sh.arrays notes ++ contents sh.arrays r.notes :=
    List.flatMap_append
  rw [hsplit]
  calc contents sh.arrays notes ++ contents sh.arrays r.notes ++ (owed ++ r.owed (dispatch sh o r))
      _ = contents sh.arrays notes ++ (contents sh.arrays r.notes ++ owed) ++ r.owed (dispatch sh o r) := by simp
      _ |>.Perm (contents sh.arrays notes ++ (owed ++ contents sh.arrays r.notes) ++ r.owed (dispatch sh o r)) :=
        (List.perm_append_comm.append_left _).append_right _
      _ = contents sh.arrays notes ++ owed ++ (contents sh.arrays r.notes ++ r.owed (dispatch sh o r)) := by simp
      _ |>.Perm (inserted ++ dispatch sh o r) := by
        rw [hnew]
        exact h.append_right _

theorem settles_notify {s : Slice} {next : Nat} {b : BatchWriteEntry}
    (hb : (sh.read s)[next]? = some b)
    (h : (Proc.notifying (.slice s next :: notes) inserted owed told).Settles sh.arrays) :
    (Proc.notifying (.slice s (next + 1) :: notes) inserted owed (told ++ [batchEntry b])).Settles sh.arrays := by
  obtain ⟨hlt, rfl⟩ := List.getElem?_eq_some_iff.mp hb
  have hnext : Note.content sh.arrays (.slice s next) =
      batchEntry (sh.read s)[next] :: Note.content sh.arrays (.slice s (next + 1)) := by
    show ((sh.read s).drop next).map batchEntry = _
    rw [List.drop_eq_getElem_cons hlt]
    rfl
  simp only [Proc.Settles, contents, List.flatMap_cons, hnext] at h ⊢
  simpa using h

theorem settles_slice_end {s : Slice} {next : Nat} (hb : (sh.read s)[next]? = none)
    (h : (Proc.notifying (.slice s next :: notes) inserted owed told).Settles sh.arrays) :
    (Proc.notifying notes inserted owed told).Settles sh.arrays := by
  have hempty : Note.content sh.arrays (.slice s next) = [] := by
    show ((sh.read s).drop next).map batchEntry = _
    rw [List.drop_eq_nil_of_le (List.getElem?_eq_none_iff.mp hb)]
    rfl
  simpa only [Proc.Settles, contents, List.flatMap_cons, hempty, List.nil_append] using h

theorem settles_announce {i : Nat} {e : ReplEntry} (he : owed[i]? = some e)
    (h : (Proc.notifying notes inserted owed told).Settles arrays) :
    (Proc.notifying notes inserted (owed.eraseIdx i) (told ++ [e])).Settles arrays := by
  obtain ⟨hlt, rfl⟩ := List.getElem?_eq_some_iff.mp he
  refine List.Perm.trans ?_ h
  have hout : (owed[i] :: owed.eraseIdx i).Perm owed := List.getElem_cons_eraseIdx_perm hlt
  show (told ++ [owed[i]] ++ contents arrays notes ++ owed.eraseIdx i).Perm (told ++ contents arrays notes ++ owed)
  simp only [List.append_assoc, List.singleton_append]
  exact (List.perm_middle.symm.trans (hout.append_left _)).append_left told

theorem settles_step {s s' : System} {a : Nat × Act} (h : ∀ p ∈ s.procs, p.Settles s.shared.arrays)
    (hok : Sound s a) (hs : step s a = some s') : ∀ p ∈ s'.procs, p.Settles s'.shared.arrays := by
  obtain ⟨l, p, r, q, hp, hl, hact, hl'⟩ := Pool.step_split hs
  obtain ⟨sh, procs⟩ := s
  obtain ⟨sh', procs'⟩ := s'
  obtain ⟨i, a⟩ := a
  obtain rfl : procs = l ++ p :: r := hl
  obtain rfl : procs' = l ++ q :: r := hl'
  simp only [Sound] at hok
  rw [show (⟨sh, l ++ p :: r⟩ : System).procs[i]? = some p from hp] at hok
  have hself : p.Settles sh.arrays := h p (by simp)
  have hothers : ∀ x ∈ l ++ r, x.Settles sh.arrays := fun x hx => h x (mem_middle.mpr (Or.inr hx))
  simp only at hact
  unfold act at hact
  split at hact
  case h_1 =>
    cases hact
    exact Pool.forall_middle (List.Perm.refl _) hothers
  case h_2 =>
    cases hact
    exact Pool.forall_middle (List.Perm.refl _) hothers
  case h_3 o r' todo notes inserted owed =>
    cases hact
    have harrays : (sh.after o r').arrays = sh.arrays := by
      unfold Shared.after
      split <;> rfl
    rw [harrays]
    exact Pool.forall_middle (settles_dispatch hself hok) hothers
  case h_4 =>
    cases hact
    exact Pool.forall_middle hself hothers
  case h_5 =>
    cases hact
    refine Pool.forall_middle ?_ hothers
    simpa [Proc.Settles, contents, Note.content] using hself
  case h_6 =>
    split at hact
    · rename_i hb
      cases hact
      exact Pool.forall_middle (settles_notify hb hself) hothers
    · rename_i hb
      cases hact
      exact Pool.forall_middle (settles_slice_end hb hself) hothers
  case h_7 =>
    obtain ⟨e, he, heq⟩ := Option.map_eq_some_iff.mp hact
    cases heq
    exact Pool.forall_middle (settles_announce he hself) hothers
  case h_8 =>
    cases hact
    intro x hx
    exact settles_overwrite (h x hx) (hok x hx) _
  case h_9 =>
    cases hact
    exact h
  case h_10 => cases hact

/-- **What is notified is what was inserted**, once each. -/
theorem notified_exactly {now : Int} {db : Keyspace} {arrays : Nat → List BatchWriteEntry} {procs : Nat}
    {acts : List (Nat × Act)} {s : System} (hg : Guarded step Sound (start now db arrays procs) acts)
    (hr : run step (start now db arrays procs) acts = some s) :
    ∀ inserted told, .notifying [] inserted [] told ∈ s.procs → told.Perm inserted := by
  intro inserted told hp
  have hstart : ∀ p ∈ (start now db arrays procs).procs, p.Settles (start now db arrays procs).shared.arrays := by
    intro p hp
    rw [List.eq_of_mem_replicate hp]
    trivial
  have hall : ∀ p ∈ s.procs, p.Settles s.shared.arrays := run_invariant settles_step hstart hg hr
  simpa [Proc.Settles, contents] using hall _ hp

def well : Outcome := ⟨false, false, false⟩

def notifyAll : List (Nat × Act) :=
  [(0, .drain [.put [107] [49] 0, .batch ⟨0, 1⟩, .incr [99] 5]), (0, .dispatch well), (0, .dispatch well),
    (0, .dispatch well), (0, .ack), (0, .notify), (0, .announce 0), (0, .notify), (0, .notify),
    (0, .overwrite 0 0 ⟨[98], [], 0, true⟩)]

theorem notified_exactly_all :
    ∃ s inserted told, run step (start 100 (fun _ => none) (fun _ => [⟨[97], [50], 0, false⟩]) 1) notifyAll = some s ∧
      .notifying [] inserted [] told ∈ s.procs ∧ inserted.length = 3 ∧ told.Perm inserted := by
  obtain ⟨s, hs⟩ : ∃ s, run step (start 100 (fun _ => none) (fun _ => [⟨[97], [50], 0, false⟩]) 1) notifyAll =
    some s := ⟨_, rfl⟩
  have hp : .notifying [] [⟨.put, [107], [49], 0, 0⟩, ⟨.put, [97], [50], 0, 0⟩, ⟨.put, [99], [53], 0, 0⟩] []
      [⟨.put, [107], [49], 0, 0⟩, ⟨.put, [99], [53], 0, 0⟩, ⟨.put, [97], [50], 0, 0⟩] ∈ s.procs := by
    cases hs
    exact List.mem_of_getElem? (i := 0) rfl
  exact ⟨s, _, _, hs, hp, rfl, notified_exactly (by decide +kernel) hs _ _ hp⟩

def notifyFailed : List (Nat × Act) :=
  [(0, .drain [.put [107] [49] 0, .delete [106] true]), (0, .dispatch ⟨true, false, false⟩), (0, .dispatch well),
    (0, .ack), (0, .notify), (0, .notify)]

theorem notified_not_inserted :
    ∃ s, run step (start 100 (fun _ => none) (fun _ => []) 1) notifyFailed = some s ∧
      s.procs = [.notifying [] [] [] [⟨.put, [107], [49], 0, 0⟩, ⟨.delete, [106], [], 0, 0⟩]] :=
  ⟨_, rfl, rfl⟩

end Notify
end AkwaDB
