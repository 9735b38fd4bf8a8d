import AkwaDB.Lib.Channel
import AkwaDB.Lib.Reach
import AkwaDB.Server.Resp
import Mathlib.Data.Finset.Insert

/-!
# AkwaDB.Server.PubSub

The channels that connections subscribe to: the sets of the hub, the set of each connection, and the
queue its pump writes from.

A connection that subscribes, unsubscribes or leaves holds the lock of the hub for writing. A publish
holds it for reading and takes the subscribers one by one, in any order, each under its own lock:
other publishes, the pumps and the connections that close run between two of its turns.

* `subscriptions_mirror`: the sets agree in every reachable state, and no send or close panics;
* `publish_reaches_subscribers`: a publish misses only the subscribers whose queue is full, and a
  pump writes what its queue took, in order.
-/

namespace AkwaDB
namespace PubSub

/-- Where the goroutine of a connection is; it runs `unsubscribeAll` before the section that closes. -/
inductive Phase where
  | serving
  | subscribing
  | left
  | gone
  deriving DecidableEq

structure Client where
  subs : Finset Bytes
  sendCh : Option (Chan Bytes)
  closed : Bool
  phase : Phase
  /-- The payloads that were sent to `sendCh`. -/
  accepted : List Bytes
  /-- What the pump has received and not written yet. -/
  inHand : Option Bytes
  /-- What the pump wrote; it returns when a write fails. -/
  written : List Bytes
  failed : Bool

def newClient : Client := ⟨∅, none, false, .serving, [], none, [], false⟩

/-- A `publish` under way; `todo` is what its loop over the set has left. -/
structure Publish where
  channel : Bytes
  message : Bytes
  todo : Finset Nat
  delivered : Nat
  /-- The subscribers that took the message, and those whose queue was full. -/
  took : Finset Nat
  full : Finset Nat

structure Hub where
  subs : Bytes → Option (Finset Nat)
  clients : Nat → Client
  publishing : Nat → Option Publish
  next : Nat
  panicked : Bool

def newPubSubHub : Hub := ⟨fun _ => none, fun _ => newClient, fun _ => none, 0, false⟩

/-- No publish holds the lock for reading. -/
abbrev Hub.Unlocked (h : Hub) : Prop := ∀ p < h.next, h.publishing p = none

def Hub.setClient (h : Hub) (cl : Nat) (c : Client) : Hub := { h with clients := Function.update h.clients cl c }

def subscribe (h : Hub) (channel : Bytes) (cl : Nat) : Hub × Nat :=
  let set := (h.subs channel).getD ∅
  let subs := insert channel (h.clients cl).subs
  ({ h with subs := Function.update h.subs channel (some (insert cl set)) }.setClient cl
    { h.clients cl with subs }, subs.card)

/-- Take a connection out of the set of a channel, and the set out of the hub when it is empty then. -/
def drop (cl : Nat) (set : Option (Finset Nat)) : Option (Finset Nat) :=
  set.bind fun set => if set.erase cl = ∅ then none else some (set.erase cl)

def unsubscribe (h : Hub) (channel : Bytes) (cl : Nat) : Hub × Nat :=
  let subs := (h.clients cl).subs.erase channel
  ({ h with subs := Function.update h.subs channel (drop cl (h.subs channel)) }.setClient cl
    { h.clients cl with subs }, subs.card)

/-- The loop treats each channel of the connection by itself. -/
def unsubscribeAll (h : Hub) (cl : Nat) : Hub :=
  let own := (h.clients cl).subs
  { h with subs := fun ch => if ch ∈ own then drop cl (h.subs ch) else h.subs ch }.setClient cl
    { h.clients cl with subs := ∅, phase := .left }

def payload (channel message : Bytes) : Bytes :=
  Resp.encodeRequest [[109, 101, 115, 115, 97, 103, 101], channel, message]

/-- One turn of the loop of `publish`; `none` is a panic. -/
def turn (q : Publish) (cl : Nat) (c : Client) : Option (Client × Publish) :=
  let m := payload q.channel q.message
  let rest := { q with todo := q.todo.erase cl }
  match c.closed, c.sendCh with
  | false, some ch =>
    match ch.send m with
    | .sent ch => some ({ c with sendCh := some ch, accepted := c.accepted ++ [m] },
        { rest with delivered := q.delivered + 1, took := insert cl q.took })
    | .blocks => some (c, { rest with full := insert cl q.full })
    | .panics => none
  -- The connection is closed, or has no pump.
  | _, _ => some (c, rest)

def startPubSubPump (c : Client) : Client := { c with sendCh := some (.make Bytes 128), phase := .subscribing }

/-- The pump takes the next message of its channel. -/
def receive (c : Client) : Option Client :=
  match c.failed, c.inHand, c.sendCh.map Chan.recv with
  | false, none, some (.value m ch) => some { c with sendCh := some ch, inHand := some m }
  | _, _, _ => none

/-- It writes what it has taken. -/
def write (c : Client) (fails : Bool) : Option Client :=
  c.inHand.map fun m =>
    { c with inHand := none, failed := fails, written := if fails then c.written else c.written ++ [m] }

/-- The end of `handleConnection`; `none` is a panic. -/
def closeClient (c : Client) : Option Client :=
  match c.sendCh with
  | none => some { c with closed := true, phase := .gone }
  | some ch => ch.close.map fun ch => { c with sendCh := some ch, closed := true, phase := .gone }

inductive Act where
  /-- `SUBSCRIBE` enters `handleSubscribeLoop`. -/
  | start (cl : Nat)
  | subscribe (cl : Nat) (channel : Bytes)
  | unsubscribe (cl : Nat) (channel : Bytes)
  | leave (cl : Nat)
  | close (cl : Nat)
  | receive (cl : Nat)
  | write (cl : Nat) (fails : Bool)
  | publish (channel message : Bytes)
  | turn (p cl : Nat)
  | done (p : Nat)

def step (h : Hub) : Act → Option Hub
  | .start cl =>
    if (h.clients cl).phase = .serving then some (h.setClient cl (startPubSubPump (h.clients cl))) else none
  | .subscribe cl ch =>
    if (h.clients cl).phase = .subscribing ∧ h.Unlocked then some (subscribe h ch cl).1 else none
  | .unsubscribe cl ch =>
    if (h.clients cl).phase = .subscribing ∧ h.Unlocked then some (unsubscribe h ch cl).1 else none
  | .leave cl =>
    if ((h.clients cl).phase = .serving ∨ (h.clients cl).phase = .subscribing) ∧ h.Unlocked then
      some (unsubscribeAll h cl)
    else none
  | .close cl =>
    if (h.clients cl).phase = .left then
      match closeClient (h.clients cl) with
      | some c => some (h.setClient cl c)
      | none => some { h with panicked := true }
    else none
  | .receive cl => (receive (h.clients cl)).map (h.setClient cl)
  | .write cl fails => (write (h.clients cl) fails).map (h.setClient cl)
  | .publish channel message =>
    match h.subs channel with
    | none => some h
    | some set =>
      if set = ∅ then some h
      else some { h with
        publishing := Function.update h.publishing h.next (some ⟨channel, message, set, 0, ∅, ∅⟩)
        next := h.next + 1 }
  | .turn p cl =>
    match h.publishing p with
    | none => none
    | some q =>
      if cl ∈ q.todo then
        match turn q cl (h.clients cl) with
        | some (c, q) => some { h.setClient cl c with publishing := Function.update h.publishing p (some q) }
        | none => some { h with panicked := true }
      else none
  | .done p =>
    match h.publishing p with
    | some q => if q.todo = ∅ then some { h with publishing := Function.update h.publishing p none } else none
    | none => none

def Client.queue (c : Client) : List Bytes := (c.sendCh.map Chan.buf).getD []

def Hub.members (h : Hub) (channel : Bytes) : Finset Nat := (h.subs channel).getD ∅

/-- A connection subscribes only while its channel is open, and it leaves every set before it closes. -/
structure Client.Fine (c : Client) : Prop where
  idle : c.phase ≠ .subscribing → c.subs = ∅
  unclosed : c.phase ≠ .gone → c.closed = false ∧ ∀ ch, c.sendCh = some ch → ch.closed = false
  unpumped : c.phase = .serving → c.sendCh = none
  pumped : c.phase = .subscribing → ∃ ch, c.sendCh = some ch
  room : ∀ ch, c.sendCh = some ch → ch.cap = 128
  written : c.written <+: c.accepted
  busy : c.inHand ≠ none → c.failed = false
  queued : c.failed = false → c.written ++ (c.inHand.toList ++ c.queue) = c.accepted

/-- A publish among the subscribers of its channel. -/
structure Publish.Account (q : Publish) (members : Finset Nat) : Prop where
  split : ∀ cl, cl ∈ members ↔ cl ∈ q.todo ∨ cl ∈ q.took ∨ cl ∈ q.full
  fresh : ∀ cl ∈ q.todo, cl ∉ q.took ∧ cl ∉ q.full
  apart : ∀ cl ∈ q.took, cl ∉ q.full
  delivered : q.delivered = q.took.card

structure Inv (h : Hub) : Prop where
  mirror : ∀ channel cl, cl ∈ h.members channel ↔ channel ∈ (h.clients cl).subs
  nonempty : ∀ channel, h.subs channel ≠ some ∅
  fine : ∀ cl, (h.clients cl).Fine
  calm : h.panicked = false
  publish : ∀ p q, h.publishing p = some q → p < h.next ∧ q.Account (h.members q.channel)

theorem Client.Fine.subscribing {c : Client} (hc : c.Fine) {channel : Bytes} (hs : channel ∈ c.subs) :
    c.phase = .subscribing := by
  by_contra hne
  rw [hc.idle hne] at hs
  exact Finset.notMem_empty _ hs

theorem mem_drop {cl x : Nat} {set : Option (Finset Nat)} :
    x ∈ (drop cl set).getD ∅ ↔ x ∈ set.getD ∅ ∧ x ≠ cl := by
  cases set with
  | none => simp [drop]
  | some set =>
    by_cases he : set.erase cl = ∅
    · have hnone : x ∉ set.erase cl := by simp [he]
      simpa [drop, he] using fun hx => by_contra fun hne => hnone (Finset.mem_erase.mpr ⟨hne, hx⟩)
    · simp [drop, he, and_comm]

theorem drop_ne_empty (cl : Nat) (set : Option (Finset Nat)) : drop cl set ≠ some ∅ := by
  cases set with
  | none => simp [drop]
  | some set => by_cases he : set.erase cl = ∅ <;> simp [drop, he]

section
variable {h : Hub} {cl : Nat} {c : Client}

/-- One connection changes, and the sets it is in; under the lock for writing no publish is under way. -/
theorem Inv.change (hi : Inv h) {subs : Bytes → Option (Finset Nat)} (hf : c.Fine)
    (hlock : subs = h.subs ∨ h.Unlocked) (hne : ∀ channel, subs channel ≠ some ∅)
    (hmem : ∀ channel x, x ∈ (subs channel).getD ∅ ↔ if x = cl then channel ∈ c.subs else x ∈ h.members channel) :
    Inv ({ h with subs }.setClient cl c) where
  mirror channel x := by
    rw [Hub.members, Hub.setClient, hmem]
    by_cases hx : x = cl
    · subst hx
      simp
    · simpa [hx] using hi.mirror channel x
  nonempty := hne
  fine := (Function.forall_update_iff _ fun _ (c : Client) => c.Fine).mpr ⟨hf, fun x _ => hi.fine x⟩
  calm := hi.calm
  publish p q hq := by
    rcases hlock with rfl | hu
    · exact hi.publish p q hq
    · have hnone := hu p (hi.publish p q hq).1
      cases hnone.symm.trans hq

theorem Inv.setClient (hi : Inv h) (hf : c.Fine) (hsubs : c.subs = (h.clients cl).subs) : Inv (h.setClient cl c) := by
  refine hi.change hf (.inl rfl) hi.nonempty fun channel x => ?_
  split
  · rename_i hx
    rw [hsubs, ← hi.mirror, hx, Hub.members]
  · rfl

/-- `subscribe` and `unsubscribe`: the set of one channel changes, and that channel for one connection. -/
theorem Inv.relink (hi : Inv h) (hu : h.Unlocked) (hphase : (h.clients cl).phase = .subscribing)
    {channel : Bytes} {set : Option (Finset Nat)} {own : Finset Bytes} (hne : set ≠ some ∅)
    (hset : ∀ x, x ∈ set.getD ∅ ↔ if x = cl then channel ∈ own else x ∈ h.members channel)
    (hown : ∀ ch, ch ≠ channel → (ch ∈ own ↔ ch ∈ (h.clients cl).subs)) :
    Inv ({ h with subs := Function.update h.subs channel set }.setClient cl { h.clients cl with subs := own }) := by
  refine hi.change { hi.fine cl with idle := fun hne => absurd hphase hne } (.inr hu) ?_ fun ch x => ?_
  · exact (Function.forall_update_iff _ fun _ set => set ≠ some ∅).mpr ⟨hne, fun x _ => hi.nonempty x⟩
  · by_cases hch : ch = channel
    · subst hch
      simpa using hset x
    · rw [Function.update_of_ne hch, hown ch hch, ← hi.mirror ch cl]
      split
      · rename_i hx
        rw [hx, Hub.members]
      · rfl

theorem Inv.subscribe (hi : Inv h) (hu : h.Unlocked) (hphase : (h.clients cl).phase = .subscribing)
    (channel : Bytes) : Inv (subscribe h channel cl).1 := by
  refine hi.relink hu hphase (by simp) (fun x => ?_) fun ch hch => by simp [hch]
  by_cases hx : x = cl <;> simp [hx, Hub.members]

theorem Inv.unsubscribe (hi : Inv h) (hu : h.Unlocked) (hphase : (h.clients cl).phase = .subscribing)
    (channel : Bytes) : Inv (unsubscribe h channel cl).1 := by
  refine hi.relink hu hphase (drop_ne_empty _ _) (fun x => ?_) fun ch hch => by simp [hch]
  by_cases hx : x = cl <;> simp [hx, mem_drop, Hub.members]

theorem Inv.unsubscribeAll (hi : Inv h) (hu : h.Unlocked)
    (hphase : (h.clients cl).phase = .serving ∨ (h.clients cl).phase = .subscribing) : Inv (unsubscribeAll h cl) := by
  have hopen := (hi.fine cl).unclosed (by rcases hphase with h | h <;> rw [h] <;> decide)
  have hf : { h.clients cl with subs := ∅, phase := .left }.Fine :=
    { hi.fine cl with idle := fun _ => rfl, unclosed := fun _ => hopen, unpumped := nofun, pumped := nofun }
  refine hi.change hf (.inr hu) (fun ch => ?_) fun ch x => ?_
  · split
    · exact drop_ne_empty _ _
    · exact hi.nonempty ch
  · by_cases hx : x = cl
    · subst hx
      by_cases hch : ch ∈ (h.clients x).subs
      · simp [hch, mem_drop]
      · simpa [hch, Hub.members] using mt (hi.mirror ch x).mp hch
    · split <;> simp [hx, mem_drop, Hub.members]

theorem Client.Fine.start (hc : c.Fine) (hphase : c.phase = .serving) : (startPubSubPump c).Fine where
  idle hne := absurd rfl hne
  unclosed _ := ⟨(hc.unclosed (by rw [hphase]; decide)).1, by rintro ch ⟨⟩; rfl⟩
  unpumped := nofun
  pumped _ := ⟨_, rfl⟩
  room := by
    rintro ch ⟨⟩
    rfl
  written := hc.written
  busy := hc.busy
  queued := by simpa [queue, startPubSubPump, Chan.make, hc.unpumped hphase] using hc.queued

theorem Client.Fine.receive (hc : c.Fine) {c' : Client} (hp : receive c = some c') : c'.Fine ∧ c'.subs = c.subs := by
  unfold PubSub.receive at hp
  split at hp
  · rename_i m ch hfailed hhand hrecv
    obtain ⟨k, hk, hkm⟩ := Option.map_eq_some_iff.mp hrecv
    obtain ⟨hbuf, hch⟩ := Chan.recv_eq_value hkm
    have hqueued := hc.queued hfailed
    simp only [queue, hk, hhand, hbuf, Option.map_some, Option.getD_some] at hqueued
    cases hp
    refine ⟨{ hc with
      unclosed := fun hp => ⟨(hc.unclosed hp).1, ?_⟩
      unpumped := fun hp => ?_
      pumped := fun _ => ⟨_, rfl⟩
      room := ?_
      busy := fun _ => hfailed
      queued := fun _ => hqueued }, rfl⟩
    · rintro _ ⟨⟩
      rw [hch]
      exact (hc.unclosed hp).2 k hk
    · rw [hc.unpumped hp] at hk
      cases hk
    · rintro _ ⟨⟩
      rw [hch]
      exact hc.room k hk
  · cases hp

theorem Client.Fine.write (hc : c.Fine) {fails : Bool} {c' : Client} (hp : write c fails = some c') :
    c'.Fine ∧ c'.subs = c.subs := by
  obtain ⟨m, hhand, rfl⟩ := Option.map_eq_some_iff.mp hp
  have hqueued := hc.queued (hc.busy (by simp [hhand]))
  rw [hhand, Option.toList_some, ← List.append_assoc] at hqueued
  refine ⟨{ hc with written := ?_, busy := fun hne => absurd rfl hne, queued := ?_ }, rfl⟩
  · cases fails with
    | true => exact hc.written
    | false => exact ⟨c.queue, hqueued⟩
  · rintro rfl
    exact hqueued

theorem Client.Fine.close (hc : c.Fine) (hphase : c.phase = .left) :
    ∃ c', closeClient c = some c' ∧ c'.Fine ∧ c'.subs = c.subs := by
  have hclose : ∃ ch, closeClient c = some { c with sendCh := ch, closed := true, phase := .gone } ∧
      ch.map Chan.buf = c.sendCh.map Chan.buf ∧ ∀ k, ch = some k → k.cap = 128 := by
    cases hch : c.sendCh with
    | none => exact ⟨none, by simp [closeClient, hch], rfl, nofun⟩
    | some ch =>
      have hopen := (hc.unclosed (by rw [hphase]; decide)).2 ch hch
      refine ⟨some { ch with closed := true }, by simp [closeClient, hch, Chan.close, hopen], rfl, ?_⟩
      rintro _ ⟨⟩
      exact hc.room ch hch
  obtain ⟨ch, hclose, hbuf, hroom⟩ := hclose
  refine ⟨_, hclose, ⟨fun _ => hc.idle (by rw [hphase]; decide), fun hp => absurd rfl hp, nofun, nofun, hroom,
    hc.written, hc.busy, ?_⟩, rfl⟩
  simpa [queue, hbuf] using hc.queued

/-- A subscriber takes the message of its turn, or its queue is full. -/
theorem Client.Fine.turn (hc : c.Fine) {q : Publish} {members : Finset Nat} (ha : q.Account members)
    (hcl : cl ∈ q.todo) (hs : q.channel ∈ c.subs) :
    ∃ c' q', turn q cl c = some (c', q') ∧ (c'.Fine ∧ c'.subs = c.subs) ∧
      q'.channel = q.channel ∧ q'.Account members := by
  have hphase := hc.subscribing hs
  obtain ⟨ch, hch⟩ := hc.pumped hphase
  obtain ⟨hopen, hchan⟩ := hc.unclosed (by rw [hphase]; decide)
  obtain ⟨hfresh, hfull⟩ := ha.fresh cl hcl
  have hsplit : ∀ x, x ∈ members ↔ x ∈ q.todo.erase cl ∨ x = cl ∨ x ∈ q.took ∨ x ∈ q.full := by
    intro x
    rw [ha.split, Finset.mem_erase]
    by_cases hx : x = cl
    · simp [hx, hcl]
    · simp [hx]
  simp only [PubSub.turn, hopen, hch, Chan.send, hchan ch hch, hc.room ch hch, Bool.false_eq_true, if_false]
  -- The two branches of the select: the queue has room, or it is full.
  by_cases hroom : ch.buf.length < 128
  · simp only [hroom, if_true]
    refine ⟨_, _, rfl, ⟨⟨hc.idle, fun _ => ⟨rfl, ?_⟩, fun hp => ?_, fun _ => ⟨_, rfl⟩, ?_, ?_, hc.busy,
      fun hf => ?_⟩, rfl⟩, rfl, ?_⟩
    · rintro _ ⟨⟩
      rfl
    · cases hphase.symm.trans hp
    · rintro _ ⟨⟩
      rfl
    · exact hc.written.trans (List.prefix_append _ _)
    · simp [← hc.queued hf, queue, hch]
    · refine ⟨fun x => by rw [hsplit, Finset.mem_insert, or_assoc], fun x hx => ?_, fun x hx => ?_, ?_⟩
      · obtain ⟨hne, hx⟩ := Finset.mem_erase.mp hx
        exact ⟨by simpa [hne] using (ha.fresh x hx).1, (ha.fresh x hx).2⟩
      · rcases Finset.mem_insert.mp hx with rfl | hx
        · exact hfull
        · exact ha.apart x hx
      · rw [Finset.card_insert_of_notMem hfresh, ha.delivered]
  · simp only [hroom, if_false]
    refine ⟨_, _, rfl, ⟨hc, rfl⟩, rfl, fun x => ?_, fun x hx => ?_, fun x hx => ?_, ha.delivered⟩
    · rw [hsplit, Finset.mem_insert]
      tauto
    · obtain ⟨hne, hx⟩ := Finset.mem_erase.mp hx
      exact ⟨(ha.fresh x hx).1, by simpa [hne] using (ha.fresh x hx).2⟩
    · have hne : x ≠ cl := fun h => hfresh (h ▸ hx)
      simpa [hne] using ha.apart x hx

/-- One publish changes, or a new one begins. -/
theorem Inv.setPublish (hi : Inv h) {p next : Nat} {v : Option Publish} (hnext : h.next ≤ next)
    (hv : ∀ q, v = some q → p < next ∧ q.Account (h.members q.channel)) :
    Inv { h with publishing := Function.update h.publishing p v, next } :=
  { hi with
    publish := (Function.forall_update_iff _
      fun x v => ∀ q, v = some q → x < next ∧ q.Account (h.members q.channel)).mpr
      ⟨hv, fun x _ q hq => ⟨(hi.publish x q hq).1.trans_le hnext, (hi.publish x q hq).2⟩⟩ }

theorem inv_new : Inv newPubSubHub where
  mirror := by simp [newPubSubHub, newClient, Hub.members]
  nonempty := nofun
  fine _ := ⟨fun _ => rfl, fun _ => ⟨rfl, nofun⟩, fun _ => rfl, nofun, nofun, List.prefix_rfl, fun _ => rfl, fun _ => rfl⟩
  calm := rfl
  publish := nofun

theorem Inv.step (hi : Inv h) {a : Act} {h' : Hub} (hs : step h a = some h') : Inv h' := by
  cases a with
  | start cl =>
    obtain ⟨hphase, ⟨⟩⟩ := Option.ite_none_right_eq_some.mp hs
    exact hi.setClient ((hi.fine cl).start hphase) rfl
  | subscribe cl channel =>
    obtain ⟨⟨hphase, hu⟩, ⟨⟩⟩ := Option.ite_none_right_eq_some.mp hs
    exact hi.subscribe hu hphase channel
  | unsubscribe cl channel =>
    obtain ⟨⟨hphase, hu⟩, ⟨⟩⟩ := Option.ite_none_right_eq_some.mp hs
    exact hi.unsubscribe hu hphase channel
  | leave cl =>
    obtain ⟨⟨hphase, hu⟩, ⟨⟩⟩ := Option.ite_none_right_eq_some.mp hs
    exact hi.unsubscribeAll hu hphase
  | close cl =>
    obtain ⟨hphase, hs⟩ := Option.ite_none_right_eq_some.mp hs
    obtain ⟨c, hc, hf, hsubs⟩ := (hi.fine cl).close hphase
    rw [hc] at hs
    cases hs
    exact hi.setClient hf hsubs
  | receive cl =>
    obtain ⟨c, hc, rfl⟩ := Option.map_eq_some_iff.mp hs
    obtain ⟨hf, hsubs⟩ := (hi.fine cl).receive hc
    exact hi.setClient hf hsubs
  | write cl fails =>
    obtain ⟨c, hc, rfl⟩ := Option.map_eq_some_iff.mp hs
    obtain ⟨hf, hsubs⟩ := (hi.fine cl).write hc
    exact hi.setClient hf hsubs
  | publish channel message =>
    simp only [PubSub.step] at hs
    split at hs
    · cases hs
      exact hi
    · rename_i set hset
      split at hs <;> cases hs
      · exact hi
      · refine hi.setPublish (Nat.le_succ _) ?_
        rintro _ ⟨⟩
        exact ⟨Nat.lt_succ_self _, by simp [Hub.members, hset], by simp, by simp, rfl⟩
  | turn p cl =>
    simp only [PubSub.step] at hs
    split at hs
    · cases hs
    · rename_i q hq
      obtain ⟨hcl, hs⟩ := Option.ite_none_right_eq_some.mp hs
      obtain ⟨hp, ha⟩ := hi.publish p q hq
      have hsub := (hi.mirror q.channel cl).mp ((ha.split cl).mpr (.inl hcl))
      obtain ⟨c, q', hturn, ⟨hf, hsubs⟩, hchannel, ha'⟩ := (hi.fine cl).turn ha hcl hsub
      rw [hturn] at hs
      cases hs
      refine (hi.setClient hf hsubs).setPublish le_rfl ?_
      rintro _ ⟨⟩
      rw [hchannel]
      exact ⟨hp, ha'⟩
  | done p =>
    simp only [PubSub.step] at hs
    split at hs
    · obtain ⟨-, ⟨⟩⟩ := Option.ite_none_right_eq_some.mp hs
      exact hi.setPublish le_rfl nofun
    · cases hs

theorem inv_run {acts : List Act} (hr : run step newPubSubHub acts = some h) : Inv h := by
  have hg : Guarded step (fun _ _ => True) newPubSubHub acts := guarded_of_forall (fun _ _ _ => trivial) _
  exact run_invariant (fun hi _ hs => hi.step hs) inv_new hg hr

end

/-- **The sets of the hub and of the connections mirror each other** in every reachable state. No channel
keeps an empty set, every subscriber has an open queue, and nothing ever panics. -/
theorem subscriptions_mirror {acts : List Act} {h : Hub} (hr : run step newPubSubHub acts = some h) :
    (∀ channel cl, cl ∈ h.members channel ↔ channel ∈ (h.clients cl).subs) ∧
    (∀ channel, h.subs channel ≠ some ∅) ∧
    (∀ channel cl, cl ∈ h.members channel → (h.clients cl).closed = false ∧
      ∃ ch, (h.clients cl).sendCh = some ch ∧ ch.closed = false) ∧
    h.panicked = false := by
  have hi := inv_run hr
  refine ⟨hi.mirror, hi.nonempty, fun channel cl hcl => ?_, hi.calm⟩
  have hphase := (hi.fine cl).subscribing ((hi.mirror channel cl).mp hcl)
  obtain ⟨hopen, hchan⟩ := (hi.fine cl).unclosed (by rw [hphase]; decide)
  obtain ⟨ch, hch⟩ := (hi.fine cl).pumped hphase
  exact ⟨hopen, ch, hch, hchan ch hch⟩

/-- Two connections subscribe to one channel, and a publish comes to the end of its loop. -/
def twoSubscribers : List Act :=
  [.start 0, .start 1, .subscribe 0 [97], .subscribe 1 [97], .publish [97] [104], .turn 0 1, .turn 0 0]

theorem subscriptions_mirror_leave :
    ∃ h, run step newPubSubHub (twoSubscribers ++ [.done 0, .receive 0, .write 0 false, .leave 1, .close 1]) = some h ∧
      h.members [97] = {0} ∧ h.panicked = false := by
  obtain ⟨h, hr, hm⟩ := @exists_of_any _
    (run step newPubSubHub (twoSubscribers ++ [.done 0, .receive 0, .write 0 false, .leave 1, .close 1]))
    (fun h => h.members [97] = {0}) (by decide +kernel)
  exact ⟨h, hr, of_decide_eq_true hm, (subscriptions_mirror hr).2.2.2⟩

/-- **A publish misses only full queues**: when its loop ends, every connection that is subscribed took the
message or had a full queue, and those that took it are counted. A pump writes what its queue took, in
order, and what is not written yet is in its hand or in the queue, unless a write fails. -/
theorem publish_reaches_subscribers {acts : List Act} {h : Hub} (hr : run step newPubSubHub acts = some h) :
    (∀ p q, h.publishing p = some q → q.todo = ∅ →
      (∀ cl, q.channel ∈ (h.clients cl).subs ↔ cl ∈ q.took ∨ cl ∈ q.full) ∧
      Disjoint q.took q.full ∧ q.delivered = q.took.card) ∧
    ∀ cl, (h.clients cl).written <+: (h.clients cl).accepted ∧
      ((h.clients cl).failed = false →
        (h.clients cl).written ++ ((h.clients cl).inHand.toList ++ (h.clients cl).queue) =
          (h.clients cl).accepted) := by
  have hi := inv_run hr
  refine ⟨fun p q hq hdone => ?_, fun cl => ⟨(hi.fine cl).written, (hi.fine cl).queued⟩⟩
  obtain ⟨-, ha⟩ := hi.publish p q hq
  refine ⟨fun cl => ?_, Finset.disjoint_left.mpr fun cl => ha.apart cl, ha.delivered⟩
  rw [← hi.mirror, ha.split, hdone]
  simp

theorem publish_reaches_subscribers_two :
    ∃ h q, run step newPubSubHub twoSubscribers = some h ∧ h.publishing 0 = some q ∧ q.todo = ∅ ∧
      q.delivered = q.took.card := by
  obtain ⟨h, hr, hq⟩ := @exists_of_any _ (run step newPubSubHub twoSubscribers)
    (fun h => (h.publishing 0).any fun q => q.todo = ∅) (by decide +kernel)
  obtain ⟨q, hq, hdone⟩ := exists_of_any hq
  exact ⟨h, q, hr, hq, of_decide_eq_true hdone,
    ((publish_reaches_subscribers hr).1 0 q hq (of_decide_eq_true hdone)).2.2⟩

end PubSub
end AkwaDB
