import AkwaDB.Cluster.Fsm

/-!
# AkwaDB.Cluster.Snapshot

Snapshots of the state machine.

`Snapshot` returns a reference to the engine. `Persist`, which runs while further commands are applied, opens
its iterators, reads key after key, and writes each with its value and expiry; the iterators see what is
written meanwhile, so a key is as it was at some moment since they were opened. `Restore` empties the engine
of a node and writes the entries to it, and Raft applies the log from the snapshot on.

- `restore_persisted`: what was written is read.
- `snapshot_restores`: while nothing has changed since `Snapshot` when the iterators are opened, and no key when
  it is read, a node that is restored and applies the rest of the log shows what a node shows that applied all
  of it.
- `snapshot_applies_twice`: otherwise a command may be in the snapshot and be applied again.
-/

namespace AkwaDB

namespace Repl

def entryHeader (kLen vLen : Nat) (expiresAt : Int64) : Bytes :=
  bePut 4 kLen ++ bePut 4 vLen ++ bePut 8 expiresAt.toUInt64.toNat

@[simp] theorem entryHeader_length (kLen vLen : Nat) (expiresAt : Int64) :
    (entryHeader kLen vLen expiresAt).length = 16 := by
  simp [entryHeader]

theorem entryHeader_fields {kLen vLen : Nat} (hk : kLen < 256 ^ 4) (hv : vLen < 256 ^ 4) (expiresAt : Int64)
    (rest : Bytes) :
    let bs := entryHeader kLen vLen expiresAt ++ rest
    beGet (bs.take 4) = kLen ∧ beGet ((bs.drop 4).take 4) = vLen ∧
      (UInt64.ofNat (beGet ((bs.drop 8).take 8))).toInt64 = expiresAt := by
  intro bs
  have hbs : bs = bePut 4 kLen ++ (bePut 4 vLen ++ (bePut 8 expiresAt.toUInt64.toNat ++ rest)) := by
    simp only [bs, entryHeader, List.append_assoc]
  have h4 : bs.drop 4 = bePut 4 vLen ++ (bePut 8 expiresAt.toUInt64.toNat ++ rest) := by
    rw [hbs, List.drop_left' (bePut_length _ _)]
  have h8 : bs.drop 8 = bePut 8 expiresAt.toUInt64.toNat ++ rest := by
    rw [show 8 = 4 + 4 from rfl, ← List.drop_drop, h4, List.drop_left' (bePut_length _ _)]
  refine ⟨?_, ?_, ?_⟩
  · rw [hbs, List.take_left' (bePut_length _ _), beGet_bePut_of_lt hk]
  · rw [h4, List.take_left' (bePut_length _ _), beGet_bePut_of_lt hv]
  · rw [h8, List.take_left' (bePut_length _ _), ofNat_beGet_bePut, Int64.toInt64_toUInt64]

end Repl

namespace Cluster

open Keyspace (Agree)
open Repl (applyBatchEntry entryHeader entryHeader_fields entryHeader_length)
open Server
open Wal (BatchWriteEntry)

def snapshotMagic : Bytes := [65, 75, 87, 83]

def snapshotVersion : UInt8 := 1

def snapshotEntryHdrSize : Nat := 17

def maxSnapshotFieldSize : Nat := 1073741824

def entryBytes (b : BatchWriteEntry) : Bytes :=
  (if b.deleted then Wal.opDelete else Wal.opPut) ::
    (entryHeader b.key.length b.value.length b.expiresAt ++ (b.key ++ b.value))

def persistBytes (entries : List BatchWriteEntry) : Bytes :=
  snapshotMagic ++ snapshotVersion :: entries.flatMap entryBytes

inductive RestoreError where
  | header
  | invalidMagic
  | version
  | unsupportedVersion
  | entryHeader
  | oversizedField
  | key
  | value
  deriving DecidableEq

def readEntry (bs : Bytes) : Except RestoreError (BatchWriteEntry × Bytes) :=
  if bs.length < snapshotEntryHdrSize then .error .entryHeader
  else
    let rest := bs.drop 1
    let kLen := beGet (rest.take 4)
    let vLen := beGet ((rest.drop 4).take 4)
    let expiresAt := (UInt64.ofNat (beGet ((rest.drop 8).take 8))).toInt64
    if maxSnapshotFieldSize < kLen ∨ maxSnapshotFieldSize < vLen then .error .oversizedField
    else if rest.length < 16 + kLen then .error .key
    else if rest.length < 16 + kLen + vLen then .error .value
    else .ok (⟨(rest.drop 16).take kLen, (rest.drop (16 + kLen)).take vLen, expiresAt, bs.head? == some Wal.opDelete⟩,
      rest.drop (16 + kLen + vLen))

/-- The entries up to the end or to the first error. -/
def readEntries : Nat → Bytes → List BatchWriteEntry × Option RestoreError
  | 0, _ => ([], none)
  | fuel + 1, bs =>
    if bs.isEmpty then ([], none)
    else
      match readEntry bs with
      | .error e => ([], some e)
      | .ok (b, rest) =>
        let (entries, err) := readEntries fuel rest
        (b :: entries, err)

def restoreBatchSize : Nat := 1000

/-- At an error the batch that is not full is not applied. -/
def restore (bytes : Bytes) : DbM (Except RestoreError Unit) :=
  if bytes.length < 4 then return .error .header
  else if bytes.take 4 ≠ snapshotMagic then return .error .invalidMagic
  else
    match bytes.drop 4 with
    | [] => return .error .version
    | version :: body =>
      if version ≠ snapshotVersion then return .error .unsupportedVersion
      else do
        modify Node.clear
        match readEntries body.length body with
        | (entries, none) => do
          submitChunks restoreBatchSize entries.length entries
          return .ok ()
        | (entries, some e) => do
          submitChunks restoreBatchSize entries.length
            (entries.take (restoreBatchSize * (entries.length / restoreBatchSize)))
          return .error e

def Sized (b : BatchWriteEntry) : Prop :=
  b.key.length ≤ maxSnapshotFieldSize ∧ b.value.length ≤ maxSnapshotFieldSize

theorem readEntry_entryBytes {b : BatchWriteEntry} (h : Sized b) (rest : Bytes) :
    readEntry (entryBytes b ++ rest) = .ok (b, rest) := by
  obtain ⟨hk, hv⟩ := h
  have hsmall : maxSnapshotFieldSize < 256 ^ 4 := by decide
  have hbytes : entryBytes b ++ rest = (if b.deleted then Wal.opDelete else Wal.opPut) ::
      (entryHeader b.key.length b.value.length b.expiresAt ++ (b.key ++ (b.value ++ rest))) := by
    simp only [entryBytes, List.cons_append, List.append_assoc]
  generalize htail : entryHeader b.key.length b.value.length b.expiresAt ++ (b.key ++ (b.value ++ rest)) = tail
    at hbytes
  obtain ⟨f0, f4, f8⟩ := @entryHeader_fields b.key.length b.value.length (by omega) (by omega) b.expiresAt
    (b.key ++ (b.value ++ rest))
  rw [htail] at f0 f4 f8
  have hlen : tail.length = 16 + b.key.length + b.value.length + rest.length := by
    rw [← htail]
    simp only [List.length_append, entryHeader_length]
    omega
  have h16 : tail.drop 16 = b.key ++ (b.value ++ rest) := by
    rw [← htail, List.drop_left' (entryHeader_length ..)]
  have hval : tail.drop (16 + b.key.length) = b.value ++ rest := by
    rw [← List.drop_drop, h16, List.drop_left]
  have hrest : tail.drop (16 + b.key.length + b.value.length) = rest := by
    rw [← List.drop_drop, hval, List.drop_left]
  have hop : (some (if b.deleted then Wal.opDelete else Wal.opPut) == some Wal.opDelete) = b.deleted := by
    cases b.deleted <;> decide
  rw [hbytes, readEntry, if_neg (by simp only [List.length_cons, snapshotEntryHdrSize]; omega)]
  simp only [List.drop_one, List.tail_cons, f0, f4, f8, h16, hval, hrest, List.take_left, List.head?_cons, hop]
  rw [if_neg (by omega), if_neg (by omega), if_neg (by omega)]

theorem readEntries_entryBytes {entries : List BatchWriteEntry} (h : ∀ b ∈ entries, Sized b) {fuel : Nat}
    (hfuel : entries.length ≤ fuel) : readEntries fuel (entries.flatMap entryBytes) = (entries, none) := by
  induction entries generalizing fuel with
  | nil => cases fuel <;> rfl
  | cons b entries ih =>
    cases fuel with
    | zero => cases hfuel
    | succ fuel =>
      have hne : (entryBytes b ++ entries.flatMap entryBytes).isEmpty = false := rfl
      rw [List.flatMap_cons, readEntries, hne, readEntry_entryBytes (h b (by simp))]
      simp only [Bool.false_eq_true, if_false]
      rw [ih (fun c hc => h c (by simp [hc])) (Nat.le_of_succ_le_succ hfuel)]

theorem length_le_entryBytes (entries : List BatchWriteEntry) :
    entries.length ≤ (entries.flatMap entryBytes).length := by
  induction entries with
  | nil => exact Nat.le_refl _
  | cons b entries ih =>
    rw [List.flatMap_cons, List.length_append, List.length_cons, entryBytes, List.length_cons]
    omega

/-- **What was persisted is restored**, on whatever node. -/
theorem restore_persisted {entries : List BatchWriteEntry} (h : ∀ b ∈ entries, Sized b) (r : Node) :
    ((restore (persistBytes entries)).run r).1 = .ok () ∧
      ((restore (persistBytes entries)).run r).2.now = r.now ∧
      ((restore (persistBytes entries)).run r).2.db = entries.foldl applyBatchEntry fun _ => none := by
  have hrun : (restore (persistBytes entries)).run r =
      (.ok (), ((submitChunks restoreBatchSize entries.length entries).run r.clear).2) := by
    have hlen : ¬(persistBytes entries).length < 4 := by
      simp [persistBytes, snapshotMagic]
    have hbody : readEntries (entries.flatMap entryBytes).length (entries.flatMap entryBytes) = (entries, none) :=
      readEntries_entryBytes h (length_le_entryBytes entries)
    unfold restore
    rw [if_neg hlen, if_neg (fun hne => hne rfl)]
    show StateT.run (if snapshotVersion ≠ snapshotVersion then _ else _) r = _
    rw [if_neg (fun hne => hne rfl), hbody]
    rfl
  rw [hrun]
  obtain ⟨hdb, hnow⟩ := @submitChunks_run restoreBatchSize (by decide) entries.length entries (Nat.le_refl _) r.clear
  exact ⟨rfl, hnow, hdb⟩

def streamed (now : Int) (key : Bytes) : Option Item → List BatchWriteEntry
  | none => [tombstone key]
  | some i => if i.expired now then [] else [⟨key, i.value, Int64.ofInt i.expiresAt, false⟩]

inductive Phase where
  | taken
  /-- The time of the call, the node at every moment since, the latest first, and the keys passed. -/
  | streaming (now : Int) (moments : List Node) (visited : List Bytes) (out : List BatchWriteEntry)
  | persisted (now : Int) (bytes : Bytes)

structure Job where
  node : Node
  phase : Phase

inductive JobAct where
  | apply (c : RaftCommand)
  | own (l : Local)
  | start
  /-- The iterators are at this key and show it as it was at one of the moments. -/
  | visit (key : Bytes) (moment : Nat)
  | close

def Job.become (j : Job) (n : Node) : Job where
  node := n
  phase :=
    match j.phase with
    | .streaming now moments visited out => .streaming now (n :: moments) visited out
    | phase => phase

/-- The keys come in order, and none that was there at the start is left out but the empty one. -/
def jobStep (rt : Runtime) : Job → JobAct → Option Job
  | j, .apply c => some (j.become ((fsmApply rt c).run j.node).2)
  | j, .own l => some (j.become (l.step j.node))
  | ⟨n, .taken⟩, .start => some ⟨n, .streaming n.now [n] [] []⟩
  | ⟨n, .streaming now moments visited out⟩, .visit key moment =>
    moments[moment]?.bind fun m =>
      if key ≠ [] ∧ (∀ k ∈ visited, k < key) ∧ key ∈ m.log.map Entry.key then
        some ⟨n, .streaming now moments (key :: visited) (out ++ streamed now key (m.db key))⟩
      else none
  | ⟨n, .streaming now moments visited out⟩, .close =>
    if ∀ first ∈ moments.getLast?, ∀ x ∈ first.log, x.key = [] ∨ x.key ∈ visited then
      some ⟨n, .persisted now (persistBytes out)⟩
    else none
  | _, _ => none

/-- Nothing shows another state than that of `Snapshot`, and the fields are not too large. -/
def Undisturbed (n : Node) (j : Job) : JobAct → Prop
  | .start => j.node.db.live j.node.now [] = none ∧
      ∀ x ∈ n.log ++ j.node.log, j.node.db.live j.node.now x.key = n.db.live j.node.now x.key
  | .visit key moment =>
    match j.phase with
    | .streaming now moments _ _ => ∀ m ∈ moments[moment]?, m.db.live now key = n.db.live now key ∧
        key.length ≤ maxSnapshotFieldSize ∧ ∀ i ∈ m.db key, i.value.length ≤ maxSnapshotFieldSize
    | _ => True
  | _ => True

instance (n : Node) (j : Job) (a : JobAct) : Decidable (Undisturbed n j a) := by
  unfold Undisturbed
  split
  · infer_instance
  · split <;> infer_instance
  · infer_instance

/-! ## What has been written -/

def upTo (visited : List Bytes) (db : Keyspace) : Keyspace := fun k => if k ∈ visited then db k else none

theorem upTo_cons (key : Bytes) (visited : List Bytes) (db : Keyspace) :
    upTo (key :: visited) db = Function.update (upTo visited db) key (db key) := by
  funext k
  by_cases hk : k = key
  · subst hk
    simp [upTo]
  · simp [upTo, hk]

theorem live_upTo_none {visited : List Bytes} {db : Keyspace} {now : Int} {k : Bytes} (h : db.live now k = none) :
    (upTo visited db).live now k = none := by
  unfold Keyspace.live upTo at *
  split
  · exact h
  · rfl

/-- What was written comes to the part of the database that was passed. -/
def Copied (now : Int) (n : Node) (visited : List Bytes) (out : List BatchWriteEntry) : Prop :=
  Agree now (out.foldl applyBatchEntry fun _ => none) (upTo visited n.db)

theorem copied_visit {now : Int} {n m : Node} {visited : List Bytes} {out : List BatchWriteEntry} {key : Bytes}
    (h : Copied now n visited out) (hkey : m.db.live now key = n.db.live now key) :
    Copied now n (key :: visited) (out ++ streamed now key (m.db key)) := by
  unfold Copied at *
  rw [List.foldl_append, upTo_cons]
  generalize out.foldl applyBatchEntry (fun _ => none) = db at h ⊢
  -- a key that is gone may be erased on both sides
  have hgone : n.db.live now key = none →
      Agree now ((upTo visited n.db).erase key) (Function.update (upTo visited n.db) key (n.db key)) := by
    intro hnone
    have hup : Keyspace.live (Function.update (upTo visited n.db) key (n.db key)) now key = none := by
      simpa [Keyspace.live] using hnone
    have herase := (Keyspace.agree_erase hup).symm
    rwa [Keyspace.erase, Function.update_idem] at herase
  cases hm : m.db key with
  | none =>
    have hnone : n.db.live now key = none := by rw [← hkey]; simp [Keyspace.live, hm]
    exact (h.erase key).trans (hgone hnone)
  | some i =>
    cases hexp : i.expired now with
    | true =>
      have hnone : n.db.live now key = none := by rw [← hkey]; simp [Keyspace.live, hm, hexp]
      simp only [streamed, hexp, if_true, List.foldl_nil]
      exact (h.trans (Keyspace.agree_erase (live_upTo_none hnone))).trans (hgone hnone)
    | false =>
      have hsome : n.db.live now key = some i := by rw [← hkey]; simp [Keyspace.live, hm, hexp]
      have hn : n.db key = some i := (Option.filter_eq_some_iff.mp hsome).1
      simp only [streamed, hexp, Bool.false_eq_true, if_false, List.foldl_cons, List.foldl_nil, applyBatchEntry,
        Node.db_sized hm, hn]
      exact h.putExAt key i.value i.expiresAt

theorem sized_streamed {now : Int} {key : Bytes} {item : Option Item} (hkey : key.length ≤ maxSnapshotFieldSize)
    (hval : ∀ i ∈ item, i.value.length ≤ maxSnapshotFieldSize) : ∀ b ∈ streamed now key item, Sized b := by
  intro b hb
  unfold streamed at hb
  split at hb
  · rw [List.mem_singleton.mp hb]
    exact ⟨hkey, Nat.zero_le _⟩
  · split at hb
    · cases hb
    · rw [List.mem_singleton.mp hb]
      exact ⟨hkey, hval _ rfl⟩

theorem live_none_of_not_mem {m : Node} {k : Bytes} (now : Int) (h : k ∉ m.log.map Entry.key) :
    m.db.live now k = none := by
  unfold Keyspace.live
  cases hk : m.db k with
  | none => rfl
  | some i => exact absurd (m.mem_log_of_db hk) h

theorem copied_all {now : Int} {n first : Node} {visited : List Bytes} {out : List BatchWriteEntry}
    (h : Copied now n visited out) (hfirst : ∀ k, first.db.live now k = n.db.live now k)
    (hempty : n.db.live now [] = none) (hall : ∀ x ∈ first.log, x.key = [] ∨ x.key ∈ visited) :
    Agree now (out.foldl applyBatchEntry fun _ => none) n.db := by
  refine h.trans fun t ht k => ?_
  by_cases hk : k ∈ visited
  · simp [Keyspace.live, upTo, hk]
  · have hnone : n.db.live now k = none := by
      by_cases hlog : k ∈ first.log.map Entry.key
      · obtain ⟨x, hx, rfl⟩ := List.mem_map.mp hlog
        rcases hall x hx with he | hv
        · rw [he]
          exact hempty
        · exact absurd hv hk
      · rw [← hfirst]
        exact live_none_of_not_mem now hlog
    rw [Keyspace.live_eq_none_mono ht hnone]
    exact live_upTo_none (Keyspace.live_eq_none_mono ht hnone)

/-- The iterators were opened on the state of `Snapshot`, and so far only that was written. -/
def JobInv (n : Node) (j : Job) : Prop :=
  match j.phase with
  | .taken => True
  | .streaming now moments visited out =>
    (∃ first ∈ moments.getLast?, ∀ k, first.db.live now k = n.db.live now k) ∧ n.db.live now [] = none ∧
      (∀ b ∈ out, Sized b) ∧ Copied now n visited out
  | .persisted now bytes => ∃ out, bytes = persistBytes out ∧ (∀ b ∈ out, Sized b) ∧
      Agree now (out.foldl applyBatchEntry fun _ => none) n.db

theorem jobInv_become {n m : Node} {j : Job} (h : JobInv n j) : JobInv n (j.become m) := by
  obtain ⟨node, phase⟩ := j
  cases phase with
  | taken => trivial
  | persisted now bytes => exact h
  | streaming now moments visited out =>
    obtain ⟨⟨first, hlast, hfirst⟩, hrest⟩ := h
    refine ⟨⟨first, ?_, hfirst⟩, hrest⟩
    rw [List.getLast?_cons, Option.mem_def.mp hlast]
    rfl

theorem jobInv_start {n m : Node} (h : Undisturbed n ⟨m, .taken⟩ .start) :
    JobInv n ⟨m, .streaming m.now [m] [] []⟩ := by
  obtain ⟨hempty, hkeys⟩ := h
  have hfirst : ∀ k, m.db.live m.now k = n.db.live m.now k := by
    intro k
    by_cases hk : k ∈ (n.log ++ m.log).map Entry.key
    · obtain ⟨x, hx, rfl⟩ := List.mem_map.mp hk
      exact hkeys x hx
    · rw [List.map_append, List.mem_append, not_or] at hk
      rw [live_none_of_not_mem _ hk.1, live_none_of_not_mem _ hk.2]
  refine ⟨⟨m, rfl, hfirst⟩, ?_, (fun b hb => by cases hb), ?_⟩
  · rw [← hfirst]
    exact hempty
  · exact fun t ht k => by simp [Keyspace.live, upTo]

theorem jobInv_step {rt : Runtime} {n : Node} {j j' : Job} {a : JobAct} (h : JobInv n j) (ha : Undisturbed n j a)
    (hs : jobStep rt j a = some j') : JobInv n j' := by
  obtain ⟨node, phase⟩ := j
  cases a with
  | apply c =>
    cases phase <;> cases hs <;> exact jobInv_become h
  | own l =>
    cases phase <;> cases hs <;> exact jobInv_become h
  | start =>
    cases phase with
    | taken =>
      cases hs
      exact jobInv_start ha
    | streaming now moments visited out => cases hs
    | persisted now bytes => cases hs
  | visit key moment =>
    cases phase with
    | taken => cases hs
    | persisted now bytes => cases hs
    | streaming now moments visited out =>
      obtain ⟨m, hm, hs⟩ := Option.bind_eq_some_iff.mp hs
      obtain ⟨hfirst, hempty, hsized, hcopied⟩ := h
      obtain ⟨hsame, hkey, hval⟩ := ha m hm
      split at hs
      · cases hs
        refine ⟨hfirst, hempty, ?_, copied_visit hcopied hsame⟩
        intro b hb
        rcases List.mem_append.mp hb with hb | hb
        · exact hsized b hb
        · exact sized_streamed hkey hval b hb
      · cases hs
  | close =>
    cases phase with
    | taken => cases hs
    | persisted now bytes => cases hs
    | streaming now moments visited out =>
      simp only [jobStep] at hs
      split at hs
      · rename_i hall
        cases hs
        obtain ⟨⟨first, hlast, hfirst⟩, hempty, hsized, hcopied⟩ := h
        exact ⟨out, rfl, hsized, copied_all hcopied hfirst hempty (hall first hlast)⟩
      · cases hs

/-- **A snapshot under which no key changed before it was read is of the moment it was taken at.** -/
theorem snapshot_restores {rt : Runtime} {n r : Node} {as : List JobAct} {j : Job} {now : Int} {bytes : Bytes}
    {log : List Act} {s : Nodes} (hg : Guarded (jobStep rt) (Undisturbed n) ⟨n, .taken⟩ as)
    (hr : run (jobStep rt) ⟨n, .taken⟩ as = some j) (hj : j.phase = .persisted now bytes) (hnow : now ≤ r.now)
    (hlog : Guarded (step rt) Steady ⟨n, ((restore bytes).run r).2⟩ log)
    (hs : run (step rt) ⟨n, ((restore bytes).run r).2⟩ log = some s) :
    ((restore bytes).run r).1 = .ok () ∧
      ∀ t, max s.left.now s.right.now ≤ t → ∀ k, s.left.db.live t k = s.right.db.live t k := by
  have hinit : JobInv n ⟨n, .taken⟩ := trivial
  have hinv : JobInv n j := run_invariant jobInv_step hinit hg hr
  unfold JobInv at hinv
  rw [hj] at hinv
  obtain ⟨out, rfl, hsized, hagree⟩ := hinv
  obtain ⟨hok, hclock, hdb⟩ := restore_persisted hsized r
  refine ⟨hok, ?_⟩
  have hsame : Same ⟨n, ((restore (persistBytes out)).run r).2⟩ := by
    show Agree (max n.now ((restore (persistBytes out)).run r).2.now) n.db ((restore (persistBytes out)).run r).2.db
    rw [hclock, hdb]
    exact hagree.symm.later (by omega)
  exact run_invariant same_step hsame hlog hs

def counting : Node :=
  ((Node.fresh 1000).applyAt 2 [⟨[115, 0, 107], [49], 0, false⟩]).applyAt 3 [⟨[115, 0, 106], [118], 1060, false⟩]

/-- `INCRBY` after its key has been passed. -/
theorem snapshot_restores_incrby :
    let k : Bytes := [115, 0, 107]
    let incrby : RaftCommand := .command .incrby [[107], [49]]
    let as : List JobAct := [.start, .visit [115, 0, 106] 0, .visit k 0, .apply incrby, .close]
    ∃ j now bytes s, run (jobStep .plain) ⟨counting, .taken⟩ as = some j ∧ j.phase = .persisted now bytes ∧
      run (step .plain) ⟨counting, ((restore bytes).run (.fresh 1010)).2⟩ [.apply incrby] = some s ∧
      s.left.db.get 1010 k = some [50] ∧ s.right.db.get 1010 k = some [50] ∧
      ∀ t, 1010 ≤ t → ∀ k, s.left.db.live t k = s.right.db.live t k := by
  intro k incrby as
  have hg : Guarded (jobStep .plain) (Undisturbed counting) ⟨counting, .taken⟩ as := by decide +kernel
  have hrun : ∃ j now bytes, run (jobStep .plain) ⟨counting, .taken⟩ as = some j ∧
      j.phase = .persisted now bytes ∧ now = 1000 ∧
      Guarded (step .plain) Steady ⟨counting, ((restore bytes).run (.fresh 1010)).2⟩ [.apply incrby] ∧
      ∃ s, run (step .plain) ⟨counting, ((restore bytes).run (.fresh 1010)).2⟩ [.apply incrby] = some s ∧
        (s.left.db.get 1010 k = some [50] ∧ s.right.db.get 1010 k = some [50]) ∧
        max s.left.now s.right.now = 1010 :=
    ⟨_, _, _, rfl, rfl, rfl, by decide +kernel, _, rfl, by decide +kernel, by decide +kernel⟩
  obtain ⟨j, now, bytes, hr, hj, hnow, hlog, s, hs, ⟨hleft, hright⟩, hclock⟩ := hrun
  refine ⟨j, now, bytes, s, hr, hj, hs, hleft, hright, fun t ht => ?_⟩
  have hlater : now ≤ (Node.fresh 1010).now := by rw [hnow]; decide
  exact (snapshot_restores hg hr hj hlater hlog hs).2 t (by omega)

/-- `INCRBY` is in the snapshot, and applied again. -/
theorem snapshot_applies_twice :
    let k : Bytes := [115, 0, 107]
    let incrby : RaftCommand := .command .incrby [[107], [49]]
    let as : List JobAct := [.apply incrby, .start, .visit [115, 0, 106] 0, .visit k 0, .close]
    ∃ j now bytes s, run (jobStep .plain) ⟨counting, .taken⟩ as = some j ∧ j.phase = .persisted now bytes ∧
      run (step .plain) ⟨counting, ((restore bytes).run (.fresh 1010)).2⟩ [.apply incrby] = some s ∧
      s.left.db.get 1010 k = some [50] ∧ s.right.db.get 1010 k = some [51] := by
  intro k incrby as
  exact ⟨_, _, _, _, rfl, rfl, rfl, by decide +kernel, by decide +kernel⟩

end Cluster
end AkwaDB
