import AkwaDB.Store.Entry
import AkwaDB.Wal.Record

/-!
# AkwaDB.Wal.Replay

The replay loop of `OpenEngineWithOpts`: recovered records go back into the memtable.

Values reach the memtable encoded, inline or as a pointer into the value log. A value the log holds
inline and that is now too long for that is written to the value log; where that goes is up to the
value log, and `vlogWrite` gives it for the record at each position.

- `decodeWalValuePointer_encode`: a pointer in the log is read back.
- `mem_replayFrom`: the nodes of the memtable after the replay.
- `replay_version_le`: none of them is newer than the newest record.
-/

namespace AkwaDB
namespace Wal

structure ValuePointer where
  fid : UInt32
  offset : UInt64
  size : UInt32
  deriving DecidableEq, Repr

def ValuePointer.bytes (vp : ValuePointer) : Bytes :=
  bePut 4 vp.fid.toNat ++ bePut 8 vp.offset.toNat ++ bePut 4 vp.size.toNat

def encodeInlineValue (val : Bytes) : Bytes := 0 :: val

def encodeValuePointer (vp : ValuePointer) : Bytes := 1 :: vp.bytes

/-- `VLPT`. -/
def walValuePtrMagic : Bytes := [86, 76, 80, 84]

def encodeWalValuePointer (vp : ValuePointer) : Bytes := walValuePtrMagic ++ vp.bytes

def decodeWalValuePointer (b : Bytes) : Option ValuePointer :=
  if b.length ≠ 20 ∨ b.take 4 ≠ walValuePtrMagic then none
  else some ⟨UInt32.ofNat (beGet ((b.drop 4).take 4)), UInt64.ofNat (beGet ((b.drop 8).take 8)),
    UInt32.ofNat (beGet ((b.drop 16).take 4))⟩

@[simp] theorem encodeWalValuePointer_length (vp : ValuePointer) :
    (encodeWalValuePointer vp).length = 20 := by
  simp [encodeWalValuePointer, ValuePointer.bytes, walValuePtrMagic]

theorem ValuePointer.bytes_fields (vp : ValuePointer) {b front : Bytes} {n : Nat}
    (hb : b = front ++ vp.bytes) (hn : front.length = n) :
    UInt32.ofNat (beGet ((b.drop n).take 4)) = vp.fid ∧
      UInt64.ofNat (beGet ((b.drop (n + 4)).take 8)) = vp.offset ∧
      UInt32.ofNat (beGet ((b.drop (n + 12)).take 4)) = vp.size := by
  have hfid : beGet (bePut 4 vp.fid.toNat) = vp.fid.toNat :=
    beGet_bePut_of_lt (by simpa using vp.fid.toNat_lt)
  have hoff : beGet (bePut 8 vp.offset.toNat) = vp.offset.toNat :=
    beGet_bePut_of_lt (by simpa using vp.offset.toNat_lt)
  have hsize : beGet (bePut 4 vp.size.toNat) = vp.size.toNat :=
    beGet_bePut_of_lt (by simpa using vp.size.toNat_lt)
  have hdrop : ∀ k, b.drop (n + k) = vp.bytes.drop k := by
    intro k
    rw [hb, ← List.drop_drop, List.drop_left' hn]
  refine ⟨?_, ?_, ?_⟩
  · rw [← Nat.add_zero n, hdrop, List.drop_zero, ValuePointer.bytes, List.append_assoc,
      List.take_left' (bePut_length _ _), hfid]
    simp
  · rw [hdrop, ValuePointer.bytes, List.append_assoc, List.drop_left' (bePut_length _ _),
      List.take_left' (bePut_length _ _), hoff]
    simp
  · rw [hdrop, ValuePointer.bytes, List.drop_left' (by simp), List.take_of_length_le (by simp),
      hsize]
    simp

theorem decodeWalValuePointer_encode (vp : ValuePointer) :
    decodeWalValuePointer (encodeWalValuePointer vp) = some vp := by
  have hmagic : (encodeWalValuePointer vp).take 4 = walValuePtrMagic := rfl
  obtain ⟨hfid, hoff, hsize⟩ := vp.bytes_fields (b := encodeWalValuePointer vp) (n := 4) rfl rfl
  rw [decodeWalValuePointer, if_neg (by simp [hmagic]), hfid, hoff, hsize]

/-- The clock, the threshold for inline values, and what the value log answers to a write. -/
structure ReplayEnv where
  now : Int
  threshold : Nat
  vlogWrite : Nat → Record → Option ValuePointer

def restoredValue (env : ReplayEnv) (i : Nat) (r : Record) : Bytes :=
  match decodeWalValuePointer r.value with
  | some vp => encodeValuePointer vp
  | none =>
    if r.value.length < env.threshold then encodeInlineValue r.value
    else
      match env.vlogWrite i r with
      | none => encodeInlineValue r.value
      | some vp => encodeValuePointer vp

/-- The body of the loop, for the record at position `i`. -/
def replayRecord (env : ReplayEnv) (i : Nat) (mem : SkipList) (r : Record) : SkipList :=
  if 0 < r.expiresAt.toInt ∧ r.expiresAt.toInt ≤ env.now then
    mem.deleteVersion r.key r.version.toNat
  else if r.op = opPut then
    mem.putVersion r.key (restoredValue env i r) r.expiresAt.toInt r.version.toNat
  else if r.op = opDelete then mem.deleteVersion r.key r.version.toNat
  else mem

def replayFrom (env : ReplayEnv) : Nat → SkipList → List Record → SkipList
  | _, mem, [] => mem
  | i, mem, r :: rs => replayFrom env (i + 1) (replayRecord env i mem r) rs

def replay (env : ReplayEnv) (rs : List Record) : SkipList :=
  replayFrom env 0 SkipList.newSkipList rs

def maxWalVer (rs : List Record) : Nat := rs.foldl (fun v r => max v r.version.toNat) 0

theorem replayFrom_append (env : ReplayEnv) (i : Nat) (mem : SkipList) (rs qs : List Record) :
    replayFrom env i mem (rs ++ qs) = replayFrom env (i + rs.length) (replayFrom env i mem rs) qs := by
  induction rs generalizing i mem with
  | nil => rfl
  | cons r rs ih =>
    rw [List.cons_append, replayFrom, ih, replayFrom, List.length_cons]
    congr 1
    omega

/-! ## What a record becomes -/

/-- The node a record of a given version becomes; none for an unknown operation. -/
def restored (env : ReplayEnv) (i : Nat) (r : Record) (version : Nat) : Option Entry :=
  if 0 < r.expiresAt.toInt ∧ r.expiresAt.toInt ≤ env.now then some ⟨r.key, [], true, 0, version⟩
  else if r.op = opPut then
    some ⟨r.key, restoredValue env i r, false, r.expiresAt.toInt, version⟩
  else if r.op = opDelete then some ⟨r.key, [], true, 0, version⟩
  else none

theorem replayRecord_eq (env : ReplayEnv) (i : Nat) (mem : SkipList) (r : Record) :
    replayRecord env i mem r =
      match restored env i r (mem.pickVersion r.version.toNat) with
      | some x => mem.insertNode x
      | none => mem := by
  unfold replayRecord restored
  split
  · rfl
  · split
    · rfl
    · split <;> rfl

variable {r : Record} {x : Entry} {rs : List Record}

theorem restored_spec {env : ReplayEnv} {i : Nat} {version : Nat}
    (h : restored env i r version = some x) : x.key = r.key ∧ x.version = version := by
  unfold restored at h
  split at h
  · cases h; exact ⟨rfl, rfl⟩
  · split at h
    · cases h; exact ⟨rfl, rfl⟩
    · split at h
      · cases h; exact ⟨rfl, rfl⟩
      · cases h

theorem restored_isSome (env : ReplayEnv) (i : Nat) (version : Nat)
    (h : r.op = opPut ∨ r.op = opDelete) : ∃ x, restored env i r version = some x := by
  unfold restored
  split
  · exact ⟨_, rfl⟩
  · split
    · exact ⟨_, rfl⟩
    · rename_i hput
      rw [if_pos (h.resolve_left hput)]
      exact ⟨_, rfl⟩

def restoredFrom (env : ReplayEnv) : Nat → List Record → List (Option Entry)
  | _, [] => []
  | i, r :: rs => restored env i r r.version.toNat :: restoredFrom env (i + 1) rs

theorem restoredFrom_take (env : ReplayEnv) (i j : Nat) (rs : List Record) :
    restoredFrom env i (rs.take j) = (restoredFrom env i rs).take j := by
  induction rs generalizing i j with
  | nil => simp [restoredFrom]
  | cons r rs ih =>
    cases j with
    | zero => rfl
    | succ j => simp [restoredFrom, ih]

theorem mem_replayFrom (env : ReplayEnv) (hv : ∀ r ∈ rs, r.version ≠ 0) (i : Nat) (mem : SkipList)
    (x : Entry) :
    x ∈ (replayFrom env i mem rs).nodes ↔ x ∈ mem.nodes ∨ some x ∈ restoredFrom env i rs := by
  induction rs generalizing i mem with
  | nil => simp [replayFrom, restoredFrom]
  | cons r rs ih =>
    have hr : r.version.toNat ≠ 0 := fun h => hv r (by simp) (UInt64.toNat_inj.mp h)
    have hpick : mem.pickVersion r.version.toNat = r.version.toNat := if_neg hr
    rw [replayFrom, ih (fun q hq => hv q (by simp [hq])), replayRecord_eq, hpick, restoredFrom,
      List.mem_cons]
    cases restored env i r r.version.toNat with
    | none => simp
    | some y =>
      simp only [SkipList.mem_insertNode, Option.some.injEq]
      rw [or_comm (a := x = y), or_assoc]

theorem replayFrom_counter_le (env : ReplayEnv) {bound : Nat}
    (h : ∀ r ∈ rs, r.version ≠ 0 ∧ r.version.toNat ≤ bound) (i : Nat) {mem : SkipList}
    (hmem : mem.versionCounter ≤ bound) : (replayFrom env i mem rs).versionCounter ≤ bound := by
  induction rs generalizing i mem with
  | nil => exact hmem
  | cons r rs ih =>
    obtain ⟨hne, hle⟩ := h r List.mem_cons_self
    have hpick : mem.pickVersion r.version.toNat = r.version.toNat :=
      if_neg fun h0 => hne (UInt64.toNat_inj.mp h0)
    refine ih (fun q hq => h q (List.mem_cons_of_mem r hq)) (i + 1) ?_
    rw [replayRecord_eq, hpick]
    cases hx : restored env i r r.version.toNat with
    | none => exact hmem
    | some x => exact max_le hmem ((restored_spec hx).2.trans_le hle)

theorem mem_replay_append (env : ReplayEnv) (rs qs : List Record)
    (hv : ∀ q ∈ qs, q.version ≠ 0) (x : Entry) :
    x ∈ (replay env (rs ++ qs)).nodes ↔
      x ∈ (replay env rs).nodes ∨ some x ∈ restoredFrom env rs.length qs := by
  rw [replay, replayFrom_append, mem_replayFrom env hv, Nat.zero_add]
  rfl

theorem le_maxWalVer (h : r ∈ rs) : r.version.toNat ≤ maxWalVer rs := by
  have hle := le_foldl_max (List.mem_map_of_mem (f := fun r : Record => r.version.toNat) h) 0
  rwa [List.foldl_map] at hle

theorem restoredFrom_spec {env : ReplayEnv} {i : Nat} (h : some x ∈ restoredFrom env i rs) :
    ∃ r ∈ rs, x.key = r.key ∧ x.version = r.version.toNat := by
  induction rs generalizing i with
  | nil => cases h
  | cons r rs ih =>
    cases List.mem_cons.mp h with
    | inl heq => exact ⟨r, by simp, restored_spec heq.symm⟩
    | inr h =>
      obtain ⟨q, hq, hv⟩ := ih h
      exact ⟨q, by simp [hq], hv⟩

theorem exists_restoredFrom (env : ReplayEnv) (i : Nat) (hr : r ∈ rs)
    (h : r.op = opPut ∨ r.op = opDelete) :
    ∃ x, some x ∈ restoredFrom env i rs ∧ x.key = r.key ∧ x.version = r.version.toNat := by
  induction rs generalizing i with
  | nil => cases hr
  | cons q rs ih =>
    cases List.mem_cons.mp hr with
    | inl heq =>
      subst heq
      obtain ⟨x, hx⟩ := restored_isSome env i r.version.toNat h
      exact ⟨x, by simp [restoredFrom, hx], restored_spec hx⟩
    | inr hr =>
      obtain ⟨x, hx, hspec⟩ := ih (i + 1) hr
      exact ⟨x, by simp [restoredFrom, hx], hspec⟩

theorem replay_version_le (env : ReplayEnv) (hv : ∀ r ∈ rs, r.version ≠ 0)
    (hx : x ∈ (replay env rs).nodes) : x.version ≤ maxWalVer rs := by
  cases (mem_replayFrom env hv 0 _ x).mp hx with
  | inl h => cases h
  | inr h =>
    obtain ⟨r, hr, _, hxr⟩ := restoredFrom_spec h
    rw [hxr]
    exact le_maxWalVer hr

end Wal
end AkwaDB
