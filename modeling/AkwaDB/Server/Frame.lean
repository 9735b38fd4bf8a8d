import AkwaDB.Server.Query

/-!
# AkwaDB.Server.Frame

What a command may look at and what it may write, for two engines that are compared.

A command reads the string and the collections of the keys it names, and writes nothing else. So whatever
relation of two engines makes those reads the same, and is kept by writes to those keys, is kept by the
command, and the command returns the same from both. `Frame` says what is asked of the relation, one
field for each call of the engine.

- `Frame.execute`: the commands as Raft executes them.
-/

namespace AkwaDB
namespace Server

open Client (strKey collectionPrefixes)
open Wal (BatchWriteEntry)

/-! ## Keys of a command -/

def named : Op → List Bytes → List Bytes
  | .del, args => args
  | _, args => args.take 1

def written : Op → List Bytes → List Bytes
  | .del, args => args
  | .mset, args => (pairs args).map Prod.fst
  | _, args => args.take 1

/-- The command counts seconds from the time of its execution. -/
def relative : Op → List Bytes → Bool
  | .setex, _ :: seconds :: _ :: _ => (parseInt seconds).any fun sec => decide (0 < sec)
  | .expire, _ :: seconds :: _ => (parseInt seconds).isSome
  | _, _ => false

/-! ## Relations of two engines -/

/-- Engines related by `R` see the same of the keys in `F`, and at the same time if the clock is looked at.
Tombstones of keys in `W` keep them so. What else is written to such keys leaves them related by `S`. -/
structure Frame (F W : Bytes → Prop) (clocked : Prop) (R S : Node → Node → Prop) : Prop where
  weaken : ∀ m n, R m n → S m n
  read : ∀ {k}, F k → ∀ m n, R m n → m.read k = n.read k
  scanned : ∀ {p}, (∀ k, p <+: k → F k) → ∀ m n, R m n → m.scanned p = n.scanned p
  now : clocked → ∀ m n, R m n → m.now = n.now
  reserve : ∀ m n, R m n → R (m.reserve (m.nextTs + 1)) (n.reserve (n.nextTs + 1))
  erase : ∀ {ks : List Bytes}, (∀ k ∈ ks, W k) → ∀ m n, R m n →
    R (m.applyAt (m.nextTs + 1) (ks.map tombstone)) (n.applyAt (n.nextTs + 1) (ks.map tombstone))
  submit : ∀ {es : List BatchWriteEntry}, (∀ e ∈ es, W e.key) → ∀ m n, R m n →
    S (m.applyAt (m.nextTs + 1) es) (n.applyAt (n.nextTs + 1) es)
  incr : ∀ {k}, F k → ∀ m n, R m n → ∀ val, incrEntry m.db m.now k val = incrEntry n.db n.now k val

namespace Frame

variable {F W : Bytes → Prop} {clocked : Prop} {R S : Node → Node → Prop} (fr : Frame F W clocked R S)
include fr

/-! ## Calls of the engine -/

theorem unchanged {α : Type} (a : α) : Tied R S (pure a : DbM α) := Tied.pure a fr.weaken

theorem getByKey {k : Bytes} (hk : F k) : Tied R R (getByKey k) :=
  Tied.read _ (fr.read hk) fun _ _ h => h

variable {ks : List Bytes} {es : List BatchWriteEntry}

theorem lookups (h : ∀ k ∈ ks, F k) : Tied R R (ks.mapM Server.getByKey) :=
  Tied.mapM fun k hk => fr.getByKey (h k hk)

theorem scan {p : Bytes} (h : ∀ k, p <+: k → F k) : Tied R R (scan p) :=
  Tied.read _ (fr.scanned h) fun _ _ h => h

theorem clock (hc : clocked) : Tied R R clock := Tied.read _ (fr.now hc) fun _ _ h => h

theorem takeVersion : Tied R R takeVersion := fun m n h => ⟨rfl, fr.reserve m n h⟩

theorem tombstones (h : ∀ k ∈ ks, W k) : Tied R R (submitBatch (ks.map tombstone)) :=
  fun m n hmn => ⟨rfl, fr.erase h m n hmn⟩

theorem submitBatch (h : ∀ e ∈ es, W e.key) : Tied R S (submitBatch es) :=
  fun m n hmn => ⟨rfl, fr.submit h m n hmn⟩

theorem submitted {α : Type} (h : ∀ e ∈ es, W e.key) (a : α) :
    Tied R S (do Server.submitBatch es; return a : DbM α) :=
  (fr.submitBatch h).bind fun _ => Tied.pure a fun _ _ h => h

theorem submitSome (h : ∀ e ∈ es, W e.key) : Tied R S (submitSome es) :=
  Tied.ite (fun _ => fr.unchanged _) fun _ => fr.submitBatch h

theorem submitChunks (size fuel : Nat) (h : ∀ k ∈ ks, W k) :
    Tied R R (submitChunks size fuel (ks.map tombstone)) := by
  induction fuel generalizing ks with
  | zero => exact Tied.pure _ fun _ _ h => h
  | succ fuel ih =>
    unfold Server.submitChunks
    refine Tied.ite (fun _ => Tied.pure _ fun _ _ h => h) fun _ => ?_
    rw [← List.map_take, ← List.map_drop]
    exact (fr.tombstones fun k hk => h k (List.mem_of_mem_take hk)).bind fun _ =>
      ih fun k hk => h k (List.mem_of_mem_drop hk)

theorem delete {k : Bytes} (hk : F k) (hw : W k) : Tied R R (delete k) := by
  refine (fr.getByKey hk).bind fun found => ?_
  cases found with
  | none => exact fr.takeVersion.bind fun _ => Tied.pure _ fun _ _ h => h
  | some _ =>
    have hks : ∀ x ∈ [k], W x := by simpa using hw
    exact (fr.tombstones hks).bind fun _ => Tied.pure _ fun _ _ h => h

theorem deletePrefixChunked {p : Bytes} (h : ∀ k, p <+: k → F k) (hw : ∀ k, p <+: k → W k) :
    Tied R R (deletePrefixChunked p) := by
  refine Tied.bind_of (V := fun keys => ∀ k ∈ keys, p <+: k) (fun n k hk => (Node.mem_scanned.mp hk).1)
    (fr.scan h) fun keys hkeys => ?_
  exact (fr.submitChunks _ _ fun k hk => hw k (hkeys k hk)).bind fun _ => Tied.pure _ fun _ _ h => h

theorem putExAt {key : Bytes} (hw : W key) (val : Bytes) (expiresAt : Int64) :
    Tied R S (putExAt key val expiresAt) := fr.submitBatch (by simpa using hw)

end Frame

theorem putEx_of_not_pos {sec : Int64} (h : ¬ 0 < sec) (key val : Bytes) : putEx key val sec = putExAt key val 0 := by
  funext n
  show (putExAt key val (if 0 < sec then _ else 0)).run n = _
  rw [if_neg h]
  rfl

theorem lpushEntries_key (key : Bytes) (values : List Bytes) :
    ∀ (head : Int64), ∀ e ∈ (lpushEntries key head values).1, ∃ i, e.key = listElemKey key i := by
  induction values with
  | nil => simp [lpushEntries]
  | cons v vs ih =>
    intro head e he
    simp only [lpushEntries, List.mem_cons] at he
    rcases he with rfl | he
    · exact ⟨head - 1, rfl⟩
    · exact ih _ e he

theorem rpushEntries_key (key : Bytes) (values : List Bytes) :
    ∀ (tail : Int64), ∀ e ∈ (rpushEntries key tail values).1, ∃ i, e.key = listElemKey key i := by
  induction values with
  | nil => simp [rpushEntries]
  | cons v vs ih =>
    intro tail e he
    simp only [rpushEntries, List.mem_cons] at he
    rcases he with rfl | he
    · exact ⟨tail, rfl⟩
    · exact ih _ e he

theorem covers_hashFieldKey (key field : Bytes) : covers key (hashFieldKey key field) = true :=
  covers_kind (by simp) key field

theorem covers_setMemberKey (key member : Bytes) : covers key (setMemberKey key member) = true :=
  covers_kind (by simp) key member

theorem covers_listElemKey (key : Bytes) (i : Int64) : covers key (listElemKey key i) = true :=
  covers_kind (by simp) key _

theorem covers_listMetaKey (key : Bytes) : covers key (listMetaKey key) = true := covers_kind (by simp) key _

theorem covers_bitmapPageKey (key : Bytes) (page : Nat) : covers key (bitmapPageKey key page) = true :=
  covers_kind (by simp) key _

theorem covers_zvalKey (key member : Bytes) : covers key (zvalKey key member) = true := by
  rw [zvalKey, List.append_assoc]
  exact covers_kind (by simp) key _

theorem covers_zscoreKey (key : Bytes) (score : Score) (member : Bytes) :
    covers key (zscoreKey key score member) = true := by
  rw [zscoreKey, zscorePrefix, List.append_assoc, List.append_assoc, List.append_assoc]
  exact covers_kind (by simp) key _

variable {e : BatchWriteEntry}

theorem zaddEntries_key {key member : Bytes} {score : Score} {old : Option Bytes}
    (h : e ∈ zaddEntries key member score old) : covers key e.key = true := by
  simp only [zaddEntries, List.mem_append, List.mem_cons, List.not_mem_nil, or_false] at h
  rcases h with h | rfl | rfl
  · split at h
    · cases h
    · rename_i val
      generalize (if val.isEmpty = true then 0 else decodeScore val) = oldScore at h
      split at h
      · rw [List.mem_singleton.mp h]
        exact covers_zscoreKey key oldScore member
      · cases h
  · exact covers_zvalKey key member
  · exact covers_zscoreKey key score member

theorem zremEntries_key {key member val : Bytes} (h : e ∈ zremEntries key member val) :
    covers key e.key = true := by
  simp only [zremEntries, List.mem_append, List.mem_singleton] at h
  rcases h with h | rfl
  · split at h
    · rw [List.mem_singleton.mp h]
      exact covers_zscoreKey _ _ _
    · cases h
  · exact covers_zvalKey key member

theorem mem_assocAll {β : Type} {ps : List (Bytes × β)} {p : Bytes × β} (h : p ∈ assocAll ps) :
    ∃ q ∈ ps, q.1 = p.1 := by
  have hkeys : ∀ (m : List (Bytes × β)), ∀ k ∈ (ps.foldl (fun m p => assoc m p.1 p.2) m).map Prod.fst,
      k ∈ m.map Prod.fst ∨ ∃ q ∈ ps, q.1 = k := by
    clear h
    induction ps with
    | nil => exact fun m k hk => .inl hk
    | cons q ps ih =>
      intro m k hk
      rcases ih (assoc m q.1 q.2) k hk with hm | ⟨r, hr, hrk⟩
      · rw [keys_assoc] at hm
        split at hm
        · exact .inl hm
        · rcases List.mem_append.mp hm with hm | hm
          · exact .inl hm
          · exact .inr ⟨q, List.mem_cons_self, (List.mem_singleton.mp hm).symm⟩
      · exact .inr ⟨r, List.mem_cons_of_mem q hr, hrk⟩
  rcases hkeys [] p.1 (List.mem_map_of_mem h) with hnil | hq
  · cases hnil
  · exact hq

theorem expireEntries_key {expiresAt : Int64} {keys : List Bytes} {vals : List (Option Bytes)}
    (h : e ∈ expireEntries expiresAt keys vals) : e.key ∈ keys := by
  obtain ⟨⟨k, val⟩, hp, he⟩ := List.mem_filterMap.mp h
  obtain ⟨v, -, rfl⟩ := Option.map_eq_some_iff.mp he
  exact (List.of_mem_zip hp).1

namespace Frame

variable {F W : Bytes → Prop} {clocked : Prop} {R S : Node → Node → Prop} (fr : Frame F W clocked R S)
  {key : Bytes} (hF : ∀ k, covers key k = true → F k) (hW : ∀ k, covers key k = true → W k)
include fr

theorem putEx {sec : Int64} (hc : 0 < sec → clocked) {key : Bytes} (hw : W key) (val : Bytes) :
    Tied R S (putEx key val sec) := by
  by_cases hsec : 0 < sec
  · exact (fr.clock (hc hsec)).bind fun _ => fr.putExAt hw _ _
  · rw [putEx_of_not_pos hsec]
    exact fr.putExAt hw _ _

theorem put {key : Bytes} (hw : W key) (val : Bytes) : Tied R S (put key val) :=
  fr.putEx (fun h => absurd h (by decide)) hw val

theorem mset {kvs : List (Bytes × Bytes)} (h : ∀ p ∈ kvs, W p.1) : Tied R S (mset kvs) := by
  refine Tied.ite (fun _ => fr.unchanged _) fun _ => fr.submitBatch fun e he => ?_
  obtain ⟨p, hp, rfl⟩ := List.mem_map.mp he
  exact h p hp

include hF hW

/-! ## Calls on one key -/

theorem deleteKeyInDB : Tied R R (deleteKeyInDB key) := by
  refine (fr.delete (hF _ (covers_strKey key)) (hW _ (covers_strKey key))).bind fun existed => ?_
  refine Tied.bind (Tied.map _ (Tied.mapM fun p hp => ?_)) fun n => Tied.pure _ fun _ _ h => h
  exact fr.deletePrefixChunked (fun k hk => hF k (covers_part hp hk)) fun k hk => hW k (covers_part hp hk)

theorem getDel : Tied R S (getDel (strKey key)) := by
  refine (fr.getByKey (hF _ (covers_strKey key))).bind fun found => ?_
  cases found with
  | none => exact fr.unchanged _
  | some val => exact fr.submitted (by simpa [tombstone] using hW _ (covers_strKey key)) _

theorem incrBy (delta : Int64) : Tied R S (incrBy (strKey key) delta) := by
  intro m n h
  have hk := hF _ (covers_strKey key)
  have hres : Repl.incrResult m.db m.now (strKey key) delta = Repl.incrResult n.db n.now (strKey key) delta := by
    have hread : m.db.get m.now (strKey key) = n.db.get n.now (strKey key) := fr.read hk m n h
    unfold Repl.incrResult
    rw [hread]
  rw [incrBy_run, incrBy_run, hres]
  cases Repl.incrResult n.db n.now (strKey key) delta with
  | none => exact ⟨rfl, fr.weaken _ _ (fr.reserve m n h)⟩
  | some val =>
    dsimp only
    rw [fr.incr hk m n h]
    exact ⟨rfl, fr.submit (by simpa [incrEntry] using hW _ (covers_strKey key)) m n h⟩

theorem expireKey (hc : clocked) (sec : Int64) : Tied R S (expireKey key sec) := by
  refine (fr.getByKey (hF _ (covers_strKey key))).bind fun found => ?_
  cases found with
  | some val => exact (fr.putEx (fun _ => hc) (hW _ (covers_strKey key)) _).bind fun _ => Tied.pure _ fun _ _ h => h
  | none =>
    refine Tied.bind_of (V := fun keys => ∀ k ∈ keys, covers key k = true) 
      (fun n k hk => covers_of_mem_parts hk)
      (Tied.map _ (Tied.mapM fun p hp => fr.scan fun k hk => hF k (covers_part hp hk))) fun keys hkeys => ?_
    refine Tied.ite (fun _ => fr.unchanged _) fun _ => ?_
    refine (fr.clock hc).bind fun now => ?_
    refine (fr.lookups fun k hk => hF k (hkeys k hk)).bind fun vals => ?_
    refine Tied.ite (fun _ => fr.unchanged _) fun _ => ?_
    exact fr.submitted (fun e he => hW _ (hkeys _ (expireEntries_key he))) _

theorem hsetMulti (fields : List Bytes) : Tied R S (hsetMulti key fields) := by
  refine (fr.lookups fun k hk => ?_).bind fun found => ?_
  · obtain ⟨p, -, rfl⟩ := List.mem_map.mp hk
    exact hF _ (covers_hashFieldKey key p.1)
  · refine Tied.ite (fun _ => fr.unchanged _) fun _ => fr.submitted (fun e he => ?_) _
    obtain ⟨p, -, rfl⟩ := List.mem_map.mp he
    exact hW _ (covers_hashFieldKey key p.1)

theorem hdel (field : Bytes) : Tied R S (hdel key field) := by
  refine (fr.getByKey (hF _ (covers_hashFieldKey key field))).bind fun found => ?_
  cases found with
  | none => exact fr.unchanged _
  | some _ => exact fr.submitted (by simpa [tombstone] using hW _ (covers_hashFieldKey key field)) _

omit hW in
theorem listMeta : Tied R R (listMeta key) := Tied.map _ (fr.getByKey (hF _ (covers_listMetaKey key)))

omit hF in
theorem pushed {es : List BatchWriteEntry} (hes : ∀ e ∈ es, ∃ i, e.key = listElemKey key i)
    (head tail count : Int64) :
    Tied R S (do Server.submitBatch (es ++ [metaEntry key head tail]); return count : DbM Int64) := by
  refine fr.submitted (fun e he => ?_) _
  rcases List.mem_append.mp he with he | he
  · obtain ⟨i, hi⟩ := hes e he
    rw [hi]
    exact hW _ (covers_listElemKey key i)
  · rw [List.mem_singleton.mp he]
    exact hW _ (covers_listMetaKey key)

theorem lpush (values : List Bytes) : Tied R S (lpush key values) :=
  (fr.listMeta hF).bind fun _ => fr.pushed hW (lpushEntries_key key values _) _ _ _

theorem rpush (values : List Bytes) : Tied R S (rpush key values) :=
  (fr.listMeta hF).bind fun _ => fr.pushed hW (rpushEntries_key key values _) _ _ _

omit hF in
theorem popped {i : Int64} {bounds : BatchWriteEntry} (h : bounds.key = listMetaKey key) (val : Bytes) :
    Tied R S (do Server.submitBatch [tombstone (listElemKey key i), bounds]; return some val : DbM (Option Bytes)) := by
  refine fr.submitted (fun e he => ?_) _
  rcases List.mem_cons.mp he with rfl | he
  · exact hW _ (covers_listElemKey key i)
  · rw [List.mem_singleton.mp he, h]
    exact hW _ (covers_listMetaKey key)

theorem lpop : Tied R S (lpop key) := by
  refine (fr.listMeta hF).bind fun bounds => ?_
  refine Tied.ite (fun _ => fr.unchanged _) fun _ => ?_
  refine (fr.getByKey (hF _ (covers_listElemKey key _))).bind fun found => ?_
  cases found with
  | none => exact fr.unchanged _
  | some val => exact fr.popped hW (by split <;> rfl) val

theorem rpop : Tied R S (rpop key) := by
  refine (fr.listMeta hF).bind fun bounds => ?_
  refine Tied.ite (fun _ => fr.unchanged _) fun _ => ?_
  refine (fr.getByKey (hF _ (covers_listElemKey key _))).bind fun found => ?_
  cases found with
  | none => exact fr.unchanged _
  | some val => exact fr.popped hW (by split <;> rfl) val

omit hW in
theorem members (ms : List Bytes) : Tied R R ((ms.map (setMemberKey key)).mapM Server.getByKey) := by
  refine fr.lookups fun k hk => ?_
  obtain ⟨m, -, rfl⟩ := List.mem_map.mp hk
  exact hF _ (covers_setMemberKey key m)

theorem sadd (ms : List Bytes) : Tied R S (sadd key ms) := by
  refine (fr.members hF _).bind fun found => (fr.submitSome fun e he => ?_).bind fun _ => Tied.pure _ fun _ _ h => h
  obtain ⟨p, -, hp⟩ := List.mem_filterMap.mp he
  split at hp
  · cases hp
    exact hW _ (covers_setMemberKey key p.1)
  · cases hp

theorem srem (ms : List Bytes) : Tied R S (srem key ms) := by
  refine (fr.members hF _).bind fun found => (fr.submitSome fun e he => ?_).bind fun _ => Tied.pure _ fun _ _ h => h
  obtain ⟨p, -, hp⟩ := List.mem_filterMap.mp he
  split at hp
  · cases hp
    exact hW _ (covers_setMemberKey key p.1)
  · cases hp

omit hW in
theorem zvals (ms : List Bytes) : Tied R R ((ms.map (zvalKey key)).mapM Server.getByKey) := by
  refine fr.lookups fun k hk => ?_
  obtain ⟨m, -, rfl⟩ := List.mem_map.mp hk
  exact hF _ (covers_zvalKey key m)

theorem zaddMulti (ms : List (Bytes × Score)) : Tied R S (zaddMulti key ms) := by
  have hvals := fr.zvals hF ((assocAll ms).map Prod.fst)
  rw [List.map_map] at hvals
  refine hvals.bind fun found => fr.submitted (fun e he => ?_) _
  obtain ⟨p, -, hp⟩ := List.mem_flatMap.mp he
  exact hW _ (zaddEntries_key hp)

theorem zrem (ms : List Bytes) : Tied R S (zrem key ms) := by
  refine (fr.zvals hF _).bind fun found => (fr.submitSome fun e he => ?_).bind fun _ => Tied.pure _ fun _ _ h => h
  obtain ⟨p, -, hp⟩ := List.mem_flatMap.mp he
  exact hW _ (zremEntries_key hp)

theorem setBit (offset val : Int64) : Tied R S (setBit key offset val) := by
  refine Tied.ite (fun _ => fr.unchanged _) fun _ => ?_
  refine (fr.getByKey (hF _ (covers_bitmapPageKey key _))).bind fun old => ?_
  exact (fr.put (hW _ (covers_bitmapPageKey key _)) _).bind fun _ => Tied.pure _ fun _ _ h => h

omit hF hW

theorem deleteKeys {keys : List Bytes} (hF : ∀ key ∈ keys, ∀ k, covers key k = true → F k)
    (hW : ∀ key ∈ keys, ∀ k, covers key k = true → W k) : Tied R R (deleteKeys keys) :=
  Tied.map _ (Tied.mapM fun key hkey => fr.deleteKeyInDB (hF key hkey) (hW key hkey))

variable {args : List Bytes}

theorem execCount {name : String} {call : Bytes → List Bytes → DbM Int64}
    (h : ∀ key ∈ args.take 1, ∀ vs, Tied R S (call key vs)) :
    Tied R S (execCount name call args) := by
  match args with
  | key :: v :: vs => exact Tied.map _ (h key (by simp) _)
  | [_] => exact fr.unchanged _
  | [] => exact fr.unchanged _

theorem execPop {name : String} {call : Bytes → DbM (Option Bytes)}
    (h : ∀ key ∈ args.take 1, Tied R S (call key)) : Tied R S (execPop name call args) := by
  match args with
  | key :: _ => exact Tied.map _ (h key (by simp))
  | [] => exact fr.unchanged _

theorem msetArgs (hW : ∀ key ∈ (pairs args).map Prod.fst, ∀ k, covers key k = true → W k) :
    Tied R S (Server.mset (msetPairs args)) := by
  refine fr.mset fun p hp => ?_
  obtain ⟨q, hq, hkey⟩ := mem_assocAll hp
  obtain ⟨r, hr, rfl⟩ := List.mem_map.mp hq
  rw [← hkey]
  exact hW r.1 (List.mem_map_of_mem hr) _ (covers_strKey r.1)

theorem execute (rt : Runtime) (op : Op) (args : List Bytes)
    (hF : ∀ key ∈ named op args, ∀ k, covers key k = true → F k)
    (hW : ∀ key ∈ written op args, ∀ k, covers key k = true → W k) (hc : relative op args = true → clocked) :
    Tied R S (executeReplicatedCommand rt op args) := by
  cases op with
  | set =>
    rcases args with _ | ⟨key, _ | ⟨val, _⟩⟩
    · exact fr.unchanged _
    · exact fr.unchanged _
    · exact (fr.put (hW key (by simp [written]) _ (covers_strKey key)) _).bind fun _ => Tied.pure _ fun _ _ h => h
  | setex =>
    rcases args with _ | ⟨key, _ | ⟨seconds, _ | ⟨val, _⟩⟩⟩
    · exact fr.unchanged _
    · exact fr.unchanged _
    · exact fr.unchanged _
    · simp only [executeReplicatedCommand]
      cases hsec : parseInt seconds with
      | none => exact fr.unchanged _
      | some sec =>
        refine (fr.putEx (fun h => hc ?_) (hW key (by simp [written]) _ (covers_strKey key)) _).bind fun _ =>
          Tied.pure _ fun _ _ h => h
        simpa [relative, hsec] using h
  | del =>
    rcases args with _ | ⟨key, keys⟩
    · exact fr.unchanged _
    · exact Tied.map _ ((fr.deleteKeys hF hW).weaken (fun _ _ h => h) fr.weaken)
  | getdel => exact fr.execPop fun key hkey => fr.getDel (hF key hkey) (hW key hkey)
  | expire =>
    rcases args with _ | ⟨key, _ | ⟨seconds, _⟩⟩
    · exact fr.unchanged _
    · exact fr.unchanged _
    · simp only [executeReplicatedCommand]
      cases hsec : parseInt seconds with
      | none => exact fr.unchanged _
      | some sec =>
        exact Tied.map _ (fr.expireKey (hF key (by simp [named])) (hW key (by simp [written]))
          (hc (by simp [relative, hsec])) sec)
  | incrby =>
    rcases args with _ | ⟨key, _ | ⟨by_, _⟩⟩
    · exact fr.unchanged _
    · exact fr.unchanged _
    · simp only [executeReplicatedCommand]
      cases parseInt by_ with
      | none => exact fr.unchanged _
      | some delta => exact Tied.map _ (fr.incrBy (hF key (by simp [named])) (hW key (by simp [written])) delta)
  | mset =>
    refine Tied.ite (fun _ => fr.unchanged _) fun _ => ?_
    exact (fr.msetArgs hW).bind fun _ => Tied.pure _ fun _ _ h => h
  | hset =>
    rcases args with _ | ⟨key, fields⟩
    · exact fr.unchanged _
    · exact Tied.ite (fun _ => fr.unchanged _) fun _ =>
        Tied.map _ (fr.hsetMulti (hF key (by simp [named])) (hW key (by simp [written])) fields)
  | hdel =>
    rcases args with _ | ⟨key, _ | ⟨field, _⟩⟩
    · exact fr.unchanged _
    · exact fr.unchanged _
    · exact Tied.map _ (fr.hdel (hF key (by simp [named])) (hW key (by simp [written])) field)
  | lpush => exact fr.execCount fun key hkey vs => fr.lpush (hF key hkey) (hW key hkey) vs
  | rpush => exact fr.execCount fun key hkey vs => fr.rpush (hF key hkey) (hW key hkey) vs
  | lpop => exact fr.execPop fun key hkey => fr.lpop (hF key hkey) (hW key hkey)
  | rpop => exact fr.execPop fun key hkey => fr.rpop (hF key hkey) (hW key hkey)
  | sadd => exact fr.execCount fun key hkey vs => fr.sadd (hF key hkey) (hW key hkey) vs
  | srem => exact fr.execCount fun key hkey vs => fr.srem (hF key hkey) (hW key hkey) vs
  | zadd =>
    rcases args with _ | ⟨key, scored⟩
    · exact fr.unchanged _
    · refine Tied.ite (fun _ => fr.unchanged _) fun _ => ?_
      cases parseMembers rt (pairs scored) with
      | none => exact fr.unchanged _
      | some members => exact Tied.map _ (fr.zaddMulti (hF key (by simp [named])) (hW key (by simp [written])) members)
  | zrem => exact fr.execCount fun key hkey vs => fr.zrem (hF key hkey) (hW key hkey) vs
  | setbit =>
    rcases args with _ | ⟨key, _ | ⟨offset, _ | ⟨val, _ | ⟨_, _⟩⟩⟩⟩
    · exact fr.unchanged _
    · exact fr.unchanged _
    · exact fr.unchanged _
    · simp only [executeReplicatedCommand]
      cases parseBit offset val with
      | error e => exact fr.unchanged _
      | ok nb => exact Tied.map _ (fr.setBit (hF key (by simp [named])) (hW key (by simp [written])) _ _)
    · exact fr.unchanged _
  | other name => exact fr.unchanged _

end Frame

namespace Frame

variable {F W : Bytes → Prop} {clocked : Prop} {R S : Node → Node → Prop} (fr : Frame F W clocked R S)
include fr

end Frame

end Server
end AkwaDB
