import AkwaDB.Server.Frame

/-!
# AkwaDB.Server.Alike

A command on two engines whose clocks differ.

What a command does is decided by what it sees of the keys it names, and by the clock when it turns a number
of seconds into a time. Where the two engines see the same, the command returns the same from both, and they
show the same afterwards, from the later of the two times on.

- `Shown`: the engines show the same from the later time on.
- `Alike`: moreover they see the same of some keys, each at its own time.
- `tied_execute`: a command that is executed on both.
-/

namespace AkwaDB
namespace Server

open Keyspace (Agree)
open Repl (applyBatchEntry)
open Wal (BatchWriteEntry)

/-- The engines show the same from the later of their times on. -/
structure Shown (t u : Int) (m n : Node) : Prop where
  left : m.now = t
  right : n.now = u
  agree : Agree (max t u) m.db n.db

/-- They see the same of the keys in `F`, each at its own time. -/
structure Alike (F : Bytes → Prop) (t u : Int) (m n : Node) : Prop extends Shown t u m n where
  live : ∀ k, F k → m.db.live t k = n.db.live u k
  listed : ∀ k, F k → (m.db k).any (Item.listed t) = (n.db k).any (Item.listed u)
  lasts : ∀ k, F k → (m.db.live t k).any (Item.lasts t) = (n.db.live u k).any (Item.lasts u)

variable {F : Bytes → Prop} {t u : Int}

theorem any_listed (db : Keyspace) (t : Int) (k : Bytes) :
    (db k).any (Item.listed t) = (db.live t k).any (Item.listed t) := by
  unfold Keyspace.live
  cases db k with
  | none => rfl
  | some i =>
    cases hexp : i.expired t with
    | false => simp [hexp]
    | true =>
      simp only [Item.expired, Bool.and_eq_true, decide_eq_true_eq] at hexp
      have hnot : i.listed t = false := by
        simp only [Item.listed, Bool.or_eq_false_iff, decide_eq_false_iff_not]
        omega
      simp [hnot]

theorem agree_batch {now : Int} {a b : Keyspace} (h : Agree now a b) (es : List BatchWriteEntry) :
    Agree now (es.foldl applyBatchEntry a) (es.foldl applyBatchEntry b) := by
  rw [← Repl.effects_batch, ← Repl.effects_batch]
  exact Repl.agree_effects h _

theorem Shown.applyAt {m n : Node} (h : Shown t u m n) {v w : Nat} {es : List BatchWriteEntry}
    (hm : m.AtMost v es) (hn : n.AtMost w es) : Shown t u (m.applyAt v es) (n.applyAt w es) where
  left := h.left
  right := h.right
  agree := by
    rw [Node.db_applyAt hm, Node.db_applyAt hn]
    exact agree_batch h.agree es

theorem foldl_tombstone (ks : List Bytes) (db : Keyspace) (k : Bytes) :
    (ks.map tombstone).foldl applyBatchEntry db k = if k ∈ ks then none else db k := by
  induction ks generalizing db with
  | nil => simp
  | cons j ks ih =>
    rw [List.map_cons, List.foldl_cons, ih]
    by_cases hk : k ∈ ks
    · simp [hk]
    · by_cases hj : k = j
      · subst hj
        simp [hk, applyBatchEntry, tombstone, Keyspace.erase]
      · simp [hk, hj, applyBatchEntry, tombstone, Keyspace.erase]

theorem Alike.erase {m n : Node} (h : Alike F t u m n) (ks : List Bytes) :
    Alike F t u (m.applyAt (m.nextTs + 1) (ks.map tombstone)) (n.applyAt (n.nextTs + 1) (ks.map tombstone)) := by
  have hdb : ∀ n : Node, (n.applyAt (n.nextTs + 1) (ks.map tombstone)).db =
      fun k => if k ∈ ks then none else n.db k := fun n => by
    rw [Node.db_applyAt (n.atMost_nextTs _)]
    exact funext (foldl_tombstone ks n.db)
  have hlive : ∀ (n : Node) (t : Int) (k : Bytes), (n.applyAt (n.nextTs + 1) (ks.map tombstone)).db.live t k =
      if k ∈ ks then none else n.db.live t k := fun n t k => by
    rw [Keyspace.live, hdb]
    dsimp only
    split <;> rfl
  refine ⟨h.applyAt (m.atMost_nextTs _) (n.atMost_nextTs _), fun k hk => ?_, fun k hk => ?_, fun k hk => ?_⟩
  · rw [hlive, hlive, h.live k hk]
  · rw [hdb, hdb]
    dsimp only
    split
    · rfl
    · exact h.listed k hk
  · rw [hlive, hlive]
    split
    · rw [Option.any_none, Option.any_none]
    · exact h.lasts k hk

theorem kept_expiry {db : Keyspace} {k : Bytes} {i : Item} (h : db.live t k = some i) :
    Int64.ofInt (if 0 < db.ttl t k then t + db.ttl t k else 0) = if i.lasts t then Int64.ofInt i.expiresAt else 0 := by
  have hpos : 0 < (remaining t (some i)).toInt ↔ 0 < remaining t (some i) :=
    (@Int64.lt_iff_toInt_lt 0 _).symm
  rw [Keyspace.ttl, h]
  simp only [Item.lasts, decide_eq_true_eq, hpos]
  split
  · rename_i hlt
    have hrem : remaining t (some i) = Int64.ofInt (i.expiresAt - t) := by
      simp only [remaining] at hlt ⊢
      split_ifs at hlt ⊢
      · exact absurd hlt (by decide)
      · exact absurd hlt (by decide)
      · rfl
    rw [hrem, Int64.ofInt_add, Int64.ofInt_toInt, ← Int64.ofInt_add, add_sub_cancel]
  · rfl

theorem incrEntry_eq {m n : Node} (h : Alike F t u m n) {k : Bytes} (hk : F k) (val : Int64) :
    incrEntry m.db t k val = incrEntry n.db u k val := by
  have hlive := h.live k hk
  unfold incrEntry
  cases hm : m.db.live t k with
  | none =>
    rw [hm] at hlive
    simp [Keyspace.ttl, hm, ← hlive, remaining]
  | some i =>
    rw [hm] at hlive
    rw [kept_expiry hm, kept_expiry hlive.symm]
    have hlasts := h.lasts k hk
    rw [hm, ← hlive, Option.any_some, Option.any_some] at hlasts
    rw [hlasts]

theorem alike_frame : Frame F (fun _ => True) (t = u) (Alike F t u) (Shown t u) where
  weaken _ _ h := h.toShown
  read {k} hk m n h := by
    show m.db.get m.now k = n.db.get n.now k
    rw [Keyspace.get, Keyspace.get, h.left, h.right, h.live k hk]
  scanned {p} hp m n h := by
    refine Node.scanned_congr fun k hk => ?_
    rw [h.left, h.right]
    exact h.listed k (hp k hk)
  now htu m n h := by rw [h.left, h.right, htu]
  reserve m n h := ⟨⟨h.left, h.right, h.agree⟩, h.live, h.listed, h.lasts⟩
  erase _ m n h := h.erase _
  submit _ m n h := h.applyAt (m.atMost_nextTs _) (n.atMost_nextTs _)
  incr hk m n h val := by
    rw [h.left, h.right]
    exact incrEntry_eq h hk val

/-- **A command does the same on both engines** when they see the same of its keys. -/
theorem tied_execute (rt : Runtime) (op : Op) (args : List Bytes)
    (hF : ∀ key ∈ named op args, ∀ k, covers key k = true → F k) (htu : relative op args = true → t = u) :
    Tied (Alike F t u) (Shown t u) (executeReplicatedCommand rt op args) :=
  alike_frame.execute rt op args hF (fun _ _ _ _ => trivial) htu

end Server
end AkwaDB
