import AkwaDB.Lib.Newest
import Mathlib.Data.List.Sort
import Mathlib.Data.List.TakeWhile

/-!
# AkwaDB.Lib.Timeline

Operations put in an order by a time each of them has, and executed one after the other in it.

- `pairwise_timeline`: what holds of two operations as they come, and also the other way round when
  their times are, holds in the order of times.
- `foldl_entry_newest`: the state after operations whose entries ascend is the newest of the entries.
- `replays_of_prefixes`: an order is an execution when every operation fits the state its prefix leaves.
-/

namespace AkwaDB

variable {α δ : Type}

/-- The operations by their times; of one time the first comes first. -/
def timeline (time : δ → Nat) (ops : List δ) : List δ := ops.insertionSort fun a b => time a ≤ time b

theorem timeline_perm (time : δ → Nat) (ops : List δ) : (timeline time ops).Perm ops :=
  List.perm_insertionSort _ ops

theorem timeline_sorted (time : δ → Nat) (ops : List δ) :
    (timeline time ops).Pairwise fun a b => time a ≤ time b := by
  have : Std.Total fun a b : δ => time a ≤ time b := ⟨fun a b => Nat.le_total _ _⟩
  have : IsTrans δ fun a b => time a ≤ time b := ⟨fun a b c => Nat.le_trans⟩
  exact List.pairwise_insertionSort _ ops

theorem pairwise_timeline {time : δ → Nat} {R : δ → δ → Prop} {ops : List δ}
    (h : ops.Pairwise fun a b => R a b ∧ (time b < time a → R b a)) : (timeline time ops).Pairwise R := by
  induction ops with
  | nil => exact List.Pairwise.nil
  | cons a ops ih =>
    obtain ⟨ha, hops⟩ := List.pairwise_cons.mp h
    have hsub : ∀ b ∈ timeline time ops, b ∈ ops := fun b hb => (timeline_perm time ops).mem_iff.mp hb
    have hsorted := ih hops
    rw [timeline, List.insertionSort_cons_eq_take_drop]
    refine List.pairwise_append.mpr ⟨?_, List.pairwise_cons.mpr ⟨?_, ?_⟩, ?_⟩
    · exact hsorted.sublist (List.takeWhile_sublist _)
    · exact fun b hb => (ha b (hsub b ((List.dropWhile_sublist _).mem hb))).1
    · exact hsorted.sublist (List.dropWhile_sublist _)
    · -- what stands before `a` is strictly earlier
      intro b hb c hc
      rcases List.mem_cons.mp hc with rfl | hc
      · have hlt := List.mem_takeWhile_imp hb
        exact (ha b (hsub b ((List.takeWhile_sublist _).mem hb))).2 (by simpa using hlt)
      · have := hsorted
        rw [← List.takeWhile_append_dropWhile (p := fun b => ¬ time a ≤ time b) (l := timeline time ops)]
          at this
        exact (List.pairwise_append.mp this).2.2 b hb c hc

variable {f : α → Nat} {p : α → Bool} {entry : δ → Option α} {fits : δ → Option α → Prop}

/-- The state after the operations: what the last of them that writes leaves. -/
def leaves (entry : δ → Option α) (st : Option α) (ops : List δ) : Option α :=
  ops.foldl (fun st d => (entry d).or st) st

theorem leaves_snoc (entry : δ → Option α) (st : Option α) (ops : List δ) (d : δ) :
    leaves entry st (ops ++ [d]) = (entry d).or (leaves entry st ops) := by
  rw [leaves, List.foldl_append]
  rfl

/-- Executed from `st` in order, every operation fits the state it meets, and `fin` is left. -/
def Replays (fits : δ → Option α → Prop) (entry : δ → Option α) : Option α → List δ → Option α → Prop
  | st, [], fin => st = fin
  | st, d :: ds, fin => fits d st ∧ Replays fits entry ((entry d).or st) ds fin

theorem replays_of_prefixes {ops : List δ} {st : Option α}
    (h : ∀ pre d post, ops = pre ++ d :: post → fits d (leaves entry st pre)) :
    Replays fits entry st ops (leaves entry st ops) := by
  induction ops generalizing st with
  | nil => rfl
  | cons d ds ih =>
    refine ⟨h [] d ds rfl, ih fun pre e post heq => ?_⟩
    exact h (d :: pre) e post (by rw [heq, List.cons_append])

theorem foldl_entry_newest {base : List α} {ops : List δ}
    (hbase : ∀ x ∈ base, ∀ d ∈ ops, ∀ y ∈ entry d, f x < f y)
    (hops : ops.Pairwise fun a b => ∀ x ∈ entry a, ∀ y ∈ entry b, f x < f y)
    (hpass : ∀ d ∈ ops, ∀ x ∈ entry d, p x = true) :
    leaves entry (newest f p base) ops = newest f p (base ++ ops.filterMap entry) := by
  induction ops using List.reverseRecOn with
  | nil => rw [List.filterMap_nil, List.append_nil]; rfl
  | append_singleton ops d ih =>
    obtain ⟨hpre, _, hlast⟩ := List.pairwise_append.mp hops
    have hmem : ∀ e ∈ ops, e ∈ ops ++ [d] := fun e he => List.mem_append_left _ he
    rw [leaves_snoc, ih (fun x hx e he => hbase x hx e (hmem e he)) hpre
      fun e he => hpass e (hmem e he), List.filterMap_append, ← List.append_assoc]
    have hd : d ∈ ops ++ [d] := List.mem_append_right _ List.mem_cons_self
    cases hentry : entry d with
    | none => simp [hentry]
    | some y =>
      have hnew : newest f p [y] = some y := by
        simp [newest, newer, hpass d hd y hentry]
      have hlist : [d].filterMap entry = [y] := by simp [hentry]
      rw [hlist, newest_append_of_lt (m := [y]), hnew, Option.some_or]
      · intro x hx z hz _ _
        obtain rfl := List.mem_singleton.mp hz
        rcases List.mem_append.mp hx with hx | hx
        · exact hbase x hx d hd z hentry
        · obtain ⟨e, he, hxe⟩ := List.mem_filterMap.mp hx
          exact hlast e he d List.mem_cons_self x hxe z hentry

end AkwaDB
