import AkwaDB.Client.Sweep
import AkwaDB.Lib.Heap
import Mathlib.Data.Set.Card

/-!
# AkwaDB.Client.Expiry

The index of expiries with the array of its heap.

A key may have items in the heap that are no longer true: its deadline was changed or cancelled, or a sweep has taken
it. They stay until they come to the front and are passed over. `trackExpiry` and the loop of `expireDueKeys` each hold
`expiryMu`, so that calls come one after the other, in any order.

- `popDue_refines`: the loop over the array is `dueKeys` over the items in the order in which they are popped.
- `index_keeps_deadlines`: after any calls, every recorded deadline has its item, the heap is in order, and a sweep
  takes what is due, all of it if the limit allows.
-/

namespace AkwaDB
namespace Client

structure ExpiryArray where
  expiryAt : Bytes → Option Int
  expiryHeap : List (Bytes × Int)

namespace ExpiryArray

def trackExpiry (s : ExpiryArray) (key : Bytes) (expiresAt : Int) : ExpiryArray :=
  if key = [] then s
  else if expiresAt ≤ 0 then { s with expiryAt := Function.update s.expiryAt key none }
  else if s.expiryAt key = some expiresAt then s
  else ⟨Function.update s.expiryAt key (some expiresAt), Heap.push Prod.snd s.expiryHeap (key, expiresAt)⟩

/-- The loop of `expireDueKeys`, with the keys that are due so far. -/
def popDue (now limit : Int) (due : List Bytes) (expiryAt : Bytes → Option Int) :
    List (Bytes × Int) → List Bytes × ExpiryArray
  | [] => (due, ⟨expiryAt, []⟩)
  | it :: rest =>
    if limit ≤ due.length ∨ now < it.2 then (due, ⟨expiryAt, it :: rest⟩)
    else if expiryAt it.1 ≠ some it.2 then popDue now limit due expiryAt (Heap.pop Prod.snd (it :: rest))
    else popDue now limit (due ++ [it.1]) (Function.update expiryAt it.1 none) (Heap.pop Prod.snd (it :: rest))
termination_by heap => heap.length
decreasing_by
  all_goals
    rw [(Heap.pop_perm it rest).length_eq]
    exact Nat.lt_succ_self _

def sweep (s : ExpiryArray) (limit now : Int) : List Bytes × ExpiryArray := popDue now limit [] s.expiryAt s.expiryHeap

inductive Call where
  | track (key : Bytes) (expiresAt : Int)
  | sweep (limit now : Int)

def call (s : ExpiryArray) : Call → ExpiryArray
  | .track key expiresAt => s.trackExpiry key expiresAt
  | .sweep limit now => (s.sweep limit now).2

def calls (cs : List Call) : ExpiryArray := cs.foldl call ⟨fun _ => none, []⟩

def Due (expiryAt : Bytes → Option Int) (now : Int) (key : Bytes) : Prop := ∃ t, expiryAt key = some t ∧ t ≤ now

/-- The heap is in order, and every recorded deadline is in it. -/
structure Sound (s : ExpiryArray) : Prop where
  ordered : Heap.Ordered (Heap.rank Prod.snd s.expiryHeap)
  recorded : ∀ key t, s.expiryAt key = some t → (key, t) ∈ s.expiryHeap

/-- The same as the index that has its items in any order. -/
def Refines (s : ExpiryArray) (ix : ExpiryIndex) : Prop := s.expiryAt = ix.expiryAt ∧ s.expiryHeap.Perm ix.expiryHeap

end ExpiryArray

/-! ## Items in order -/

/-- The keys are due, and all that are due are among them if the limit allows. -/
structure TakesDue (now : Int) (limit : Nat) (expiryAt : Bytes → Option Int) (due : List Bytes) : Prop where
  nodup : due.Nodup
  passed : ∀ key ∈ due, ExpiryArray.Due expiryAt now key
  all : ∀ key, ExpiryArray.Due expiryAt now key → key ∈ due ∨ due.length = limit

theorem of_update_none {expiryAt : Bytes → Option Int} {key k : Bytes} {t : Int}
    (h : Function.update expiryAt key none k = some t) : k ≠ key ∧ expiryAt k = some t := by
  rw [Function.update_apply] at h
  split at h
  · cases h
  · exact ⟨‹_›, h⟩

theorem dueKeys_takes (now : Int) (limit : Nat) {items : List (Bytes × Int)} {expiryAt : Bytes → Option Int}
    (hsorted : items.Pairwise fun a b => a.2 ≤ b.2) (hrec : ∀ key t, expiryAt key = some t → (key, t) ∈ items) :
    TakesDue now limit expiryAt (dueKeys now limit items expiryAt).1 ∧
      ∀ key t, (dueKeys now limit items expiryAt).2.expiryAt key = some t →
        (key, t) ∈ (dueKeys now limit items expiryAt).2.expiryHeap := by
  induction limit, items, expiryAt using dueKeys.induct now with
  | case1 items expiryAt =>
    rw [dueKeys]
    exact ⟨⟨List.nodup_nil, List.forall_mem_nil _, fun _ _ => Or.inr rfl⟩, hrec⟩
  | case2 limit expiryAt =>
    rw [dueKeys]
    refine ⟨⟨List.nodup_nil, List.forall_mem_nil _, fun key h => ?_⟩, hrec⟩
    obtain ⟨t, ht, -⟩ := h
    exact absurd (hrec key t ht) List.not_mem_nil
  | case3 limit it items expiryAt hlate =>
    rw [dueKeys, if_pos hlate]
    refine ⟨⟨List.nodup_nil, List.forall_mem_nil _, fun key h => ?_⟩, hrec⟩
    -- all others are later still
    obtain ⟨t, ht, hle⟩ := h
    have hfirst : it.2 ≤ t := by
      rcases List.mem_cons.mp (hrec key t ht) with rfl | hmem
      · exact le_refl _
      · exact (List.pairwise_cons.mp hsorted).1 _ hmem
    omega
  | case4 limit it items expiryAt hlate hstale ih =>
    rw [dueKeys, if_neg hlate, if_pos hstale]
    refine ih (List.pairwise_cons.mp hsorted).2 fun key t ht => (List.mem_cons.mp (hrec key t ht)).resolve_left ?_
    rintro rfl
    exact hstale ht
  | case5 limit it items expiryAt hlate htrue due ix heq ih =>
    have htrue := not_not.mp htrue
    obtain ⟨htail, hleft⟩ := ih (List.pairwise_cons.mp hsorted).2 fun key t ht =>
      (List.mem_cons.mp (hrec key t (of_update_none ht).2)).resolve_left fun h =>
        (of_update_none ht).1 (congrArg Prod.fst h)
    rw [dueKeys, if_neg hlate, if_neg (not_not.mpr htrue)]
    rw [heq] at htail hleft ⊢
    refine ⟨⟨List.nodup_cons.mpr ⟨fun hmem => ?_, htail.nodup⟩, fun key hkey => ?_, fun key hkey => ?_⟩, hleft⟩
    · obtain ⟨t, ht, -⟩ := htail.passed _ hmem
      exact (of_update_none ht).1 rfl
    · rcases List.mem_cons.mp hkey with rfl | hkey
      · exact ⟨it.2, htrue, not_lt.mp hlate⟩
      · obtain ⟨t, ht, hle⟩ := htail.passed key hkey
        exact ⟨t, (of_update_none ht).2, hle⟩
    · by_cases hk : key = it.1
      · exact Or.inl (hk ▸ List.mem_cons_self)
      · obtain ⟨t, ht, hle⟩ := hkey
        refine (htail.all key ⟨t, ?_, hle⟩).imp (List.mem_cons_of_mem _) fun hlen => congrArg Nat.succ hlen
        rw [Function.update_of_ne hk]
        exact ht

namespace ExpiryArray

/-! ## Items as they are popped -/

variable {s : ExpiryArray}

theorem sorted_cons {it : Bytes × Int} {rest items : List (Bytes × Int)}
    (h : Heap.Ordered (Heap.rank Prod.snd (it :: rest))) (hperm : items.Perm rest)
    (hsorted : items.Pairwise fun a b => a.2 ≤ b.2) : (it :: items).Pairwise fun a b => a.2 ≤ b.2 :=
  List.pairwise_cons.mpr ⟨fun y hy => Heap.root_least h y (List.mem_cons_of_mem _ (hperm.mem_iff.mp hy)), hsorted⟩

theorem popDue_refines (now limit : Int) (due : List Bytes) (expiryAt : Bytes → Option Int)
    {heap : List (Bytes × Int)} (h : Heap.Ordered (Heap.rank Prod.snd heap)) :
    ∃ items : List (Bytes × Int), items.Perm heap ∧ items.Pairwise (fun a b => a.2 ≤ b.2) ∧
      (popDue now limit due expiryAt heap).1 = due ++ (dueKeys now (limit - due.length).toNat items expiryAt).1 ∧
      (popDue now limit due expiryAt heap).2.Refines (dueKeys now (limit - due.length).toNat items expiryAt).2 ∧
      Heap.Ordered (Heap.rank Prod.snd (popDue now limit due expiryAt heap).2.expiryHeap) := by
  induction due, expiryAt, heap using popDue.induct now limit with
  | case1 due expiryAt =>
    have hnil : ∀ n, dueKeys now n [] expiryAt = ([], ⟨expiryAt, []⟩) := fun n => by cases n <;> rfl
    refine ⟨[], List.Perm.nil, List.Pairwise.nil, ?_⟩
    rw [popDue, hnil]
    exact ⟨(List.append_nil due).symm, ⟨rfl, List.Perm.nil⟩, h⟩
  | case2 due expiryAt it rest hstop =>
    -- the order of what is left does not matter
    obtain ⟨items, hperm, hsorted⟩ :
        ∃ items : List (Bytes × Int), items.Perm rest ∧ items.Pairwise fun a b => a.2 ≤ b.2 :=
      ⟨_, List.perm_insertionSort (fun a b => a.2 ≤ b.2) rest, List.pairwise_insertionSort _ rest⟩
    have hdue : dueKeys now (limit - due.length).toNat (it :: items) expiryAt = ([], ⟨expiryAt, it :: items⟩) := by
      rcases hstop with hfull | hlate
      · rw [Int.toNat_of_nonpos (by omega), dueKeys]
      · cases (limit - due.length).toNat with
        | zero => rw [dueKeys]
        | succ n => rw [dueKeys, if_pos hlate]
    refine ⟨it :: items, hperm.cons it, sorted_cons h hperm hsorted, ?_⟩
    rw [popDue, if_pos hstop, hdue]
    exact ⟨(List.append_nil due).symm, ⟨rfl, (hperm.cons it).symm⟩, h⟩
  | case3 due expiryAt it rest hgo hstale ih =>
    obtain ⟨items, hperm, hsorted, hdue⟩ := ih (Heap.ordered_pop h)
    have hperm := hperm.trans (Heap.pop_perm it rest)
    obtain ⟨hmore, hlate⟩ := not_or.mp hgo
    obtain ⟨n, hn⟩ : ∃ n, (limit - due.length).toNat = n + 1 := ⟨(limit - due.length).toNat - 1, by omega⟩
    refine ⟨it :: items, hperm.cons it, sorted_cons h hperm hsorted, ?_⟩
    rw [hn] at hdue
    rwa [popDue, if_neg hgo, if_pos hstale, hn, dueKeys, if_neg hlate, if_pos hstale]
  | case4 due expiryAt it rest hgo htrue ih =>
    obtain ⟨items, hperm, hsorted, hdue⟩ := ih (Heap.ordered_pop h)
    have hperm := hperm.trans (Heap.pop_perm it rest)
    obtain ⟨hmore, hlate⟩ := not_or.mp hgo
    have hn : (limit - due.length).toNat = (limit - (due ++ [it.1]).length).toNat + 1 := by
      rw [List.length_append, List.length_singleton]
      omega
    refine ⟨it :: items, hperm.cons it, sorted_cons h hperm hsorted, ?_⟩
    rw [popDue, if_neg hgo, if_neg htrue, hn, dueKeys, if_neg hlate, if_neg htrue, hdue.1, List.append_assoc]
    exact ⟨rfl, hdue.2⟩

theorem Sound.trackExpiry (h : s.Sound) (key : Bytes) (expiresAt : Int) : (s.trackExpiry key expiresAt).Sound := by
  unfold ExpiryArray.trackExpiry
  split
  · exact h
  split
  · exact ⟨h.ordered, fun k t ht => h.recorded k t (of_update_none ht).2⟩
  split
  · exact h
  · refine ⟨Heap.ordered_push h.ordered _, fun k t ht => (Heap.push_perm _ _).mem_iff.mpr ?_⟩
    have hval : Function.update s.expiryAt key (some expiresAt) k = some t := ht
    rw [Function.update_apply] at hval
    split at hval
    · rename_i hk
      rw [hk, ← Option.some.inj hval]
      exact List.mem_cons_self
    · exact List.mem_cons_of_mem _ (h.recorded k t hval)

theorem Sound.sweep (h : s.Sound) (limit now : Int) :
    (s.sweep limit now).2.Sound ∧ TakesDue now limit.toNat s.expiryAt (s.sweep limit now).1 := by
  obtain ⟨items, hperm, hsorted, hdue, ⟨hat, hheap⟩, hordered⟩ :=
    popDue_refines now limit [] s.expiryAt h.ordered
  rw [List.length_nil, Nat.cast_zero, sub_zero] at hdue hat hheap
  obtain ⟨htakes, hleft⟩ := dueKeys_takes now limit.toNat hsorted fun key t ht =>
    hperm.mem_iff.mpr (h.recorded key t ht)
  refine ⟨⟨hordered, fun key t ht => hheap.mem_iff.mpr (hleft key t ?_)⟩, ?_⟩
  · rw [← hat]
    exact ht
  · rw [ExpiryArray.sweep, hdue]
    exact htakes

theorem sound_calls (cs : List Call) : (calls cs).Sound := by
  induction cs using List.reverseRecOn with
  | nil => exact ⟨fun c _ => le_refl _, fun key t ht => nomatch ht⟩
  | append_singleton cs c ih =>
    rw [calls, List.foldl_append]
    cases c with
    | track key expiresAt => exact ih.trackExpiry key expiresAt
    | sweep limit now => exact (ih.sweep limit now).1

/-- **The index loses no deadline**, and a sweep takes what is due, up to its limit. -/
theorem index_keeps_deadlines (cs : List Call) :
    (calls cs).Sound ∧ ∀ limit now : Int,
      ((calls cs).sweep limit now).1.Nodup ∧
        (∀ key ∈ ((calls cs).sweep limit now).1, Due (calls cs).expiryAt now key) ∧
        ({key | Due (calls cs).expiryAt now key}.encard ≤ limit.toNat →
          ∀ key, Due (calls cs).expiryAt now key → key ∈ ((calls cs).sweep limit now).1) := by
  refine ⟨sound_calls cs, fun limit now => ?_⟩
  obtain ⟨-, hnodup, hpassed, hall⟩ := (sound_calls cs).sweep limit now
  refine ⟨hnodup, hpassed, fun hfew key hkey => ?_⟩
  by_contra hmissing
  -- the keys that were taken and the one that was not are more than the limit
  have hfull := (hall key hkey).resolve_left hmissing
  have hdue : (↑(key :: ((calls cs).sweep limit now).1).toFinset : Set Bytes) ⊆
      {key | Due (calls cs).expiryAt now key} := by
    intro k hk
    rcases List.mem_cons.mp (List.mem_toFinset.mp hk) with rfl | hk
    · exact hkey
    · exact hpassed k hk
  have hcard := (Set.encard_le_encard hdue).trans hfew
  rw [Set.encard_coe_eq_coe_finsetCard, List.toFinset_card_of_nodup (List.nodup_cons.mpr ⟨hmissing, hnodup⟩),
    List.length_cons, hfull, Nat.cast_le] at hcard
  exact Nat.not_succ_le_self _ hcard

example : ((calls [.track [107] 5, .track [106] 9, .track [107] 0, .track [107] 5]).sweep 32 7).1 = [[107]] := by
  decide +kernel

end ExpiryArray
end Client
end AkwaDB
