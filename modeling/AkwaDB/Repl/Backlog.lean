import AkwaDB.Lib.Ring
import AkwaDB.Repl.Replica

/-!
# AkwaDB.Repl.Backlog

The ring of recent entries from which a replica that comes back is served.

* `Backlog.Keeps rb pushed` — the ring holds the last entries of all that were pushed, numbered from
  one on,
* `Keeps.since_eq` — a position is served if it is in the ring, and then with every entry behind it,
* `ReplBacklog.since_of_lt` — so it is with the `uint64` numbers of the code, up to 2^64 - 2 entries.
-/

namespace AkwaDB
namespace Repl

structure Backlog where
  entries : Ring ReplEntry
  nextSeq : Nat

def Backlog.new (capacity : Nat) (h : 0 < capacity) : Backlog :=
  ⟨.make capacity h ⟨.delete, [], [], 0, 0⟩, 0⟩

/-- `Push`, without the number it returns, which is that of the backlog afterwards. -/
def Backlog.push (rb : Backlog) (e : ReplEntry) : Backlog :=
  ⟨rb.entries.push { e with seq := rb.nextSeq + 1 }, rb.nextSeq + 1⟩

def Backlog.since (rb : Backlog) (lastSeq : Nat) : Option (List ReplEntry) :=
  if lastSeq = 0 then none
  else if rb.nextSeq < lastSeq then none
  else if rb.entries.count = 0 then (if lastSeq = rb.nextSeq then some [] else none)
  else
    let oldest := rb.nextSeq - rb.entries.count + 1
    if lastSeq + 1 < oldest then none
    else some (rb.entries.toList.filter fun e => decide (lastSeq < e.seq))

/-- The entry at each position has the number of the position, from one on. -/
def Numbered (es : List ReplEntry) : Prop := ∀ i e, es[i]? = some e → e.seq = i + 1

theorem Numbered.append {es : List ReplEntry} (h : Numbered es) {e : ReplEntry}
    (he : e.seq = es.length + 1) : Numbered (es ++ [e]) := by
  intro i x hx
  rcases Nat.lt_trichotomy i es.length with hlt | rfl | hgt
  · rw [List.getElem?_append_left hlt] at hx
    exact h i x hx
  · rw [List.getElem?_concat_length] at hx
    cases hx
    exact he
  · rw [List.getElem?_eq_none (by simp; omega)] at hx
    cases hx

theorem Numbered.mem_drop {es : List ReplEntry} (h : Numbered es) {n : Nat} {e : ReplEntry} :
    e ∈ es.drop n ↔ e ∈ es ∧ n < e.seq := by
  constructor
  · intro he
    obtain ⟨i, hi⟩ := List.mem_iff_getElem?.mp he
    rw [List.getElem?_drop] at hi
    have := h _ e hi
    exact ⟨List.mem_of_mem_drop he, by omega⟩
  · rintro ⟨he, hn⟩
    obtain ⟨i, hi⟩ := List.mem_iff_getElem?.mp he
    have := h i e hi
    refine List.mem_iff_getElem?.mpr ⟨i - n, ?_⟩
    rw [List.getElem?_drop, ← hi]
    congr 1
    omega

theorem Numbered.filter_drop {es : List ReplEntry} (h : Numbered es) (n : Nat) :
    es.filter (fun e => decide (n < e.seq)) = es.drop n := by
  conv => lhs; rw [← List.take_append_drop n es]
  rw [List.filter_append]
  have hfront : (es.take n).filter (fun e => decide (n < e.seq)) = [] := by
    refine List.filter_eq_nil_iff.mpr fun e he => ?_
    obtain ⟨i, hi⟩ := List.mem_iff_getElem?.mp he
    have hin : i < n := by
      have := (List.getElem?_eq_some_iff.mp hi).1
      rw [List.length_take] at this
      omega
    rw [List.getElem?_take_of_lt hin] at hi
    have := h i e hi
    simp only [decide_eq_true_eq]
    omega
  have hback : (es.drop n).filter (fun e => decide (n < e.seq)) = es.drop n := by
    refine List.filter_eq_self.mpr fun e he => ?_
    exact decide_eq_true ((h.mem_drop).mp he).2
  rw [hfront, hback, List.nil_append]

namespace Backlog

/-- The ring holds the last of the entries that were pushed. -/
structure Keeps (rb : Backlog) (pushed : List ReplEntry) : Prop where
  numbered : Numbered pushed
  nextSeq_eq : rb.nextSeq = pushed.length
  kept : rb.entries.toList = pushed.drop (pushed.length - rb.entries.capacity)

theorem keeps_new (capacity : Nat) (h : 0 < capacity) : (Backlog.new capacity h).Keeps [] :=
  ⟨fun i e he => by simp at he, rfl, by simp [Backlog.new]⟩

theorem Keeps.count_eq {rb : Backlog} {pushed : List ReplEntry} (h : rb.Keeps pushed) :
    rb.entries.count = min pushed.length rb.entries.capacity := by
  rw [← Ring.length_toList, h.kept, List.length_drop]
  omega

theorem Keeps.push {rb : Backlog} {pushed : List ReplEntry} (h : rb.Keeps pushed) (e : ReplEntry) :
    (rb.push e).Keeps (pushed ++ [{ e with seq := rb.nextSeq + 1 }]) := by
  have hcount := h.count_eq
  refine ⟨h.numbered.append (by simp [h.nextSeq_eq]), by simp [Backlog.push, h.nextSeq_eq], ?_⟩
  have hsplit : rb.entries.toList ++ [{ e with seq := rb.nextSeq + 1 }] =
      (pushed ++ [{ e with seq := rb.nextSeq + 1 }]).drop (pushed.length - rb.entries.capacity) := by
    rw [h.kept, List.drop_append_of_le_length (by omega)]
  simp only [Backlog.push, Ring.toList_push, Ring.capacity_push, List.length_append, List.length_singleton]
  rw [hsplit, List.drop_drop]
  congr 1
  omega

theorem Keeps.since_eq {rb : Backlog} {pushed : List ReplEntry} (h : rb.Keeps pushed) (lastSeq : Nat) :
    rb.since lastSeq = if 0 < lastSeq ∧ lastSeq ≤ pushed.length ∧ pushed.length ≤ lastSeq + rb.entries.capacity
      then some (pushed.drop lastSeq) else none := by
  have hcount := h.count_eq
  have hnext := h.nextSeq_eq
  have hroom : 0 < rb.entries.capacity := rb.entries.room
  unfold since
  split
  · rw [if_neg (by omega)]
  split
  · rw [if_neg (by omega)]
  rw [if_neg (by omega)]
  dsimp only
  by_cases hold : lastSeq + 1 < rb.nextSeq - rb.entries.count + 1
  · rw [if_pos hold, if_neg (by omega)]
  · rw [if_neg hold, if_pos (by omega), h.kept]
    congr 1
    rw [← h.numbered.filter_drop, ← h.numbered.filter_drop, List.filter_filter]
    refine List.filter_congr fun e he => ?_
    rw [Bool.and_eq_left_iff_imp, decide_eq_true_eq, decide_eq_true_eq]
    omega

end Backlog

/-! ## Numbers of 64 bits -/

structure ReplBacklog where
  entries : Ring ReplEntry
  nextSeq : UInt64

namespace ReplBacklog

def new (capacity : Nat) (h : 0 < capacity) : ReplBacklog := ⟨(Backlog.new capacity h).entries, 0⟩

def push (rb : ReplBacklog) (e : ReplEntry) : ReplBacklog :=
  ⟨rb.entries.push { e with seq := (rb.nextSeq + 1).toNat }, rb.nextSeq + 1⟩

def since (rb : ReplBacklog) (lastSeq : UInt64) : Option (List ReplEntry) :=
  if lastSeq = 0 then none
  else if rb.nextSeq < lastSeq then none
  else if rb.entries.count = 0 then (if lastSeq = rb.nextSeq then some [] else none)
  else
    let oldest := rb.nextSeq - UInt64.ofNat rb.entries.count + 1
    if lastSeq + 1 < oldest then none
    else some (rb.entries.toList.filter fun e => decide (lastSeq.toNat < e.seq))

def numbered (pushed : List ReplEntry) : List ReplEntry := pushed.mapIdx fun i e => { e with seq := i + 1 }

/-- What a replica at `lastSeq` is owed: the entries behind it, while all of them are among the last `capacity`. -/
def window (capacity : Nat) (pushed : List ReplEntry) (lastSeq : Nat) : Option (List ReplEntry) :=
  if 0 < lastSeq ∧ lastSeq ≤ pushed.length ∧ pushed.length ≤ lastSeq + capacity then
    some ((numbered pushed).drop lastSeq)
  else none

variable {capacity : Nat} {h : 0 < capacity} {pushed : List ReplEntry}

theorem keeps_numbered (h : 0 < capacity) (pushed : List ReplEntry) :
    (pushed.foldl Backlog.push (.new capacity h)).Keeps (numbered pushed) := by
  induction pushed using List.reverseRecOn with
  | nil => exact Backlog.keeps_new capacity h
  | append_singleton pushed e ih =>
    have hseq : (pushed.foldl Backlog.push (.new capacity h)).nextSeq = pushed.length := by
      rw [ih.nextSeq_eq, numbered, List.length_mapIdx]
    have hpush := ih.push e
    rw [hseq] at hpush
    rwa [List.foldl_append, numbered, List.mapIdx_concat]

theorem capacity_foldl (h : 0 < capacity) (pushed : List ReplEntry) :
    (pushed.foldl Backlog.push (.new capacity h)).entries.capacity = capacity := by
  induction pushed using List.reverseRecOn with
  | nil => rfl
  | append_singleton pushed e ih =>
    rw [List.foldl_append]
    exact (Ring.capacity_push _ _).trans ih

/-- Up to 2^64 entries the numbers are those of the backlog that counts on. -/
theorem foldl_push (hlen : pushed.length < 2 ^ 64) :
    (pushed.foldl push (new capacity h)).entries = (pushed.foldl Backlog.push (.new capacity h)).entries ∧
      (pushed.foldl push (new capacity h)).nextSeq.toNat = pushed.length := by
  induction pushed using List.reverseRecOn with
  | nil => exact ⟨rfl, rfl⟩
  | append_singleton pushed e ih =>
    rw [List.length_append, List.length_singleton] at hlen
    obtain ⟨hentries, hnext⟩ := ih (by omega)
    have hseq : (pushed.foldl Backlog.push (.new capacity h)).nextSeq = pushed.length := by
      rw [(keeps_numbered h pushed).nextSeq_eq, numbered, List.length_mapIdx]
    rw [List.foldl_append, List.foldl_append]
    have hadd : ((pushed.foldl push (new capacity h)).nextSeq + 1).toNat = pushed.length + 1 := by
      rw [UInt64.toNat_add, hnext]
      exact Nat.mod_eq_of_lt hlen
    refine ⟨?_, by simpa [push] using hadd⟩
    simp only [List.foldl_cons, List.foldl_nil, push, Backlog.push, hadd, hentries, hseq]

theorem count_foldl (hlen : pushed.length < 2 ^ 64) :
    (pushed.foldl push (new capacity h)).entries.count = min pushed.length capacity := by
  rw [(foldl_push hlen).1, (keeps_numbered h pushed).count_eq, capacity_foldl, numbered, List.length_mapIdx]

theorem oldest_toNat {next : UInt64} {count : Nat} (hcount : count ≤ next.toNat) (hpos : 0 < count) :
    (next - UInt64.ofNat count + 1).toNat = next.toNat - count + 1 := by
  have hlt := next.toNat_lt
  have hof : (UInt64.ofNat count).toNat = count := UInt64.toNat_ofNat_of_lt' (lt_of_le_of_lt hcount hlt)
  have hsub : (next - UInt64.ofNat count).toNat = next.toNat - count := by
    rw [UInt64.toNat_sub_of_le _ _ (UInt64.le_iff_toNat_le.mpr (hof.symm ▸ hcount)), hof]
  rw [UInt64.toNat_add, hsub]
  exact Nat.mod_eq_of_lt (by show next.toNat - count + 1 < 2 ^ 64; omega)

/-- **The backlog is a window on what was pushed**: while the number behind the last entry is a `uint64`. -/
theorem since_of_lt (hlen : pushed.length < 2 ^ 64 - 1) (lastSeq : UInt64) :
    (pushed.foldl push (new capacity h)).since lastSeq = window capacity pushed lastSeq.toNat := by
  obtain ⟨hentries, hnext⟩ := @foldl_push capacity h pushed (by omega)
  have hcount := @count_foldl capacity h pushed (by omega)
  have hnat := (keeps_numbered h pushed).since_eq lastSeq.toNat
  have hseq := (keeps_numbered h pushed).nextSeq_eq
  rw [numbered, List.length_mapIdx] at hseq hnat
  rw [capacity_foldl, ← numbered] at hnat
  rw [window, ← hnat, since, Backlog.since, ← hentries, hseq, ← hnext]
  simp only [← UInt64.toNat_inj, UInt64.lt_iff_toNat_lt, UInt64.toNat_zero]
  -- the two only differ in the addition and the subtraction
  split
  · rfl
  split
  · rfl
  rename_i hle
  split
  · rfl
  rename_i hne
  have hadd : (lastSeq + 1).toNat = lastSeq.toNat + 1 := by
    rw [UInt64.toNat_add]
    exact Nat.mod_eq_of_lt (by show lastSeq.toNat + 1 < 2 ^ 64; omega)
  have holdest := @oldest_toNat (pushed.foldl push (new capacity h)).nextSeq
    (pushed.foldl push (new capacity h)).entries.count (by omega) (Nat.pos_of_ne_zero hne)
  simp only [hadd, holdest]

theorem since_of_lt_three :
    let e : ReplEntry := ⟨.delete, [107], [], 0, 0⟩
    ([e, e, e].foldl push (new 2 (by decide))).since 1 = some [{ e with seq := 2 }, { e with seq := 3 }] ∧
      ([e, e, e, e].foldl push (new 2 (by decide))).since 1 = none := by
  intro e
  exact ⟨since_of_lt (by decide) 1, since_of_lt (by decide) 1⟩

end ReplBacklog

end Repl
end AkwaDB
