import AkwaDB.Txn.System

/-!
# AkwaDB.Txn.Snapshot

What a snapshot sees.

A version is in flight from the moment the oracle assigns it until `MarkApplied`. `Inv` says that
these are exactly the awaited versions, that `appliedTs` stays below them, and that every other
version is settled: all entries of its batch are inserted, or none.

- `settled_below`: nothing changes at or below a timestamp that `NewReadTs` has returned.
- `acked_le_readTs_iff`: the next transaction reads at an acknowledged version or above exactly when no lower
  version is in flight.
-/

namespace AkwaDB
namespace Txn

variable {xxhash : Bytes → UInt64}

/-! ## Versions in flight -/

def Proc.version : Proc → Option Nat
  | .checked _ commitTs => some commitTs
  | .submitted _ commitTs _ => some commitTs
  | .assigned version _ => some version
  | .inserting b _ => some b.version
  | _ => none

def inFlight (procs : List Proc) : List Nat := procs.filterMap Proc.version

theorem mem_inFlight_cons {l r : List Proc} {p : Proc} {v : Nat} :
    v ∈ inFlight (l ++ p :: r) ↔ p.version = some v ∨ v ∈ inFlight (l ++ r) := by
  simp only [inFlight, List.mem_filterMap, List.mem_append, List.mem_cons]
  constructor
  · rintro ⟨q, hq | rfl | hq, hv⟩
    · exact Or.inr ⟨q, Or.inl hq, hv⟩
    · exact Or.inl hv
    · exact Or.inr ⟨q, Or.inr hq, hv⟩
  · rintro (hv | ⟨q, hq, hv⟩)
    · exact ⟨p, Or.inr (Or.inl rfl), hv⟩
    · exact ⟨q, hq.imp_right Or.inr, hv⟩

def held (log : List Entry) (v : Nat) : List Entry := log.filter fun x => decide (x.version = v)

def seen (log : List Entry) (r : Nat) : List Entry := log.filter fun x => decide (x.version ≤ r)

@[simp] theorem held_append (l m : List Entry) (v : Nat) : held (l ++ m) v = held l v ++ held m v :=
  List.filter_append ..

theorem held_eq_nil {log : List Entry} {v : Nat} : held log v = [] ↔ ∀ x ∈ log, x.version ≠ v := by
  simp [held]

theorem held_seen (log : List Entry) {r v : Nat} :
    held (seen log r) v = if v ≤ r then held log v else [] := by
  simp only [held, seen, List.filter_filter]
  split
  · refine List.filter_congr fun x _ => ?_
    by_cases hx : x.version = v
    · simp [*]
    · simp [hx]
  · rw [List.filter_eq_nil_iff]
    intro x _ hx
    simp only [Bool.and_eq_true, decide_eq_true_eq] at hx
    omega

def Proc.Progress (sh : Shared) : Proc → Prop
  | .checked _ commitTs => held sh.log commitTs = []
  | .submitted _ commitTs entries => held sh.log commitTs = [] ∧ ∀ x ∈ entries, x.version = commitTs
  | .assigned version _ => held sh.log version = []
  | .inserting b todo =>
    held sh.log b.version ++ todo = b.entries ∧ ∀ x ∈ b.entries, x.version = b.version
  | .settled b ok => (b, ok) ∈ sh.batches
  | _ => True

structure Inv (n : Nat) (sh : Shared) (procs : List Proc) : Prop where
  ok : sh.oracle.Ok
  tight : sh.oracle.Tight
  indexed : sh.oracle.Indexed
  start : n ≤ sh.oracle.appliedTs
  awaiting : ∀ v, v ∈ sh.oracle.awaiting ↔ v ∈ inFlight procs
  le : ∀ v ∈ inFlight procs, v ≤ sh.oracle.nextTs
  nodup : (inFlight procs).Nodup
  known : ∀ x ∈ sh.log, x.version ≤ sh.oracle.nextTs
  progress : ∀ p ∈ procs, p.Progress sh
  settled : ∀ e ∈ sh.batches, n < e.1.version ∧ e.1.version ≤ sh.oracle.nextTs ∧
    e.1.version ∉ inFlight procs ∧ held sh.log e.1.version = if e.2 then e.1.entries else []
  all : ∀ v, n < v → v ≤ sh.oracle.nextTs → v ∈ inFlight procs ∨ ∃ e ∈ sh.batches, e.1.version = v
  once : (sh.batches.map fun e => e.1.version).Nodup
  acked : ∀ c ∈ sh.acked, ∃ e ∈ sh.batches, e.1.version = c ∧ e.2 = true

/-- A step keeps the invariant and what readers at or below `appliedTs` see. -/
structure Advance (n : Nat) (sh sh' : Shared) (procs : List Proc) : Prop where
  inv : Inv n sh' procs
  applied : sh.oracle.appliedTs ≤ sh'.oracle.appliedTs
  stable : ∀ ts ≤ sh.oracle.appliedTs, seen sh'.log ts = seen sh.log ts

/-! ## What one step does to the versions -/

/-- Operations that neither assign nor settle a version. -/
structure Calm (o o' : Oracle) : Prop where
  ok : o'.Ok
  tight : o'.Tight
  le : o.appliedTs ≤ o'.appliedTs
  nextTs : o'.nextTs = o.nextTs
  awaiting : ∀ v, v ∈ o'.awaiting ↔ v ∈ o.awaiting

namespace Calm

variable {o : Oracle}

theorem refl (h : o.Ok) (ht : o.Tight) : Calm o o := ⟨h, ht, Nat.le_refl _, rfl, fun _ => Iff.rfl⟩

theorem newReadTs (h : o.Ok) (ht : o.Tight) : Calm o o.newReadTs.2 :=
  ⟨(Oracle.newReadTs_ok h).1, ⟨ht.below, ht.reach⟩, Nat.le_refl _, rfl, fun _ => Iff.rfl⟩

theorem done (h : o.Ok) (ht : o.Tight) (readTs : Nat) : Calm o (o.done readTs) :=
  ⟨(Oracle.done_ok h readTs).1, ⟨ht.below, ht.reach⟩, Nat.le_refl _, rfl, fun _ => Iff.rfl⟩

theorem reserveVersion (h : o.Ok) (ht : o.Tight) {ts : Nat} (hts : ts ∈ o.awaiting)
    (hle : ts ≤ o.nextTs) : Calm o (o.reserveVersion ts) := by
  have hmem : ∀ v, v ∈ (o.reserveVersion ts).awaiting ↔ v ∈ o.awaiting := by
    intro v
    simp only [Oracle.reserveVersion, if_pos (ht.below ts hts), List.mem_cons]
    exact ⟨fun hv => hv.elim (fun he => he ▸ hts) id, Or.inr⟩
  have hnext : (o.reserveVersion ts).nextTs = o.nextTs := Nat.max_eq_left hle
  refine ⟨⟨h.pos, ?_, h.mark⟩, ⟨?_, ?_⟩, Nat.le_refl _, hnext, hmem⟩
  · rw [hnext]
    exact h.le
  · exact fun v hv => ht.below v ((hmem v).mp hv)
  · rw [hnext]
    exact ht.reach.imp_right fun hr => (hmem _).mpr hr

theorem advanceApplied (h : o.Ok) (ht : o.Tight) : Calm o o.advanceApplied :=
  ⟨Oracle.advanceApplied_ok h, Oracle.advanceApplied_tight h.le ht.below, o.le_advanceApplied, rfl,
    fun _ => Iff.rfl⟩

theorem forget (h : o.Ok) (ht : o.Tight) {ts : Nat} (hts : ts ∉ o.awaiting) :
    Calm o (Oracle.advanceApplied { o with awaiting := o.awaiting.filter (· ≠ ts) }) := by
  have hsame : o.awaiting.filter (· ≠ ts) = o.awaiting := by
    rw [List.filter_eq_self]
    intro v hv
    have hne : v ≠ ts := fun he => hts (he ▸ hv)
    simpa using hne
  rw [hsame]
  exact advanceApplied h ht

end Calm

variable {n : Nat} {sh sh' : Shared} {l r : List Proc} {p q : Proc}

theorem Proc.Progress.mono (h : p.Progress sh)
    (hlog : ∀ v, p.version = some v → held sh'.log v = held sh.log v)
    (hb : ∀ e ∈ sh.batches, e ∈ sh'.batches) : p.Progress sh' := by
  cases p with
  | settled b ok => exact hb _ h
  | checked t c => simpa only [Progress, hlog c rfl] using h
  | submitted t c es => simpa only [Progress, hlog c rfl] using h
  | assigned v req => simpa only [Progress, hlog v rfl] using h
  | inserting b todo => simpa only [Progress, hlog b.version rfl] using h
  | idle => trivial
  | running t => trivial
  | queued req => trivial
  | ending t => trivial

theorem inFlight_congr (hv : q.version = p.version) :
    inFlight (l ++ q :: r) = inFlight (l ++ p :: r) := by
  simp only [inFlight, List.filterMap_append, List.filterMap_cons, hv]

theorem version_ne (hnd : (inFlight (l ++ p :: r)).Nodup) {v : Nat} (hp : p.version = some v)
    {x : Proc} (hx : x ∈ l ++ r) : x.version ≠ some v := by
  intro hxv
  simp only [inFlight, List.filterMap_append, List.filterMap_cons, hp] at hnd
  have hnot := (List.nodup_cons.mp (List.nodup_middle.mp hnd)).1
  rw [← List.filterMap_append] at hnot
  exact hnot (List.mem_filterMap.mpr ⟨x, hx, hxv⟩)

theorem mem_inFlight_done (hnd : (inFlight (l ++ p :: r)).Nodup) {c : Nat} (hp : p.version = some c)
    (hq : q.version = none) (v : Nat) :
    v ∈ inFlight (l ++ q :: r) ↔ v ≠ c ∧ v ∈ inFlight (l ++ p :: r) := by
  rw [mem_inFlight_cons, mem_inFlight_cons, hp, hq]
  simp only [Option.some.injEq, reduceCtorEq, false_or]
  constructor
  · intro hv
    refine ⟨?_, Or.inr hv⟩
    rintro rfl
    obtain ⟨x, hx, hxv⟩ := List.mem_filterMap.mp hv
    exact version_ne hnd hp hx hxv
  · rintro ⟨hne, heq | hv⟩
    · exact absurd heq.symm hne
    · exact hv

namespace Inv

section
variable (h : Inv n sh (l ++ p :: r))
include h

theorem keep (hlog : sh'.log = sh.log) (hb : sh'.batches = sh.batches)
    (hack : ∀ c ∈ sh'.acked, c ∈ sh.acked ∨ ∃ es t, p = .settled ⟨c, t, es⟩ true)
    (hc : Calm sh.oracle.toOracle sh'.oracle.toOracle) (hx : sh'.oracle.Indexed)
    (hv : q.version = p.version) (hq : q.Progress sh) : Advance n sh sh' (l ++ q :: r) := by
  have hfl : inFlight (l ++ q :: r) = inFlight (l ++ p :: r) := inFlight_congr hv
  refine ⟨⟨hc.ok, hc.tight, hx, Nat.le_trans h.start hc.le, ?_, ?_, ?_, ?_, ?_, ?_, ?_, hb ▸ h.once, ?_⟩,
    hc.le, fun ts _ => by rw [hlog]⟩
  · intro v
    rw [hfl, hc.awaiting]
    exact h.awaiting v
  · rw [hfl, hc.nextTs]
    exact h.le
  · rw [hfl]
    exact h.nodup
  · rw [hlog, hc.nextTs]
    exact h.known
  · intro x hx
    refine Proc.Progress.mono ?_ (fun v _ => by rw [hlog]) (fun e he => hb ▸ he)
    cases mem_middle.mp hx with
    | inl heq => exact heq ▸ hq
    | inr hx => exact h.progress x (mem_middle.mpr (Or.inr hx))
  · rw [hfl, hlog, hb, hc.nextTs]
    exact h.settled
  · rw [hfl, hb, hc.nextTs]
    exact h.all
  · intro c hmem
    rw [hb]
    rcases hack c hmem with hc | ⟨es, t, rfl⟩
    · exact h.acked c hc
    · exact ⟨(⟨c, t, es⟩, true), h.progress (.settled ⟨c, t, es⟩ true) (by simp), rfl, rfl⟩

theorem stay (hv : q.version = p.version) (hq : q.Progress sh) : Advance n sh sh (l ++ q :: r) :=
  h.keep rfl rfl (fun _ hc => Or.inl hc) (Calm.refl h.ok h.tight) h.indexed hv hq

theorem calm {f : Oracle → Oracle} (hc : Calm sh.oracle.toOracle (f sh.oracle.toOracle))
    (hv : q.version = p.version) (hq : q.Progress sh) :
    Advance n sh (sh.mapOracle f) (l ++ q :: r) :=
  h.keep rfl rfl (fun _ hc => Or.inl hc) hc (h.indexed.mapBase (Nat.le_of_eq hc.nextTs.symm)) hv hq

theorem take (hlog : sh'.log = sh.log) (hb : sh'.batches = sh.batches)
    (hack : sh'.acked = sh.acked) (ho : sh'.oracle.toOracle = sh.oracle.toOracle.newCommitTs.2)
    (hx : sh'.oracle.Indexed) (hp : p.version = none)
    (hv : q.version = some (sh.oracle.nextTs + 1))
    (hq : held sh.log (sh.oracle.nextTs + 1) = [] → q.Progress sh) :
    Advance n sh sh' (l ++ q :: r) := by
  have hnext : sh'.oracle.nextTs = sh.oracle.nextTs + 1 := by rw [ho]; rfl
  have happ : sh'.oracle.appliedTs = sh.oracle.appliedTs := by rw [ho]; rfl
  have hold : ∀ v, v ∈ inFlight (l ++ r) ↔ v ∈ inFlight (l ++ p :: r) := by
    intro v
    rw [mem_inFlight_cons, hp]
    simp
  have hfl : ∀ v, v ∈ inFlight (l ++ q :: r) ↔
      v = sh.oracle.nextTs + 1 ∨ v ∈ inFlight (l ++ p :: r) := by
    intro v
    rw [mem_inFlight_cons, hv, hold, Option.some.injEq, eq_comm]
  have hnew : sh.oracle.nextTs + 1 ∉ inFlight (l ++ p :: r) := fun hm => by
    have := h.le _ hm
    omega
  refine ⟨⟨?_, ?_, hx, ?_, ?_, ?_, ?_, ?_, ?_, ?_, ?_, hb ▸ h.once, ?_⟩, Nat.le_of_eq happ.symm,
    fun ts _ => by rw [hlog]⟩
  · rw [ho]
    exact (Oracle.newCommitTs_ok h.ok).1
  · rw [ho]
    exact Oracle.newCommitTs_tight h.ok.le h.tight
  · rw [happ]
    exact h.start
  · intro v
    rw [hfl, ho, ← h.awaiting]
    exact List.mem_cons
  · intro v hm
    rw [hnext]
    cases (hfl v).mp hm with
    | inl heq => omega
    | inr hm => exact Nat.le_succ_of_le (h.le v hm)
  · have hnd := h.nodup
    simp only [inFlight, List.filterMap_append, List.filterMap_cons, hp, hv] at hnd ⊢
    refine List.nodup_middle.mpr (List.nodup_cons.mpr ⟨?_, hnd⟩)
    rw [← List.filterMap_append]
    exact fun hm => hnew ((hold _).mp hm)
  · rw [hlog, hnext]
    exact fun x hx => Nat.le_succ_of_le (h.known x hx)
  · intro x hx
    refine Proc.Progress.mono ?_ (fun v _ => by rw [hlog]) (fun e he => hb ▸ he)
    cases mem_middle.mp hx with
    | inl heq =>
      refine heq ▸ hq (held_eq_nil.mpr fun y hy hyv => ?_)
      have := h.known y hy
      omega
    | inr hx => exact h.progress x (mem_middle.mpr (Or.inr hx))
  · intro e he
    rw [hb] at he
    obtain ⟨h1, h2, h3, h4⟩ := h.settled e he
    rw [hlog, hnext]
    refine ⟨h1, Nat.le_succ_of_le h2, fun hm => ?_, h4⟩
    cases (hfl _).mp hm with
    | inl heq => omega
    | inr hm => exact h3 hm
  · intro v h1 h2
    rw [hfl, hb]
    by_cases heq : v = sh.oracle.nextTs + 1
    · exact Or.inl (Or.inl heq)
    · exact (h.all v h1 (by omega)).imp_left Or.inr
  · rw [hack, hb]
    exact h.acked

end

theorem insert {b : Batch} {x : Entry} {todo : List Entry}
    (h : Inv n sh (l ++ .inserting b (x :: todo) :: r)) :
    Advance n sh { sh with log := sh.log ++ [x] } (l ++ .inserting b todo :: r) := by
  obtain ⟨hheld, hver⟩ := h.progress (.inserting b (x :: todo)) (by simp)
  have hx : x.version = b.version := hver x (by rw [← hheld]; simp)
  have hmem : b.version ∈ inFlight (l ++ .inserting b (x :: todo) :: r) :=
    mem_inFlight_cons.mpr (Or.inl rfl)
  have hfl : inFlight (l ++ .inserting b todo :: r) =
      inFlight (l ++ .inserting b (x :: todo) :: r) := inFlight_congr rfl
  have hother : ∀ v, v ≠ b.version → held (sh.log ++ [x]) v = held sh.log v := by
    intro v hv
    have hnil : held [x] v = [] := held_eq_nil.mpr (by simpa [hx] using hv.symm)
    rw [held_append, hnil, List.append_nil]
  refine ⟨⟨h.ok, h.tight, h.indexed, h.start, ?_, ?_, ?_, ?_, ?_, ?_, ?_, h.once, h.acked⟩,
    Nat.le_refl _, ?_⟩
  · rw [hfl]
    exact h.awaiting
  · rw [hfl]
    exact h.le
  · rw [hfl]
    exact h.nodup
  · intro y hy
    cases List.mem_append.mp hy with
    | inl hy => exact h.known y hy
    | inr hy =>
      rw [List.mem_singleton.mp hy, hx]
      exact h.le _ hmem
  · -- the other goroutines have other versions
    intro y hy
    cases mem_middle.mp hy with
    | inl heq =>
      subst heq
      have hone : held [x] b.version = [x] := by simp [held, hx]
      refine ⟨?_, hver⟩
      rw [← hheld]
      simp [hone]
    | inr hy =>
      refine (h.progress y (mem_middle.mpr (Or.inr hy))).mono ?_ fun e he => he
      intro v hv
      exact hother v fun heq => version_ne h.nodup rfl hy (heq ▸ hv)
  · intro e he
    obtain ⟨h1, h2, h3, h4⟩ := h.settled e he
    rw [hfl]
    refine ⟨h1, h2, h3, ?_⟩
    have hne : e.1.version ≠ b.version := fun heq => h3 (heq ▸ hmem)
    rw [hother _ hne]
    exact h4
  · rw [hfl]
    exact h.all
  · intro ts hts
    have hlt := h.tight.below _ ((h.awaiting _).mpr hmem)
    have hnot : ¬ x.version ≤ ts := by omega
    simp [seen, hnot]

theorem settle {b : Batch} {ok : Bool} (h : Inv n sh (l ++ p :: r)) (hp : p.version = some b.version)
    (hheld : held sh.log b.version = if ok then b.entries else []) :
    Advance n sh (sh.settle b ok).1 (l ++ .settled b ok :: r) := by
  have hmem : b.version ∈ inFlight (l ++ p :: r) := mem_inFlight_cons.mpr (Or.inl hp)
  have haw := (h.awaiting _).mpr hmem
  simp only [Shared.settle, Shared.mapOracle]
  have hfl := mem_inFlight_done (q := .settled b ok) h.nodup hp rfl
  have hnext := Oracle.markApplied_nextTs sh.oracle.toOracle b.version
  refine ⟨⟨?_, ?_, h.indexed.mapBase (Nat.le_of_eq hnext.symm), ?_, ?_, ?_, ?_, ?_, ?_, ?_, ?_, ?_, ?_⟩,
    Oracle.le_markApplied _, fun _ _ => rfl⟩
  · exact (Oracle.markApplied_ok h.ok _).1
  · exact Oracle.markApplied_tight h.ok.le h.tight haw
  · exact Nat.le_trans h.start (Oracle.le_markApplied _)
  · intro v
    rw [hfl, Oracle.markApplied_eq h.tight haw, ← h.awaiting]
    simp [Oracle.advanceApplied, and_comm]
  · intro v hv
    rw [hnext]
    exact h.le v ((hfl v).mp hv).2
  · refine h.nodup.sublist ?_
    have hnone : (Proc.settled b ok).version = none := rfl
    simp only [inFlight, List.filterMap_append, List.filterMap_cons, hp, hnone]
    exact List.Sublist.append_left (List.sublist_cons_self _ _) _
  · rw [hnext]
    exact h.known
  · intro x hx
    cases mem_middle.mp hx with
    | inl heq =>
      subst heq
      exact List.mem_append_right _ (List.mem_singleton.mpr rfl)
    | inr hx =>
      exact (h.progress x (mem_middle.mpr (Or.inr hx))).mono (fun _ _ => rfl) fun e he =>
        List.mem_append_left _ he
  · intro e he
    rw [hnext]
    cases List.mem_append.mp he with
    | inl he =>
      obtain ⟨h1, h2, h3, h4⟩ := h.settled e he
      exact ⟨h1, h2, fun hm => h3 ((hfl _).mp hm).2, h4⟩
    | inr he =>
      rw [List.mem_singleton.mp he]
      refine ⟨?_, h.le _ hmem, fun hm => ((hfl _).mp hm).1 rfl, hheld⟩
      exact Nat.lt_of_le_of_lt h.start (h.tight.below _ haw)
  · intro v h1 h2
    rw [hnext] at h2
    rw [hfl]
    by_cases hv : v = b.version
    · exact Or.inr ⟨(b, ok), List.mem_append_right _ (List.mem_singleton.mpr rfl), hv.symm⟩
    · cases h.all v h1 h2 with
      | inl hm => exact Or.inl ⟨hv, hm⟩
      | inr he =>
        obtain ⟨e, he, hev⟩ := he
        exact Or.inr ⟨e, List.mem_append_left _ he, hev⟩
  · simp only [List.map_append, List.map_cons, List.map_nil]
    refine List.Nodup.append h.once (List.nodup_singleton _) ?_
    intro v hv hv'
    obtain ⟨e, he, rfl⟩ := List.mem_map.mp hv
    exact (h.settled e he).2.2.1 (List.mem_singleton.mp hv' ▸ hmem)
  · intro c hc
    obtain ⟨e, he, hec⟩ := h.acked c hc
    exact ⟨e, List.mem_append_left _ he, hec⟩

end Inv

theorem step_advance {a : Action} (h : Inv n sh (l ++ p :: r))
    (hs : p.step xxhash sh a = some (sh', q)) : Advance n sh sh' (l ++ q :: r) := by
  have hp := h.progress p (mem_middle.mpr (Or.inl rfl))
  cases Proc.moves_of_step hs with
  | start readOnly => exact h.calm (Calm.newReadTs h.ok h.tight) rfl trivial
  | get key now t => exact h.stay rfl trivial
  | write key entry t => exact h.stay rfl trivial
  | finish t => exact h.calm (Calm.done h.ok h.tight _) rfl trivial
  | conflict t => exact h.stay rfl trivial
  | grant t commitTs o hcheck =>
    obtain ⟨rfl, ho, hx, _⟩ := TxnOracle.checkAndCommitInternal_some h.indexed hcheck
    exact h.take rfl rfl rfl ho hx rfl rfl id
  | reserve t commitTs =>
    have hmem : commitTs ∈ inFlight (l ++ .checked t commitTs :: r) :=
      mem_inFlight_cons.mpr (Or.inl rfl)
    exact h.calm (Calm.reserveVersion h.ok h.tight ((h.awaiting _).mpr hmem) (h.le _ hmem)) rfl hp
  | submit t commitTs entries hperm =>
    refine h.stay rfl ⟨hp, fun x hx => ?_⟩
    obtain ⟨w, _, rfl⟩ := List.mem_map.mp (hperm.mem_iff.mp hx)
    rfl
  | refuse t commitTs => exact h.settle rfl hp
  | request req => exact h.stay rfl trivial
  | refusePlain req => exact h.stay rfl trivial
  | assign req => exact h.take rfl rfl rfl rfl (h.indexed.mapBase (Nat.le_succ _)) rfl rfl id
  | appendPlain now ok version req writes =>
    refine h.stay rfl ⟨?_, ?_⟩
    · have hnil : held sh.log version = [] := hp
      rw [hnil, List.nil_append]
    · intro x hx
      obtain ⟨w, _, rfl⟩ := List.mem_map.mp hx
      rfl
  | failPlain now ok version req => exact h.settle rfl hp
  | append now ok t commitTs entries =>
    refine h.stay rfl ⟨?_, hp.2⟩
    rw [hp.1, List.nil_append]
  | fail now ok t commitTs entries => exact h.settle rfl hp.1
  | insert b x todo => exact h.insert
  | mark b =>
    refine h.settle rfl ?_
    have := hp.1
    rwa [List.append_nil] at this
  | replyPlain synced version entries ok =>
    refine h.keep rfl rfl (fun c hc => ?_) (Calm.refl h.ok h.tight) h.indexed rfl trivial
    cases ok with
    | false => exact Or.inl hc
    | true =>
      cases synced with
      | false => exact Or.inl hc
      | true =>
        cases List.mem_cons.mp hc with
        | inl heq => exact Or.inr ⟨entries, none, by rw [heq]⟩
        | inr hc => exact Or.inl hc
  | reply synced version t entries =>
    refine h.keep rfl rfl (fun c hc => ?_) (Calm.done h.ok h.tight _)
      (h.indexed.mapBase (Nat.le_refl _)) rfl trivial
    cases List.mem_cons.mp hc with
    | inl heq => exact Or.inr ⟨entries, some t, by rw [heq]⟩
    | inr hc => exact Or.inl hc
  | abort synced version t entries =>
    obtain ⟨ho, hx, _⟩ := TxnOracle.abortCommit_spec h.indexed version
    have hnot : version ∉ sh.oracle.awaiting := fun hm =>
      (h.settled _ hp).2.2.1 ((h.awaiting _).mp hm)
    refine h.keep rfl rfl (fun c hc => Or.inl hc) ?_ hx rfl trivial
    rw [ho]
    exact Calm.forget h.ok h.tight hnot
  | done t => exact h.calm (Calm.done h.ok h.tight _) rfl trivial
  | doneRead => exact h.calm (Calm.advanceApplied h.ok h.tight) rfl hp

theorem init_inv (hn : 0 < n) {base : List Entry} (hb : ∀ x ∈ base, x.version ≤ n) (count : Nat) :
    Inv n (init n base count).shared (init n base count).procs := by
  have hfl : inFlight (List.replicate count .idle) = [] := by
    rw [inFlight, List.filterMap_eq_nil_iff]
    intro p hp
    rw [List.eq_of_mem_replicate hp]
    rfl
  refine ⟨⟨hn, Nat.le_refl _, ?_⟩, ⟨?_, Or.inl rfl⟩, ⟨⟨?_, ?_⟩, ?_, ?_⟩, Nat.le_refl _, ?_, ?_, ?_, hb,
    ?_, ?_, ?_, List.nodup_nil, ?_⟩
  · exact ⟨fun _ hts => absurd hts List.not_mem_nil, fun hne => absurd rfl hne,
      fun _ hts => absurd hts List.not_mem_nil⟩
  · exact fun _ hv => absurd hv List.not_mem_nil
  · intro fp c
    simp [init]
  · exact fun fp => List.nodup_nil
  · exact List.Pairwise.nil
  · exact fun _ ht => absurd ht List.not_mem_nil
  · intro v
    simp only [init, hfl]
  · intro v hv
    simp only [init, hfl] at hv
    cases hv
  · simp only [init, hfl]
    exact List.nodup_nil
  · intro p hp
    rw [List.eq_of_mem_replicate hp]
    trivial
  · exact fun _ he => absurd he List.not_mem_nil
  · exact fun v h1 h2 => absurd h2 (Nat.not_le.mpr h1)
  · exact fun _ hc => absurd hc List.not_mem_nil

theorem run_advance {as : List (Nat × Action)} : ∀ {s s' : System}, Inv n s.shared s.procs →
    run (step xxhash) s as = some s' → Advance n s.shared s'.shared s'.procs := by
  induction as with
  | nil =>
    intro s s' h hr
    cases hr
    exact ⟨h, Nat.le_refl _, fun _ _ => rfl⟩
  | cons a as ih =>
    intro s s' h hr
    obtain ⟨m, hm, hr⟩ := run_cons hr
    obtain ⟨l, p, r, q, hprocs, hq, hprocs'⟩ := step_split hm
    rw [hprocs] at h
    have h1 := step_advance h hq
    rw [← hprocs'] at h1
    have h2 := ih h1.inv hr
    refine ⟨h2.inv, Nat.le_trans h1.applied h2.applied, fun ts hts => ?_⟩
    rw [h2.stable ts (Nat.le_trans hts h1.applied), h1.stable ts hts]

theorem reachable_inv {s : System} {base : List Entry} {count : Nat} {as : List (Nat × Action)}
    (hn : 0 < n) (hb : ∀ x ∈ base, x.version ≤ n)
    (hr : run (step xxhash) (init n base count) as = some s) : Inv n s.shared s.procs :=
  (run_advance (init_inv hn hb count) hr).inv

/-! ## What a transaction that begins will see -/

theorem entryAt_seen (log : List Entry) (key : Bytes) (ts : Nat) :
    entryAt (seen log ts) key ts = entryAt log key ts := by
  refine newest_filter log fun x hx => ?_
  exact (Entry.hits_iff.mp hx).2

theorem entryAt_of_mem {log : List Entry} {x : Entry} {ts : Nat} (hx : x ∈ log)
    (hle : x.version ≤ ts) : ∃ y, entryAt log x.key ts = some y ∧ x.version ≤ y.version := by
  have hhit : x.hits x.key (fun v => decide (v ≤ ts)) = true := by simp [hle]
  obtain ⟨y, hy⟩ := newest_isSome Entry.version hx hhit
  exact ⟨y, hy, (newest_spec hy).max x hx hhit⟩

def Proc.batch : Proc → Option Batch
  | .submitted t commitTs entries => some ⟨commitTs, some t, entries⟩
  | .inserting b _ => some b
  | .settled b _ => some b
  | _ => none

def Issued (s : System) (b : Batch) : Prop :=
  (∃ ok, (b, ok) ∈ s.shared.batches) ∨ ∃ p ∈ s.procs, p.batch = some b

theorem all_or_nothing {s : System} (h : Inv n s.shared s.procs) {b : Batch} (hb : Issued s b)
    {ts : Nat} (hts : ts ≤ s.shared.oracle.appliedTs) :
    held (seen s.shared.log ts) b.version = b.entries ∨
      held (seen s.shared.log ts) b.version = [] := by
  rw [held_seen]
  split
  · rename_i hle
    have settled : ∀ ok, (b, ok) ∈ s.shared.batches →
        held s.shared.log b.version = b.entries ∨ held s.shared.log b.version = [] := by
      intro ok hmem
      have hheld := (h.settled _ hmem).2.2.2
      cases ok with
      | true => exact Or.inl hheld
      | false => exact Or.inr hheld
    -- a version at or below `appliedTs` is no longer in flight
    have flying : ∀ p ∈ s.procs, p.version ≠ some b.version := by
      intro p hp hv
      have hmem : b.version ∈ inFlight s.procs := List.mem_filterMap.mpr ⟨p, hp, hv⟩
      have := h.tight.below _ ((h.awaiting _).mpr hmem)
      omega
    rcases hb with ⟨ok, hmem⟩ | ⟨p, hp, hpb⟩
    · exact settled ok hmem
    · cases p with
      | settled b' ok =>
        cases hpb
        exact settled ok (h.progress _ hp)
      | submitted t commitTs entries =>
        cases hpb
        exact absurd rfl (flying _ hp)
      | inserting b' todo =>
        cases hpb
        exact absurd rfl (flying _ hp)
      | _ => cases hpb
  · exact Or.inr rfl

/-- Versions up to `ts` are settled, and what is inserted up to it stays as it is. -/
theorem settled_below {s s' : System} {base : List Entry} {count ts : Nat} {as bs : List (Nat × Action)}
    (hn : 0 < n) (hb : ∀ x ∈ base, x.version ≤ n) (hr : run (step xxhash) (init n base count) as = some s)
    (hts : s.shared.oracle.toOracle.newReadTs.1 = ts) (hr' : run (step xxhash) s bs = some s') :
    (∀ v, n < v → v ≤ ts → v ∉ inFlight s.procs ∧ ∃ e ∈ s.shared.batches, e.1.version = v ∧
      held s.shared.log v = if e.2 then e.1.entries else []) ∧
    seen s'.shared.log ts = seen s.shared.log ts ∧
    ∀ b, Issued s' b → held (seen s.shared.log ts) b.version = b.entries ∨
      held (seen s.shared.log ts) b.version = [] := by
  have h := reachable_inv hn hb hr
  have hadv := run_advance h hr'
  have happ : ts = s.shared.oracle.appliedTs := hts.symm.trans (Oracle.newReadTs_fst h.ok)
  have hseen := hadv.stable ts (Nat.le_of_eq happ)
  refine ⟨fun v h1 h2 => ?_, hseen, fun b hb => hseen ▸ all_or_nothing hadv.inv hb (happ ▸ hadv.applied)⟩
  have hnot : v ∉ inFlight s.procs := fun hm => by
    have := h.tight.below _ ((h.awaiting _).mpr hm)
    omega
  refine ⟨hnot, ?_⟩
  cases h.all v h1 (Nat.le_trans h2 (happ ▸ h.ok.le)) with
  | inl hm => exact absurd hm hnot
  | inr he =>
    obtain ⟨e, he, rfl⟩ := he
    exact ⟨e, he, rfl, (h.settled e he).2.2.2⟩

/-- The writer's steps for a request of goroutine `i` with `count` entries, up to `MarkApplied`. -/
def writes (i : Nat) (r : Request) (count : Nat) : List (Nat × Action) :=
  [(i, .request r), (i, .assign), (i, .append 0 true)] ++ List.replicate count (i, .insert) ++
    [(i, .mark)]

theorem acked_le_readTs_iff {s : System} {base : List Entry} {count c : Nat} {as : List (Nat × Action)} (hn : 0 < n)
    (hb : ∀ x ∈ base, x.version ≤ n) (hr : run (step xxhash) (init n base count) as = some s)
    (hc : c ∈ s.shared.acked) :
    c ≤ s.shared.oracle.toOracle.newReadTs.1 ↔ ∀ v ∈ inFlight s.procs, c < v := by
  have h := reachable_inv hn hb hr
  rw [Oracle.newReadTs_fst h.ok]
  refine ⟨fun hle v hv => Nat.lt_of_le_of_lt hle (h.tight.below _ ((h.awaiting _).mpr hv)), fun hall => ?_⟩
  -- otherwise the version after `appliedTs` is in flight, and it is not above `c`
  obtain ⟨e, he, hec, _⟩ := h.acked c hc
  have hce := (h.settled e he).2.1
  by_contra hlt
  cases h.tight.reach with
  | inl heq => omega
  | inr hm =>
    have := hall _ ((h.awaiting _).mp hm)
    omega

end Txn
end AkwaDB
