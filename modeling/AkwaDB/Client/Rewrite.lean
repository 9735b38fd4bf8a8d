import AkwaDB.Client.Writers

/-!
# AkwaDB.Client.Rewrite

Rewrites of the value log collector among the writes of clients.

`gcRewrite` reads the key, and the read follows pointers, so what it compares with the position it
expects is the user's value. It rewrites when that value is itself a string of bytes like an encoded
pointer, and then puts the old value of the segment over it.

- `rewrites_unnoticed`: while every rewrite that goes through is below the entry it finds, or is a copy
  of it with no older write of the key under way, every key reads as the newest write of a client.
-/

namespace AkwaDB
namespace Client

open Txn (TxEntry stamp)
open Vlog (ValueLog Segment opPut)
open Wal (ValuePointer encodeValuePointer)

/-! ## The log without rewrites -/

def clientLog (base : List Entry) (done : List Done) : List Entry :=
  base ++ (done.filter fun d => !d.req.isRewrite).flatMap Done.entries

theorem clientLog_snoc (base : List Entry) (done : List Done) (d : Done) :
    clientLog base (done ++ [d]) =
      clientLog base done ++ if d.req.isRewrite then [] else d.entries := by
  unfold clientLog
  rw [List.filter_append, List.flatMap_append, List.append_assoc]
  cases h : d.req.isRewrite <;> simp [h]

def content (x : Entry) : Bytes × Int × Bool := (x.value, x.expiresAt, x.deleted)

theorem answer_congr {x y : Entry} (h : content x = content y) (now : Int) : x.answer now = y.answer now := by
  obtain ⟨hv, he, hd⟩ : x.value = y.value ∧ x.expiresAt = y.expiresAt ∧ x.deleted = y.deleted := by
    simpa [content] using h
  simp [Entry.answer, Entry.dead, Entry.expired, hv, he, hd]

/-- No client's write of the key has a version at or below `version` and is still to be processed. -/
def NoOlderWrite (ps : List (Nat × Req)) (key : Bytes) (version : Nat) : Prop :=
  ∀ q ∈ ps, q.2.isRewrite = false → key ∈ q.2.keys → version < q.1

instance (ps : List (Nat × Req)) (key : Bytes) (version : Nat) : Decidable (NoOlderWrite ps key version) :=
  inferInstanceAs (Decidable (∀ q ∈ ps, q.2.isRewrite = false → key ∈ q.2.keys → version < q.1))

/-- A rewrite that finds its pointer is below the entry, or a copy of it in its turn. -/
def GcEntry.Harmless (r : GcEntry) (version : Nat) (sh : Shared) (ps : List (Nat × Req)) : Prop :=
  ∀ cur ∈ find sh.layers r.key fun _ => true, r.current (cur.answer sh.now) = true →
    version < cur.version ∨
      cur.value = r.val ∧ cur.expiresAt = r.expiresAt ∧ NoOlderWrite ps r.key version

instance (r : GcEntry) (version : Nat) (sh : Shared) (ps : List (Nat × Req)) :
    Decidable (r.Harmless version sh ps) :=
  inferInstanceAs (Decidable (∀ cur ∈ find sh.layers r.key fun _ => true, _ → _))

def Writer.rewrite : Writer → Act → Option (Nat × GcEntry)
  | .pending version (.gcRewrite r), .process => some (version, r)
  | _, _ => none

/-- The steps taken: rotations leave the layers in order, and rewrites are harmless. -/
def Harmless (s : Writers) (a : Nat × Act) : Prop :=
  (a.2.isRotate = true → ∀ x ∈ s.shared.mem, RotatesApart x.key s.shared (underway s.procs)) ∧
    ∀ w ∈ s.procs[a.1]?, ∀ q ∈ w.rewrite a.2, q.2.Harmless q.1 s.shared (underway s.procs)

instance (s : Writers) (a : Nat × Act) : Decidable (Harmless s a) :=
  inferInstanceAs (Decidable ((a.2.isRotate = true → ∀ x ∈ s.shared.mem, _) ∧
    ∀ w ∈ s.procs[a.1]?, ∀ q ∈ w.rewrite a.2, _))

/-- The key reads as the clients wrote it: from the same entry, or from a copy. -/
def Mirrors (client log : List Entry) (ps : List (Nat × Req)) (key : Bytes) : Prop :=
  newestOf log key (fun _ => true) = newestOf client key (fun _ => true) ∨
    ∃ g c, newestOf log key (fun _ => true) = some g ∧ newestOf client key (fun _ => true) = some c ∧
      c.version ≤ g.version ∧ content g = content c ∧ NoOlderWrite ps key g.version

section
variable {client log : List Entry} {ps ps' : List (Nat × Req)} {key : Bytes} {version : Nat}

theorem Mirrors.answer (h : Mirrors client log ps key) (now : Int) :
    (newestOf log key fun _ => true).bind (Entry.answer now) =
      (newestOf client key fun _ => true).bind (Entry.answer now) := by
  rcases h with heq | ⟨g, c, hg, hc, _, hcont, _⟩
  · rw [heq]
  · rw [hg, hc]
    exact answer_congr hcont now

theorem Mirrors.imp (h : Mirrors client log ps key)
    (hold : ∀ g ∈ log, NoOlderWrite ps key g.version → NoOlderWrite ps' key g.version) :
    Mirrors client log ps' key := by
  refine h.imp_right ?_
  rintro ⟨g, c, hg, hc, hle, hcont, hno⟩
  exact ⟨g, c, hg, hc, hle, hcont, hold g (mem_newestOf hg).1 hno⟩

theorem Mirrors.write {es : List Entry} (h : Mirrors client log ps key) (hver : ∀ x ∈ es, x.version = version)
    (hnew : ∀ v, NoOlderWrite ps key v → (∃ x ∈ es, x.key = key) → v < version) :
    Mirrors (client ++ es) (log ++ es) ps key := by
  rw [Mirrors, newestOf_append, newestOf_append]
  cases hes : newestOf es key fun _ => true with
  | none =>
    rw [newerOf_none, newerOf_none]
    exact h
  | some y =>
    rcases h with heq | ⟨g, c, hg, hc, hle, _, hno⟩
    · exact Or.inl (by rw [heq])
    · -- the copy is older than every write of a client that is still to come
      obtain ⟨hy, hkey, _⟩ := mem_newestOf hes
      have hlt := hnew _ hno ⟨y, hy, hkey⟩
      rw [← hver y hy] at hlt
      rw [hg, hc]
      exact Or.inl ((if_pos hlt).trans (if_pos (Nat.lt_of_le_of_lt hle hlt)).symm)

theorem Mirrors.rewrite {g : Entry} (h : Mirrors client log ps key)
    (hg : g.key = key → ∃ cur, newestOf log key (fun _ => true) = some cur ∧
      (g.version < cur.version ∨ content g = content cur ∧ NoOlderWrite ps key g.version)) :
    Mirrors client (log ++ [g]) ps key := by
  by_cases hkey : g.key = key
  · obtain ⟨cur, hcur, hok⟩ := hg hkey
    have hfind : newestOf [g] key (fun _ => true) = some g := by
      simp [newestOf, newest, newer, Entry.hits, hkey]
    rw [Mirrors, newestOf_append, hfind, hcur, newerOf]
    rw [Mirrors, hcur] at h
    by_cases hlt : cur.version < g.version
    · obtain ⟨hcont, hno⟩ := hok.resolve_left (by omega)
      rw [if_pos hlt]
      rcases h with heq | ⟨g', c, hg', hc, hle, hcont', _⟩
      · exact Or.inr ⟨g, cur, rfl, heq.symm, Nat.le_of_lt hlt, hcont, hno⟩
      · cases hg'
        exact Or.inr ⟨g, c, rfl, hc, by omega, hcont.trans hcont', hno⟩
    · rw [if_neg hlt]
      exact h
  · have hfind : newestOf [g] key (fun _ => true) = none := by
      simp [newestOf, newest, newer, Entry.hits, hkey]
    rwa [Mirrors, newestOf_append, hfind, newerOf_none]

end

theorem Req.of_isRewrite {req : Req} (h : req.isRewrite = true) : ∃ g, req = .gcRewrite g := by
  cases req with
  | gcRewrite g => exact ⟨g, rfl⟩
  | _ => cases h

section
variable {xxhash : Bytes → UInt64} {n : Nat} {base : List Entry} {sh sh' : Shared} {a : Act}
  {ps ps' : List (Nat × Req)} {l r : List Writer} {w w' : Writer} {key : Bytes} {version : Nat} {req : Req}

theorem NoOlderWrite.mono (h : NoOlderWrite ps key version) (hsub : ∀ q ∈ ps', q ∈ ps) :
    NoOlderWrite ps' key version := fun q hq => h q (hsub q hq)

section
variable (h : Mirrors (clientLog base sh.done) sh.log ps key)
include h

theorem mirrors_assign (hn : Numbered n base sh ps) (hps : ps'.Perm ((sh.nextTs + 1, req) :: ps))
    (lock : Option Nat) :
    Mirrors (clientLog base (sh.assign lock).done) (sh.assign lock).log ps' key := by
  refine Mirrors.imp h fun g hg hno q hq hrw hkey => ?_
  rcases List.mem_cons.mp (hps.mem_iff.mp hq) with rfl | hq
  · exact Nat.lt_succ_of_le (hn.log_le g hg)
  · exact hno q hq hrw hkey

theorem mirrors_client {writes : List (Bytes × TxEntry)} (hps : ps.Perm ((version, req) :: ps'))
    (hreq : req.isRewrite = false) (hkeys : ∀ w ∈ writes, w.1 ∈ req.keys) (lock : Option Nat)
    (res : Res) :
    Mirrors (clientLog base (sh.finish lock version req res writes).done)
      (sh.finish lock version req res writes).log ps' key := by
  rw [Shared.log_finish, Shared.finish, clientLog_snoc, if_neg (by simp [Shared.record, hreq])]
  have hw : Mirrors (clientLog base sh.done ++ stamp version writes) (sh.log ++ stamp version writes) ps key := by
    refine @Mirrors.write _ _ _ _ version _ h (fun x hx => ?_) fun v hno hex => ?_
    · obtain ⟨w, _, rfl⟩ := List.mem_map.mp hx
      rfl
    · obtain ⟨x, hx, rfl⟩ := hex
      obtain ⟨w, hw, rfl⟩ := List.mem_map.mp hx
      exact hno _ (hps.mem_iff.mpr List.mem_cons_self) hreq (hkeys w hw)
  exact hw.imp fun g _ hno => hno.mono fun q hq => hps.mem_iff.mpr (List.mem_cons_of_mem _ hq)

theorem mirrors_rewrite {writes : List (Bytes × TxEntry)} {g : GcEntry}
    (hps : ps.Perm ((version, .gcRewrite g) :: ps')) (hal : ∀ key, Aligned key sh ps)
    (lock : Option Nat) (res : Res)
    (hwrites : writes = [] ∨ g.Harmless version sh ps ∧ g.current (get sh.layers sh.now g.key) = true ∧
      writes = [(g.key, ⟨g.val, g.expiresAt, false⟩)]) :
    Mirrors (clientLog base (sh.finish lock version (.gcRewrite g) res writes).done)
      (sh.finish lock version (.gcRewrite g) res writes).log ps' key := by
  rw [Shared.log_finish, Shared.finish, clientLog_snoc, if_pos (by rfl), List.append_nil]
  have hw : Mirrors (clientLog base sh.done) (sh.log ++ stamp version writes) ps key := by
    rcases hwrites with rfl | ⟨hok, hcur, rfl⟩
    · rw [stamp, List.map_nil, List.append_nil]
      exact h
    · refine Mirrors.rewrite h fun hkey => ?_
      obtain rfl : g.key = key := hkey
      rw [get] at hcur
      cases hfind : find sh.layers g.key fun _ => true with
      | none => simp [hfind, GcEntry.current] at hcur
      | some cur =>
        rw [hfind, Option.bind_some] at hcur
        refine ⟨cur, ((hal g.key).find_eq _).symm.trans hfind, ?_⟩
        refine (hok cur hfind hcur).imp_right ?_
        rintro ⟨hval, hexp, hno⟩
        refine ⟨?_, hno⟩
        -- the entry was read, so it is no tombstone
        have hdel : cur.deleted = false := by
          cases hd : cur.deleted with
          | false => rfl
          | true => simp [Entry.answer, Entry.dead, hd, GcEntry.current] at hcur
        simp [content, hval, hexp, hdel]
  exact hw.imp fun x _ hno => hno.mono fun q hq => hps.mem_iff.mpr (List.mem_cons_of_mem _ hq)

end

theorem mirrors_step (h : Mirrors (clientLog base sh.done) sh.log (underway (l ++ w :: r)) key)
    (hn : Numbered n base sh (underway (l ++ w :: r))) (hal : ∀ key, Aligned key sh (underway (l ++ w :: r)))
    (hok : ∀ q ∈ w.rewrite a, q.2.Harmless q.1 sh (underway (l ++ w :: r)))
    (hm : w.Moves xxhash sh a sh' w') :
    Mirrors (clientLog base sh'.done) sh'.log (underway (l ++ w' :: r)) key := by
  cases hm with
  | assign req hfree => exact mirrors_assign h hn (underway_done _ req) _
  | process version req =>
    cases hreq : req.isRewrite with
    | false =>
      exact mirrors_client h (underway_done version req) hreq (req.process_spec version sh.now sh.layers).2 _ _
    | true =>
      obtain ⟨g, rfl⟩ := Req.of_isRewrite hreq
      refine mirrors_rewrite h (underway_done version _) hal _ _ ?_
      rw [Req.process]
      split
      · rename_i hcur
        exact Or.inr ⟨hok (version, g) rfl, hcur, rfl⟩
      · exact Or.inl rfl
  | fail version req =>
    cases hreq : req.isRewrite with
    | false => exact mirrors_client h (underway_done version req) hreq (by simp) _ _
    | true =>
      obtain ⟨g, rfl⟩ := Req.of_isRewrite hreq
      exact mirrors_rewrite h (underway_done version _) hal _ _ (Or.inl rfl)
  | rotate w =>
    rw [Shared.log_rotate]
    exact h
  | tick seconds w => exact h

structure Relocated (n : Nat) (base : List Entry) (s : Writers) : Prop where
  numbered : Numbered n base s.shared (underway s.procs)
  aligned : ∀ key, Aligned key s.shared (underway s.procs)
  mirrors : ∀ key, Mirrors (clientLog base s.shared.done) s.shared.log (underway s.procs) key

theorem relocated_step {s s' : Writers} {a : Nat × Act} (h : Relocated n base s) (hok : Harmless s a)
    (hs : Pool.step (Writer.step xxhash) s a = some s') : Relocated n base s' := by
  obtain ⟨l, w, r, w', hw, hl, hstep, hl'⟩ := Pool.step_split hs
  obtain ⟨hrot, hrew⟩ := hok
  have hrew := hrew w hw
  obtain ⟨hn, hal, hmir⟩ := h
  rw [hl] at hn hal hmir hrew hrot
  have hm := Writer.moves_of_step hstep
  refine ⟨?_, fun key => ?_, fun key => ?_⟩ <;> rw [hl']
  · exact numbered_step hn hm
  · exact aligned_step (hal key) hn hm fun ha => rotatesApart_of_mem (hrot ha) key
  · exact mirrors_step (hmir key) hn hal hrew hm

/-- **The collector changes no read.** -/
theorem rewrites_unnoticed {layers : List (List Entry)} (hbase : Stored n layers) (now : Int) (count : Nat)
    {as : List (Nat × Act)} {s : Writers}
    (hg : Guarded (Pool.step (Writer.step xxhash)) Harmless (Writers.init n now layers count) as)
    (hr : run (Pool.step (Writer.step xxhash)) (Writers.init n now layers count) as = some s) (key : Bytes) :
    get s.shared.layers s.shared.now key =
      (newestOf (clientLog layers.reverse.flatten s.shared.done) key fun _ => true).bind
        (Entry.answer s.shared.now) := by
  have hinv : Relocated n layers.reverse.flatten s := by
    refine run_invariant relocated_step ?_ hg hr
    have hstart := numbered_start hbase now
    refine ⟨?_, fun key => ?_, fun key => Or.inl ?_⟩
    · rw [Writers.init, underway_init]
      exact hstart
    · rw [Writers.init, underway_init]
      exact aligned_start hbase now key
    · rw [Writers.init, hstart.log]
      rfl
  rw [(hinv.aligned key).get_eq]
  exact (hinv.mirrors key).answer s.shared.now

end

/-! ## A value that looks like a pointer -/

def oneSegment : ValueLog := ⟨fun f => if f = 1 then some Segment.plain else none, 1, 2 ^ 27⟩

def firstPointer : ValuePointer := ⟨1, 26, 3⟩

def rewriteFirst : GcEntry := ⟨[107], [1, 2, 3], 0, firstPointer⟩

def firstValue : List (List Entry) := [[⟨[107], [1, 2, 3], false, 0, 1⟩]]

/-- A client writes the bytes of the pointer, above a rewrite that waits. -/
def imitationAbove : List (Nat × Act) :=
  [(0, .assign (.gcRewrite rewriteFirst)), (1, .assign (.put [107] (encodeValuePointer firstPointer) 0)),
   (1, .process), (0, .process), (0, .rotate)]

theorem rewrites_unnoticed_above : ∃ s,
    run (Pool.step (Writer.step fun _ => 0)) (Writers.init 1 0 firstValue 2) imitationAbove = some s ∧
      s.shared.log.length = 3 ∧
      get s.shared.layers s.shared.now [107] =
        (newestOf (clientLog firstValue.reverse.flatten s.shared.done) [107] fun _ => true).bind
          (Entry.answer s.shared.now) := by
  obtain ⟨s, hs⟩ : ∃ s,
      run (Pool.step (Writer.step fun _ => 0)) (Writers.init 1 0 firstValue 2) imitationAbove = some s :=
    ⟨_, rfl⟩
  refine ⟨s, hs, by cases hs; rfl, ?_⟩
  exact rewrites_unnoticed ⟨by decide, List.pairwise_singleton _ _⟩ 0 2 (by decide +kernel) hs [107]

def imitationBelow : List (Nat × Act) :=
  [(1, .assign (.put [107] (encodeValuePointer firstPointer) 0)), (1, .process),
   (0, .assign (.gcRewrite rewriteFirst)), (0, .process)]

/-- The key reads as the value that the client wrote over. -/
theorem rewrite_undoes_write : ∃ s,
    (oneSegment.write Segment.plain ⟨opPut, [107], [1, 2, 3], 0⟩).map Prod.fst = some firstPointer ∧
      run (Pool.step (Writer.step fun _ => 0)) (Writers.init 1 0 firstValue 2) imitationBelow = some s ∧
      (newestOf (clientLog firstValue.reverse.flatten s.shared.done) [107] fun _ => true).bind
        (Entry.answer s.shared.now) = some (encodeValuePointer firstPointer) ∧
      get s.shared.layers s.shared.now [107] = some [1, 2, 3] :=
  ⟨_, rfl, rfl, rfl, rfl⟩

end Client
end AkwaDB
