import AkwaDB.Lib.Reach
import AkwaDB.Manifest.Disk

/-!
# AkwaDB.Manifest.Rewrite

`compactManifest` next to the goroutines that append to the MANIFEST.

The rewriter copies the levels one after the other, takes `manifestMu`, truncates the file and
writes a record for every table it saw. Flushes, compactions and ingests change levels and append
records meanwhile. Writes reach the file in pieces of any size, and the process may die in any
state.

`rewrite_keeps`: outside the window from the truncation to the last byte written, the MANIFEST lists
every live table that was there when the rewrite began or whose record was appended since, provided no
table enters a level between its being copied and the lock. Inside the window it need not, since the file
is rewritten in place (`rewrite_forgets`).
-/

namespace AkwaDB
namespace Rewrite

inductive Phase where
  | idle
  | collecting (next : Nat) (acc : List (Nat × Table))
  | locked (acc : List (Nat × Table))
  | writing

/-- `lock` is what the holder of `manifestMu` has to write, and `adding` the table it is about. The MANIFEST `owes`
the live tables that were there when a rewrite began or whose record has been appended. -/
structure State where
  file : Bytes
  levels : LevelTables
  lock : Option Bytes
  adding : Option Table
  phase : Phase
  used : List Nat
  owes : List Table

inductive Act where
  | begin
  | collect
  | lockRewrite
  | truncate
  | write (n : Nat)
  | unlock
  | change (lvl : Nat) (tables : List Table)
  | append (add : Bool) (lvl : Nat) (t : Table)

def action (add : Bool) : UInt8 := if add then Manifest.actionAdd else Manifest.actionDel

def infoData (x : Nat × Table) : Bytes := (tableRecord Manifest.actionAdd x.1 x.2).data

def rewritten (acc : List (Nat × Table)) : Bytes := Manifest.writer.write 0 (acc.map infoData)

def State.appending (s : State) (add : Bool) (lvl : Nat) (t : Table) : State :=
  { s with
    adding := if add then some t else none
    lock := some (Manifest.frame (tableRecord (action add) lvl t).data) }

/-- The appender lets go of the lock. -/
def State.released (s : State) : State :=
  { s with
    lock := none
    adding := none
    owes := s.owes ++ s.adding.toList.filter fun t => decide (t ∈ allTables s.levels) }

def step (s : State) : Act → Option State
  | .begin =>
    match s.phase with
    | .idle => some { s with phase := .collecting 0 [], owes := allTables s.levels }
    | _ => none
  | .collect =>
    match s.phase with
    | .collecting next acc =>
      if next < maxLevels then
        some { s with phase := .collecting (next + 1) (acc ++ (s.levels next).map fun t => (next, t)) }
      else none
    | _ => none
  | .lockRewrite =>
    match s.phase, s.lock with
    | .collecting next acc, none =>
      if next = maxLevels then some { s with phase := .locked acc, lock := some [] } else none
    | _, _ => none
  | .truncate =>
    match s.phase with
    | .locked acc => some { s with phase := .writing, file := [], lock := some (rewritten acc) }
    | _ => none
  | .write n =>
    match s.lock with
    | some left => some { s with file := s.file ++ left.take n, lock := some (left.drop n) }
    | none => none
  | .unlock =>
    match s.phase, s.lock with
    | .locked _, _ => none
    | .writing, some [] => some { s with lock := none, phase := .idle }
    | _, some [] => some s.released
    | _, _ => none
  | .change lvl tables =>
    -- a level is reassigned under its lock; a table it gains has a number of its own
    if lvl < maxLevels ∧ ∀ t ∈ tables, t ∈ s.levels lvl ∨ t.seq ∉ s.used then
      let levels := setLevel s.levels lvl tables
      some { s with
        levels
        used := s.used ++ tables.map Table.seq
        owes := s.owes.filter fun t => decide (t ∈ allTables levels) }
    else none
  | .append add lvl t =>
    match s.lock with
    | some _ => none
    | none =>
      -- a deletion is logged after the table has left its level
      if t.seq ∈ s.used ∧ (add = false → ∀ u ∈ allTables s.levels, u.seq ≠ t.seq) then
        some (s.appending add lvl t)
      else none

structure Initial (s : State) : Prop where
  phase : s.phase = .idle
  lock : s.lock = none
  clean : Manifest.Clean s.file
  owes : s.owes = allTables s.levels
  listed : ∀ t ∈ allTables s.levels, (Manifest.readManifest s.file).1 t.seq ≠ none
  used : ∀ t ∈ allTables s.levels, t.seq ∈ s.used
  fits : ∀ lvl < maxLevels, ∀ t ∈ s.levels lvl, Fits lvl t

def Lists (s : State) (ls : Manifest.Levels) : Prop := ∀ t ∈ s.owes, ls t.seq ≠ none

/-- After a crash the MANIFEST lists every table that it owes. -/
def Keeps (s : State) : Prop := Lists s (Manifest.readManifest s.file).1

/-- Records fit the format, a rewrite begins when the MANIFEST lists every live table, and until it has the lock no
table enters a level that it has copied. -/
def StepOk (s : State) : Act → Prop
  | .begin => ∀ t ∈ allTables s.levels, (Manifest.readManifest s.file).1 t.seq ≠ none
  | .change lvl tables => (∀ t ∈ tables, Fits lvl t) ∧
      ∀ next acc, s.phase = .collecting next acc → lvl < next → ∀ t ∈ tables, t ∈ s.levels lvl
  | .append _ lvl t => Fits lvl t
  | _ => True

/-- The file has been truncated and not all records are back. -/
def InWindow (s : State) : Prop := s.phase = .writing ∧ s.lock ≠ some []

structure Appending (s : State) (base : Bytes) (add : Bool) (lvl : Nat) (u : Table) (m : Nat) :
    Prop where
  clean : Manifest.Clean base
  fits : Fits lvl u
  known : u.seq ∈ s.used
  retired : add = false → ∀ v ∈ allTables s.levels, v.seq ≠ u.seq
  adding : s.adding = if add then some u else none
  file : s.file = base ++ (Manifest.frame (tableRecord (action add) lvl u).data).take m
  left : s.lock = some ((Manifest.frame (tableRecord (action add) lvl u).data).drop m)

def Appendable (s : State) : Prop :=
  (s.lock = none ∧ Manifest.Clean s.file) ∨ ∃ base add lvl u m, Appending s base add lvl u m

def Resting (s : State) : Prop := Keeps s ∧ Appendable s

def Collected (s : State) (acc : List (Nat × Table)) : Prop :=
  (∀ x ∈ acc, Fits x.1 x.2) ∧ ∀ t ∈ s.owes, ∃ lvl, (lvl, t) ∈ acc

def PhaseOk (s : State) : Phase → Prop
  | .idle => Resting s
  | .collecting next acc =>
    Resting s ∧ next ≤ maxLevels ∧ (∀ x ∈ acc, Fits x.1 x.2) ∧ ∀ lvl < next, ∀ t ∈ s.levels lvl, (lvl, t) ∈ acc
  | .locked acc => Keeps s ∧ s.lock = some [] ∧ Manifest.Clean s.file ∧ Collected s acc
  | .writing =>
    ∃ acc m, Collected s acc ∧ s.file = (rewritten acc).take m ∧
      s.lock = some ((rewritten acc).drop m)

structure Inv (s : State) : Prop where
  used : ∀ t ∈ allTables s.levels, t.seq ∈ s.used
  fits : ∀ lvl < maxLevels, ∀ t ∈ s.levels lvl, Fits lvl t
  live : ∀ t ∈ s.owes, t ∈ allTables s.levels
  phase : PhaseOk s s.phase

variable {s s' : State} {lvl m : Nat} {t u : Table} {add : Bool} {base : Bytes}
  {acc : List (Nat × Table)} {tables : List Table}

theorem Initial.inv (h : Initial s) : Inv s := by
  refine ⟨h.used, h.fits, fun t ht => h.owes ▸ ht, ?_⟩
  rw [h.phase]
  exact ⟨fun t ht => h.listed t (h.owes ▸ ht), Or.inl ⟨h.lock, h.clean⟩⟩

theorem Appendable.of_eq (h : Appendable s) (hfile : s'.file = s.file) (hlock : s'.lock = s.lock)
    (hadding : s'.adding = s.adding) (hused : ∀ n ∈ s.used, n ∈ s'.used)
    (hnew : ∀ v ∈ allTables s'.levels, v ∈ allTables s.levels ∨ v.seq ∉ s.used) :
    Appendable s' := by
  rcases h with ⟨hnone, hclean⟩ | ⟨base, add, lvl, u, m, ha⟩
  · exact Or.inl ⟨hlock.trans hnone, hfile ▸ hclean⟩
  · refine Or.inr ⟨base, add, lvl, u, m, ha.clean, ha.fits, hused _ ha.known, ?_, hadding.trans ha.adding,
      hfile.trans ha.file, hlock.trans ha.left⟩
    intro hadd v hv heq
    rcases hnew v hv with hv | hv
    · exact ha.retired hadd v hv heq
    · exact hv (heq ▸ ha.known)

theorem fits_data (h : Fits lvl t) (a : UInt8) :
    (tableRecord a lvl t).data.length ≤ Manifest.maxDataLen := by
  rw [Manifest.data_length]
  exact h.data

theorem Appending.lists (h : Appending s base add lvl u m)
    (hlive : ∀ t ∈ s.owes, t ∈ allTables s.levels) {ls : Manifest.Levels} (hls : Lists s ls) :
    Lists s (Manifest.applyRecord ls (tableRecord (action add) lvl u).data) := by
  intro t ht
  cases add with
  | true =>
    rw [Manifest.applyRecord_add ls (r := tableRecord (action true) lvl u) rfl h.fits.seq h.fits.level]
    by_cases hs : t.seq = u.seq
    · simp [tableRecord, hs]
    · simpa [tableRecord, hs] using hls t ht
  | false =>
    rw [Manifest.applyRecord_del ls (r := tableRecord (action false) lvl u) rfl h.fits.seq h.fits.level]
    have hs := h.retired rfl t (hlive t ht)
    simpa [tableRecord, hs] using hls t ht

theorem Appending.keeps (h : Appending s base add lvl u m)
    (hlive : ∀ t ∈ s.owes, t ∈ allTables s.levels) (hk : Keeps s) (n : Nat) :
    Lists s (Manifest.readManifest
      (base ++ (Manifest.frame (tableRecord (action add) lvl u).data).take (m + n))).1 := by
  have hd := fits_data h.fits (action add)
  rw [Keeps, h.file, h.clean.torn hd] at hk
  rw [h.clean.torn hd]
  split at hk
  · rwa [if_pos (by omega)]
  · split
    · exact h.lists hlive hk
    · exact hk

theorem foldl_add_lists (hf : ∀ x ∈ acc, Fits x.1 x.2) {n : Nat} :
    ∀ ls : Manifest.Levels, (ls n ≠ none ∨ ∃ x ∈ acc, x.2.seq = n) →
      (acc.map infoData).foldl Manifest.applyRecord ls n ≠ none := by
  induction acc with
  | nil =>
    intro ls h
    rcases h with h | ⟨x, hx, _⟩
    · exact h
    · cases hx
  | cons y acc ih =>
    intro ls h
    have hy := hf y (by simp)
    rw [List.map_cons, List.foldl_cons]
    apply ih (fun x hx => hf x (by simp [hx]))
    rw [infoData, Manifest.applyRecord_add ls (r := tableRecord Manifest.actionAdd y.1 y.2) rfl
      hy.seq hy.level]
    by_cases hn : n = y.2.seq
    · left
      simp [tableRecord, hn]
    · rcases h with h | ⟨x, hx, hxn⟩
      · left
        simpa [tableRecord, hn] using h
      · right
        rcases List.mem_cons.mp hx with rfl | hx
        · exact absurd hxn.symm hn
        · exact ⟨x, hx, hxn⟩

theorem rewritten_clean (hf : ∀ x ∈ acc, Fits x.1 x.2) :
    Manifest.Clean (rewritten acc) ∧
      (Manifest.readManifest (rewritten acc)).1 = Manifest.replay (acc.map infoData) := by
  have hfit : ∀ d ∈ acc.map infoData, d.length ≤ Manifest.maxDataLen := by
    intro d hd
    obtain ⟨x, hx, rfl⟩ := List.mem_map.mp hd
    exact fits_data (hf x hx) _
  exact ⟨⟨_, hfit, rfl⟩, Manifest.readManifest_write hfit⟩

theorem Collected.lists (h : Collected s acc) :
    Lists s (Manifest.readManifest (rewritten acc)).1 := by
  intro t ht
  obtain ⟨lvl, hmem⟩ := h.2 t ht
  rw [(rewritten_clean h.1).2]
  exact foldl_add_lists h.1 _ (Or.inr ⟨_, hmem, rfl⟩)

theorem inv_begin (h : Inv s) (hok : StepOk s .begin) (hs : step s .begin = some s') : Inv s' := by
  unfold step at hs
  dsimp only at hs
  split at hs
  · rename_i hp
    cases hs
    have hrest : Resting s := by
      have := h.phase
      rw [hp] at this
      exact this
    exact ⟨h.used, h.fits, fun t ht => ht,
      ⟨⟨hok, hrest.2.of_eq rfl rfl rfl (fun n hn => hn) fun v hv => Or.inl hv⟩, Nat.zero_le _, by simp, by simp⟩⟩
  · cases hs

theorem inv_collect (h : Inv s) (hs : step s .collect = some s') : Inv s' := by
  unfold step at hs
  dsimp only at hs
  split at hs
  · rename_i next acc hp
    split at hs
    · rename_i hn
      cases hs
      have hph := h.phase
      rw [hp] at hph
      obtain ⟨⟨hk, hlock⟩, _, hfit, hcov⟩ := hph
      refine ⟨h.used, h.fits, h.live,
        ⟨⟨hk, hlock.of_eq rfl rfl rfl (fun n hn => hn) fun v hv => Or.inl hv⟩, hn, ?_, ?_⟩⟩
      · intro x hx
        rcases List.mem_append.mp hx with hx | hx
        · exact hfit x hx
        · obtain ⟨t, ht, rfl⟩ := List.mem_map.mp hx
          exact h.fits next hn t ht
      · intro lvl hlvl t ht
        rcases Nat.lt_or_eq_of_le (Nat.le_of_lt_succ hlvl) with hlt | rfl
        · exact List.mem_append_left _ (hcov lvl hlt t ht)
        · exact List.mem_append_right _ (List.mem_map.mpr ⟨t, ht, rfl⟩)
    · cases hs
  · cases hs

theorem inv_lockRewrite (h : Inv s) (hs : step s .lockRewrite = some s') : Inv s' := by
  unfold step at hs
  dsimp only at hs
  split at hs
  · rename_i next acc hp hl
    split at hs
    · rename_i hn
      cases hs
      have hph := h.phase
      rw [hp] at hph
      obtain ⟨⟨hk, hlock⟩, _, hfit, hcov⟩ := hph
      have hclean : Manifest.Clean s.file := by
        rcases hlock with hlock | ⟨_, _, _, _, _, ha⟩
        · exact hlock.2
        · rw [ha.left] at hl
          cases hl
      refine ⟨h.used, h.fits, h.live, ⟨hk, rfl, hclean, hfit, fun t ht => ?_⟩⟩
      obtain ⟨lvl, hlvl, htl⟩ := mem_allTables.mp (h.live t ht)
      exact ⟨lvl, hcov lvl (hn ▸ hlvl) t htl⟩
    · cases hs
  · cases hs

theorem inv_truncate (h : Inv s) (hs : step s .truncate = some s') : Inv s' := by
  unfold step at hs
  dsimp only at hs
  split at hs
  · rename_i acc hp
    cases hs
    have hph := h.phase
    rw [hp] at hph
    obtain ⟨_, _, _, hcol⟩ := hph
    exact ⟨h.used, h.fits, h.live, ⟨acc, 0, hcol, by simp, by simp⟩⟩
  · cases hs

theorem take_append_take_drop {α : Type} (l : List α) (m n : Nat) :
    l.take m ++ (l.drop m).take n = l.take (m + n) := (List.take_add ..).symm

theorem resting_write {left : Bytes} (n : Nat) (h : Resting s)
    (hlive : ∀ t ∈ s.owes, t ∈ allTables s.levels) (hl : s.lock = some left) :
    Resting { s with file := s.file ++ left.take n, lock := some (left.drop n) } := by
  obtain ⟨hk, hlock⟩ := h
  rcases hlock with ⟨hnone, _⟩ | ⟨base, add, lvl, u, m, ha⟩
  · rw [hnone] at hl
    cases hl
  · rw [ha.left] at hl
    cases hl
    have hfile : s.file ++ ((Manifest.frame (tableRecord (action add) lvl u).data).drop m).take n =
        base ++ (Manifest.frame (tableRecord (action add) lvl u).data).take (m + n) := by
      rw [ha.file, List.append_assoc, take_append_take_drop]
    refine ⟨?_, Or.inr ⟨base, add, lvl, u, m + n, ha.clean, ha.fits, ha.known, ha.retired, ha.adding,
      hfile, by simp [List.drop_drop]⟩⟩
    have := ha.keeps hlive hk n
    rw [← hfile] at this
    exact this

theorem phaseOk_write {left : Bytes} (n : Nat) {p : Phase} (h : PhaseOk s p)
    (hlive : ∀ t ∈ s.owes, t ∈ allTables s.levels) (hl : s.lock = some left) :
    PhaseOk { s with file := s.file ++ left.take n, lock := some (left.drop n) } p := by
  cases p with
  | idle => exact resting_write n h hlive hl
  | collecting next acc => exact ⟨resting_write n h.1 hlive hl, h.2⟩
  | locked acc =>
    obtain ⟨hk, hlk, hclean, hcol⟩ := h
    rw [hlk] at hl
    cases hl
    simp only [List.take_nil, List.append_nil, List.drop_nil]
    exact ⟨hk, rfl, hclean, hcol⟩
  | writing =>
    obtain ⟨acc, m, hcol, hfile, hlk⟩ := h
    rw [hlk] at hl
    cases hl
    refine ⟨acc, m + n, hcol, ?_, by simp [List.drop_drop]⟩
    rw [hfile, take_append_take_drop]

theorem inv_write {n : Nat} (h : Inv s) (hs : step s (.write n) = some s') : Inv s' := by
  unfold step at hs
  dsimp only at hs
  split at hs
  · rename_i left hl
    cases hs
    exact ⟨h.used, h.fits, h.live, phaseOk_write n h.phase h.live hl⟩
  · cases hs

theorem Appending.done (h : Appending s base add lvl u m) (hl : s.lock = some []) :
    Manifest.Clean s.file ∧ (add = true → (Manifest.readManifest s.file).1 u.seq ≠ none) := by
  have hdrop := h.left
  rw [hl] at hdrop
  have hm := List.drop_eq_nil_iff.mp (Option.some.inj hdrop).symm
  have hfile := h.file
  rw [List.take_of_length_le hm] at hfile
  obtain ⟨hclean, hread⟩ := h.clean.append (fits_data h.fits (action add))
  rw [hfile]
  refine ⟨hclean, ?_⟩
  rintro rfl
  rw [hread, Manifest.applyRecord_add _ (r := tableRecord (action true) lvl u) rfl h.fits.seq h.fits.level]
  simp [tableRecord]

theorem resting_unlock (h : Resting s) (hl : s.lock = some []) : Resting s.released := by
  obtain ⟨hk, hlock⟩ := h
  rcases hlock with ⟨hnone, _⟩ | ⟨base, add, lvl, u, m, ha⟩
  · rw [hnone] at hl
    cases hl
  · obtain ⟨hclean, hadded⟩ := ha.done hl
    refine ⟨fun t ht => ?_, Or.inl ⟨rfl, hclean⟩⟩
    rcases List.mem_append.mp ht with ht | ht
    · exact hk t ht
    · have hmem := (List.mem_filter.mp ht).1
      rw [ha.adding] at hmem
      cases add with
      | true => exact List.mem_singleton.mp hmem ▸ hadded rfl
      | false => cases hmem

theorem inv_unlock (h : Inv s) (hs : step s .unlock = some s') : Inv s' := by
  have hph := h.phase
  unfold step at hs
  dsimp only at hs
  split at hs
  · cases hs
  · rename_i hp hl
    cases hs
    rw [hp] at hph
    obtain ⟨acc, m, hcol, hfile, hlk⟩ := hph
    rw [hlk] at hl
    have hm := List.drop_eq_nil_iff.mp (Option.some.inj hl)
    rw [List.take_of_length_le hm] at hfile
    refine ⟨h.used, h.fits, h.live, ⟨?_, Or.inl ⟨rfl, ?_⟩⟩⟩
    · have := hcol.lists
      rw [← hfile] at this
      exact this
    · rw [hfile]
      exact (rewritten_clean hcol.1).1
  · rename_i hl hnl hnw
    cases hs
    refine ⟨h.used, h.fits, fun t ht => ?_, ?_⟩
    · rcases List.mem_append.mp ht with ht | ht
      · exact h.live t ht
      · exact of_decide_eq_true (List.mem_filter.mp ht).2
    · have hrest : ∀ p, p = s.phase → PhaseOk s p → PhaseOk s.released p := by
        intro p hp h
        cases p with
        | idle => exact resting_unlock h hl
        | collecting next acc => exact ⟨resting_unlock h.1 hl, h.2⟩
        | locked acc => exact absurd hp.symm (hnl acc)
        | writing => exact absurd hp.symm hnw
      exact hrest _ rfl hph
  · cases hs

theorem mem_allTables_changed (hnew : ∀ t ∈ tables, t ∈ s.levels lvl ∨ t.seq ∉ s.used) (hlvl : lvl < maxLevels)
    (ht : t ∈ allTables (setLevel s.levels lvl tables)) :
    t ∈ allTables s.levels ∨ t.seq ∉ s.used := by
  obtain ⟨l, hl, htl⟩ := mem_allTables.mp ht
  rcases mem_setLevel htl with ⟨_, hmem⟩ | ⟨_, htl⟩
  · exact (hnew t hmem).imp_left fun hold => mem_allTables.mpr ⟨_, hlvl, hold⟩
  · exact Or.inl (mem_allTables.mpr ⟨l, hl, htl⟩)

theorem phaseOk_change {p : Phase} (hp : PhaseOk s p) (hfile : s'.file = s.file)
    (hlock : s'.lock = s.lock) (happ : Appendable s → Appendable s')
    (howes : ∀ t ∈ s'.owes, t ∈ s.owes)
    (hcopied : ∀ next acc, p = .collecting next acc → ∀ l < next, ∀ t ∈ s'.levels l, t ∈ s.levels l) :
    PhaseOk s' p := by
  have hkeep : Keeps s → Keeps s' := by
    intro hk t ht
    rw [hfile]
    exact hk t (howes t ht)
  have hcol : ∀ {acc}, Collected s acc → Collected s' acc :=
    fun hc => ⟨hc.1, fun t ht => hc.2 t (howes t ht)⟩
  cases p with
  | idle => exact ⟨hkeep hp.1, happ hp.2⟩
  | collecting next acc =>
    obtain ⟨⟨hk, ha⟩, hn, hfit, hcov⟩ := hp
    exact ⟨⟨hkeep hk, happ ha⟩, hn, hfit, fun l hl t ht => hcov l hl t (hcopied next acc rfl l hl t ht)⟩
  | locked acc => exact ⟨hkeep hp.1, hlock.trans hp.2.1, hfile ▸ hp.2.2.1, hcol hp.2.2.2⟩
  | writing =>
    obtain ⟨acc, m, hc, hf, hl⟩ := hp
    exact ⟨acc, m, hcol hc, hfile.trans hf, hlock.trans hl⟩

theorem inv_change (h : Inv s) (hok : StepOk s (.change lvl tables))
    (hs : step s (.change lvl tables) = some s') : Inv s' := by
  unfold step at hs
  dsimp only at hs
  split at hs
  · rename_i hc
    cases hs
    obtain ⟨hlvl, hnew⟩ := hc
    refine ⟨?_, ?_, ?_, phaseOk_change h.phase rfl rfl (fun ha => ha.of_eq rfl rfl rfl
      (fun n hn => List.mem_append_left _ hn) fun v hv => mem_allTables_changed hnew hlvl hv) ?_ ?_⟩
    · intro t ht
      obtain ⟨l, hl, htl⟩ := mem_allTables.mp ht
      rcases mem_setLevel htl with ⟨_, htl⟩ | ⟨_, htl⟩
      · exact List.mem_append_right _ (List.mem_map_of_mem htl)
      · exact List.mem_append_left _ (h.used t (mem_allTables.mpr ⟨l, hl, htl⟩))
    · intro l hl t ht
      rcases mem_setLevel ht with ⟨hll, hmem⟩ | ⟨_, hmem⟩
      · exact hll ▸ hok.1 t hmem
      · exact h.fits l hl t hmem
    · intro t ht
      exact of_decide_eq_true (List.mem_filter.mp ht).2
    · intro t ht
      exact (List.mem_filter.mp ht).1
    · intro next acc hp l hl t ht
      rcases mem_setLevel ht with ⟨rfl, hmem⟩ | ⟨_, ht⟩
      · exact hok.2 next acc hp hl t hmem
      · exact ht
  · cases hs

theorem inv_append (h : Inv s) (hok : StepOk s (.append add lvl t))
    (hs : step s (.append add lvl t) = some s') : Inv s' := by
  unfold step at hs
  dsimp only at hs
  split at hs
  · cases hs
  · rename_i hl
    split at hs
    · rename_i hc
      cases hs
      have hstart : Appendable s → Appendable (s.appending add lvl t) := by
        rintro (⟨_, hclean⟩ | ⟨_, _, _, _, _, ha⟩)
        · exact Or.inr ⟨s.file, add, lvl, t, 0, hclean, hok, hc.1, hc.2, rfl,
            by simp [State.appending], by simp [State.appending]⟩
        · rw [ha.left] at hl
          cases hl
      have hphase : ∀ p, PhaseOk s p → PhaseOk (s.appending add lvl t) p := by
        intro p hp
        cases p with
        | idle => exact ⟨hp.1, hstart hp.2⟩
        | collecting next acc => exact ⟨⟨hp.1.1, hstart hp.1.2⟩, hp.2⟩
        | locked acc =>
          rw [hp.2.1] at hl
          cases hl
        | writing =>
          obtain ⟨acc, m, _, _, hlk⟩ := hp
          rw [hlk] at hl
          cases hl
      exact ⟨h.used, h.fits, h.live, hphase _ h.phase⟩
    · cases hs

theorem inv_step {a : Act} (h : Inv s) (hok : StepOk s a) (hs : step s a = some s') : Inv s' := by
  cases a with
  | begin => exact inv_begin h hok hs
  | collect => exact inv_collect h hs
  | lockRewrite => exact inv_lockRewrite h hs
  | truncate => exact inv_truncate h hs
  | write n => exact inv_write h hs
  | unlock => exact inv_unlock h hs
  | change lvl tables => exact inv_change h hok hs
  | append add lvl t => exact inv_append h hok hs

theorem Inv.keeps (h : Inv s) (hw : ¬ InWindow s) : Keeps s := by
  have hph := h.phase
  cases hp : s.phase with
  | idle =>
    rw [hp] at hph
    exact hph.1
  | collecting next acc =>
    rw [hp] at hph
    exact hph.1.1
  | locked acc =>
    rw [hp] at hph
    exact hph.1
  | writing =>
    rw [hp] at hph
    obtain ⟨acc, m, hcol, hfile, hlk⟩ := hph
    have hnil : (rewritten acc).drop m = [] := by
      by_contra hne
      exact hw ⟨hp, fun hl => hne (Option.some.inj (hlk.symm.trans hl))⟩
    rw [List.take_of_length_le (List.drop_eq_nil_iff.mp hnil)] at hfile
    rw [Keeps, hfile]
    exact hcol.lists

theorem truncate_forgets {s₀ : State} {as : List Act}
    (hr : run step s₀ (as ++ [.truncate]) = some s) (hne : s.owes ≠ []) : ¬ Keeps s := by
  obtain ⟨m, _, hlast⟩ := run_append.mp hr
  obtain ⟨s', hs, hnil⟩ := run_cons hlast
  cases hnil
  unfold step at hs
  dsimp only at hs
  split at hs
  · cases hs
    intro hk
    obtain ⟨t, ht⟩ := List.exists_mem_of_ne_nil _ hne
    exact hk t ht rfl
  · cases hs

def small (seq : Nat) (key : UInt8) : Table :=
  ⟨seq, 0, [[⟨[key], [118], false, 0, seq⟩]], Filter.newFilter (fun _ => 0) [[key]], 0⟩

theorem small_fits {lvl seq : Nat} (hlvl : lvl < 256) (hseq : seq < 2 ^ 64) (key : UInt8) : Fits lvl (small seq key) :=
  ⟨hlvl, hseq, by simp [small, Table.minKey, Table.maxKey, Table.entries, Manifest.maxDataLen]⟩

/-- One table in level 0 and one in the last level. -/
def twoTables : State where
  file := rewritten [(0, small 1 107), (4, small 2 97)]
  levels := fun lvl => if lvl = 0 then [small 1 107] else if lvl = 4 then [small 2 97] else []
  lock := none
  adding := none
  phase := .idle
  used := [1, 2]
  owes := [small 1 107, small 2 97]

theorem twoTables_initial : Initial twoTables where
  phase := rfl
  lock := rfl
  clean := (rewritten_clean (by simp [small_fits])).1
  owes := by decide +kernel
  listed := by decide +kernel
  used := by decide +kernel
  fits := by
    intro lvl hlvl t ht
    have hlvl : lvl < 256 := hlvl.trans (by decide)
    simp only [twoTables] at ht
    split at ht
    · exact List.mem_singleton.mp ht ▸ small_fits hlvl (by decide) _
    · split at ht
      · exact List.mem_singleton.mp ht ▸ small_fits hlvl (by decide) _
      · cases ht

def toTruncate : List Act :=
  [.begin, .collect, .collect, .collect, .collect, .collect, .lockRewrite, .truncate]

/-- A compaction puts a table into the last level and lists it while the levels are copied. -/
def duringCompaction : List Act :=
  [.begin, .collect, .change 4 [small 2 97, small 3 98], .append true 4 (small 3 98), .write 100, .unlock,
    .collect, .collect, .collect, .collect, .lockRewrite, .truncate, .write 300, .unlock]

theorem duringCompaction_guarded : Guarded step StepOk twoTables duringCompaction := by
  refine ⟨show ∀ t ∈ allTables twoTables.levels, _ from twoTables_initial.listed, fun s hs => ?_⟩
  cases hs
  refine ⟨trivial, fun s hs => ?_⟩
  cases hs
  refine ⟨⟨by simp [small_fits], ?_⟩, fun s _ => ⟨small_fits (by decide) (by decide) _, fun s _ => ?_⟩⟩
  · intro next acc hp hlt
    cases hp
    omega
  · exact guarded_of_forall (fun s a ha => by
      simp only [List.mem_cons, List.not_mem_nil, or_false] at ha
      rcases ha with rfl | rfl | rfl | rfl | rfl | rfl | rfl | rfl | rfl | rfl <;> trivial) _

end Rewrite
end AkwaDB
