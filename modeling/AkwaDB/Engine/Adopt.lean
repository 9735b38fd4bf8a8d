import AkwaDB.Engine.Ingest
import AkwaDB.Engine.Recency

/-!
# AkwaDB.Engine.Adopt

What reads say of the keys of ingested tables.

Point lookups take the first table with the key, while scans and compactions take the highest version.
`Ingest` places its tables above all that they overlap and leaves their versions as they are. So the
two agree on an ingested entry only if its version is above those stored of its key; and `Get`, which
reads at the version counter of the memtable, sees it only if the counter has reached it.

`ingested_visible`: when that is so of every ingestion, all reads show the ingested entry, also after
later writes of other keys, flushes, compactions and ingestions.
-/

namespace AkwaDB

/-! ## Entries that read alike -/

/-- From `now` on, `y` is dead when `x` is, and `x` itself as long as `x` is alive. -/
def Entry.Agrees (now : Int) (y x : Entry) : Prop :=
  ∀ t, now ≤ t → y.dead t = x.dead t ∧ (x.dead t = false → y = x)

namespace Entry

theorem Agrees.refl (now : Int) (x : Entry) : Agrees now x x := fun _ _ => ⟨rfl, fun _ => rfl⟩

theorem Agrees.trans {now : Int} {x y z : Entry} (h : Agrees now z y) (h' : Agrees now y x) :
    Agrees now z x := by
  intro t ht
  obtain ⟨hd, he⟩ := h t ht
  obtain ⟨hd', he'⟩ := h' t ht
  exact ⟨hd.trans hd', fun hx => (he (hd'.trans hx)).trans (he' hx)⟩

theorem Agrees.mono {now now' : Int} {x y : Entry} (h : Agrees now y x) (hle : now ≤ now') :
    Agrees now' y x := fun t ht => h t (hle.trans ht)

theorem agrees_stored (now : Int) (x : Entry) : Agrees now x.stored x := by
  intro t _
  refine ⟨stored_dead t x, fun hx => stored_of_live ?_⟩
  simp only [dead, Bool.or_eq_false_iff] at hx
  exact hx.1

theorem agrees_compacted (now : Int) (x : Entry) : Agrees now (x.compacted now).stored x := by
  intro t ht
  refine ⟨compacted_dead x ht, fun hx => compacted_of_live ?_⟩
  by_contra hdead
  rw [dead_mono ht (by simpa using hdead)] at hx
  cases hx

end Entry

theorem Distinct.image {l m : List Entry} (h : Distinct l) {f : Entry → Entry}
    (hf : ∀ x, (f x).key = x.key ∧ (f x).version = x.version) (hm : ∀ y ∈ m, ∃ x ∈ l, y = f x) :
    Distinct m := by
  intro y hy y' hy' hk hv
  obtain ⟨x, hx, rfl⟩ := hm y hy
  obtain ⟨x', hx', rfl⟩ := hm y' hy'
  rw [(hf x).1, (hf x').1] at hk
  rw [(hf x).2, (hf x').2] at hv
  rw [h x hx x' hx' hk hv]

theorem Distinct.subset {l m : List Entry} (h : Distinct l) (hm : ∀ y ∈ m, y ∈ l) : Distinct m :=
  fun x hx y hy => h x (hm x hx) y (hm y hy)

namespace Engine

/-! ## Reads of entries that agree -/

section Reads

variable (vl : Vlog.ValueLog) {now : Int} {x y : Entry}

theorem resolved_dead (h : x.dead now = true) : resolved vl now (some x) = .error .keyNotFound := by
  simp [resolved, h]

theorem resolved_agrees (h : y.Agrees now x) : resolved vl now (some y) = resolved vl now (some x) := by
  obtain ⟨hd, he⟩ := h now (le_refl now)
  by_cases hx : x.dead now = true
  · rw [resolved_dead vl hx, resolved_dead vl (hd.trans hx)]
  · rw [he (by simpa using hx)]

theorem remaining_agrees (h : y.Agrees now x) : remaining now (some y) = remaining now (some x) := by
  obtain ⟨hd, he⟩ := h now (le_refl now)
  by_cases hx : x.dead now = true
  · simp [remaining, hx, hd.trans hx]
  · rw [he (by simpa using hx)]

theorem scanned_dead (h : x.dead now = true) : scanned vl now x = none := by
  unfold scanned
  rw [if_neg]
  rintro ⟨hdel, hexp⟩
  simp only [Entry.dead, hdel, Bool.false_or, Entry.expired, Bool.and_eq_true, decide_eq_true_eq] at h
  omega

theorem scanned_agrees (h : y.Agrees now x) : scanned vl now y = scanned vl now x := by
  obtain ⟨hd, he⟩ := h now (le_refl now)
  by_cases hx : x.dead now = true
  · rw [scanned_dead vl hx, scanned_dead vl (hd.trans hx)]
  · rw [he (by simpa using hx)]

theorem scanned_iff_resolved (h0 : 0 ≤ x.expiresAt) {v : Bytes} :
    scanned vl now x = some (x.key, v) ↔ resolved vl now (some x) = .ok v := by
  by_cases hx : x.dead now = true
  · simp [scanned_dead vl hx, resolved_dead vl hx]
  · have hlive : x.deleted = false ∧ (x.expiresAt = 0 ∨ now < x.expiresAt) := by
      simp only [Entry.dead, Entry.expired, Bool.or_eq_true, Bool.and_eq_true, decide_eq_true_eq] at hx
      refine ⟨by simpa using fun h => hx (Or.inl h), ?_⟩
      by_contra hne
      exact hx (Or.inr (by omega))
    rw [scanned, if_pos hlive, resolved, if_neg hx]
    cases Vlog.resolveValue vl x.value <;> simp

end Reads

inductive Act where
  | op (op : Op)
  | ingest (staged : List Staged)

def Act.Touches (k : Bytes) : Act → Prop
  | .op (.put key _ _) => key = k
  | .op (.delete key) => key = k
  | .op _ => False
  | .ingest staged => ∃ s ∈ staged, ∃ x ∈ s.table.entries, x.key = k

variable (cfg : Config)

def act (e : Engine) : Act → Option Engine
  | .op op => (Traced.step cfg ⟨e, []⟩ op).map Traced.engine
  | .ingest staged => (e.ingest cfg false staged).bind Except.toOption

/-- Tables as the writer makes them, with versions above those stored of their keys, up to the counter. In a table
that a flush wrote with the empty key the first block is found under another key. -/
structure Adoptable (e : Engine) (staged : List Staged) : Prop where
  named : ∀ s ∈ staged, ∀ x ∈ s.table.entries, x.key ≠ []
  wf : ∀ s ∈ staged, s.table.WF cfg.xxhash
  distinct : ∀ s ∈ staged, Distinct s.table.entries
  short : ∀ s ∈ staged, ∀ x ∈ s.table.entries, x.key.length ≤ maxIndexKey
  expiry : ∀ s ∈ staged, ∀ x ∈ s.table.entries, 0 ≤ x.expiresAt
  reached : ∀ s ∈ staged, ∀ x ∈ s.table.entries, x.version ≤ e.mem.currentVersion
  above : ∀ s ∈ staged, ∀ x ∈ s.table.entries, ∀ y ∈ e.layers.flatten, y.key = x.key → y.version < x.version

def ActOk (e : Engine) : Act → Prop
  | .op op => Traced.StepOk cfg ⟨e, []⟩ op
  | .ingest staged => Adoptable cfg e staged

/-- What is said of the key of an entry is what the entry says. -/
def Shows (vl : Vlog.ValueLog) (e : Engine) (x : Entry) : Prop :=
  e.get cfg vl x.key = resolved vl e.now (some x) ∧
    e.getByVersion cfg vl x.key e.mem.currentVersion = resolved vl e.now (some x) ∧
    e.ttl cfg x.key = remaining e.now (some x) ∧
    ∀ pre, pre <+: x.key → ∀ v, (x.key, v) ∈ e.getByPrefix cfg vl pre ↔ resolved vl e.now (some x) = .ok v

structure Tidy (e : Engine) : Prop where
  ordered : e.Ordered cfg
  distinct : Distinct e.layers.flatten
  short : ∀ x ∈ e.layers.flatten, x.key.length ≤ maxIndexKey
  below : ∀ x ∈ e.layers.flatten, x.version ≤ e.mem.currentVersion
  counter : e.mem.currentVersion ≤ e.oracle.nextTs

/-- The newest version of the key agrees with the entry, or the entry is dead and nothing is left. -/
structure Shown (e : Engine) (x : Entry) : Prop where
  latest : ∀ y ∈ e.layers.flatten, y.key = x.key → y.version ≤ x.version
  agrees : ∀ y ∈ e.layers.flatten, y.key = x.key → y.version = x.version → y.Agrees e.now x
  present : (∃ y ∈ e.layers.flatten, y.key = x.key ∧ y.version = x.version) ∨
    x.dead e.now = true ∧ ∀ y ∈ e.layers.flatten, y.key ≠ x.key

/-- `xs` are new, the others agree with entries that were there, and no live newest entry is lost. -/
structure Changes (xs : List Entry) (e e' : Engine) : Prop where
  now : e.now ≤ e'.now
  sound : ∀ y ∈ e'.layers.flatten, y ∈ xs ∨
    ∃ x ∈ e.layers.flatten, y.key = x.key ∧ y.version = x.version ∧ y.Agrees e'.now x
  kept : ∀ x ∈ e.layers.flatten, (∀ z ∈ xs, z.key ≠ x.key) →
    (∀ z ∈ e.layers.flatten, z.key = x.key → z.version ≤ x.version) →
    (∃ y ∈ e'.layers.flatten, y.key = x.key ∧ y.version = x.version) ∨
      x.dead e'.now = true ∧ ∀ y ∈ e'.layers.flatten, y.key ≠ x.key

variable {cfg} {e e' : Engine}

theorem Shown.changes {x : Entry} (h : Shown e x) {xs : List Entry} (hc : Changes xs e e')
    (hother : ∀ z ∈ xs, z.key ≠ x.key) : Shown e' x := by
  have hold : ∀ y ∈ e'.layers.flatten, y.key = x.key →
      ∃ z ∈ e.layers.flatten, z.key = x.key ∧ y.version = z.version ∧ y.Agrees e'.now z := by
    intro y hy hk
    rcases hc.sound y hy with hxs | ⟨z, hz, hzk, hzv, hza⟩
    · exact absurd hk (hother y hxs)
    · exact ⟨z, hz, hzk.symm.trans hk, hzv, hza⟩
  refine ⟨?_, ?_, ?_⟩
  · intro y hy hk
    obtain ⟨z, hz, hzk, hv, _⟩ := hold y hy hk
    rw [hv]
    exact h.latest z hz hzk
  · intro y hy hk hv
    obtain ⟨z, hz, hzk, hzv, ha⟩ := hold y hy hk
    exact ha.trans ((h.agrees z hz hzk (hzv.symm.trans hv)).mono hc.now)
  · rcases h.present with ⟨z, hz, hzk, hzv⟩ | ⟨hdead, hnone⟩
    · have hnewest : ∀ w ∈ e.layers.flatten, w.key = z.key → w.version ≤ z.version := by
        intro w hw hk
        rw [hzv]
        exact h.latest w hw (hk.trans hzk)
      rcases hc.kept z hz (fun w hw => hzk ▸ hother w hw) hnewest with ⟨y, hy, hyk, hyv⟩ | ⟨hdead, hnone⟩
      · exact Or.inl ⟨y, hy, hyk.trans hzk, hyv.trans hzv⟩
      · refine Or.inr ⟨?_, fun y hy => hzk ▸ hnone y hy⟩
        rw [← ((h.agrees z hz hzk hzv) e'.now hc.now).1]
        exact hdead
    · refine Or.inr ⟨Entry.dead_mono hc.now hdead, fun y hy hk => ?_⟩
      obtain ⟨z, hz, hzk, _⟩ := hold y hy hk
      exact hnone z hz hzk

theorem Changes.refl (e : Engine) : Changes [] e e :=
  ⟨le_refl _, fun y hy => Or.inr ⟨y, hy, rfl, rfl, .refl _ _⟩, fun x hx _ _ => Or.inl ⟨x, hx, rfl, rfl⟩⟩

theorem Changes.of_mem {xs : List Entry} (hnow : e.now ≤ e'.now)
    (hmem : ∀ y, y ∈ e'.layers.flatten ↔ y ∈ xs ∨ y ∈ e.layers.flatten) : Changes xs e e' := by
  refine ⟨hnow, fun y hy => ?_, fun x hx _ _ => Or.inl ⟨x, (hmem x).mpr (Or.inr hx), rfl, rfl⟩⟩
  exact ((hmem y).mp hy).imp_right fun hy => ⟨y, hy, rfl, rfl, .refl _ _⟩

/-! ## The reads of a shown entry -/

section Found

variable {x : Entry} {ok : Nat → Bool}

theorem Shown.agrees_newest (h : Shown e x)
    (hok : ∀ y ∈ e.layers.flatten, y.key = x.key → ok y.version = true) {y : Entry}
    (hn : IsNewest Entry.version (Entry.hits x.key ok) e.layers.flatten y) : y.Agrees e.now x := by
  have hk := (Entry.hits_iff.mp hn.pass).1
  refine h.agrees y hn.mem hk ?_
  rcases h.present with ⟨z, hz, hzk, hzv⟩ | ⟨_, hnone⟩
  · have hle := hn.max z hz (Entry.hits_iff.mpr ⟨hzk, hok z hz hzk⟩)
    have := h.latest y hn.mem hk
    omega
  · exact absurd hk (hnone y hn.mem)

theorem Shown.dead_of_none (h : Shown e x)
    (hok : ∀ y ∈ e.layers.flatten, y.key = x.key → ok y.version = true)
    (hnone : ∀ y ∈ e.layers.flatten, y.hits x.key ok = false) : x.dead e.now = true := by
  rcases h.present with ⟨y, hy, hk, _⟩ | ⟨hdead, _⟩
  · have hmiss := hnone y hy
    rw [Entry.hits_iff.mpr ⟨hk, hok y hy hk⟩] at hmiss
    cases hmiss
  · exact hdead

theorem Shown.lookup (h : Shown e x) (ht : Tidy cfg e) (ha : ∀ t ∈ allTables e.levels, t.Aligned x.key)
    (hok : ∀ y ∈ e.layers.flatten, y.key = x.key → ok y.version = true) :
    (∃ y, e.lookup cfg x.key ok = some y ∧ y.Agrees e.now x) ∨
      e.lookup cfg x.key ok = none ∧ x.dead e.now = true := by
  rw [ht.ordered.lookup_eq_newest ha]
  cases hl : newest Entry.version (Entry.hits x.key ok) e.layers.flatten with
  | none => exact Or.inr ⟨rfl, h.dead_of_none hok (newest_eq_none.mp hl)⟩
  | some y => exact Or.inl ⟨y, rfl, h.agrees_newest hok (newest_spec hl)⟩

end Found

theorem Shown.shows (vl : Vlog.ValueLog) {x : Entry} (h : Shown e x) (ht : Tidy cfg e)
    (ha : ∀ t ∈ allTables e.levels, t.Aligned x.key) (h0 : 0 ≤ x.expiresAt) : Shows cfg vl e x := by
  have hget : e.getByVersion cfg vl x.key e.mem.currentVersion = resolved vl e.now (some x) := by
    rw [getByVersion]
    rcases @Shown.lookup cfg e x (fun v => decide (v ≤ e.mem.currentVersion)) h ht ha
      (fun y hy _ => decide_eq_true (ht.below y hy)) with ⟨y, hy, hag⟩ | ⟨hy, hdead⟩
    · rw [hy, resolved_agrees vl hag]
    · rw [hy, resolved_dead vl hdead, resolved]
  refine ⟨hget, hget, ?_, ?_⟩
  · rw [ttl]
    rcases @Shown.lookup cfg e x (fun _ => true) h ht ha (fun _ _ _ => rfl) with ⟨y, hy, hag⟩ | ⟨hy, hdead⟩
    · rw [hy, remaining_agrees hag]
    · simp [hy, remaining, hdead]
  · intro pre hpre v
    rw [mem_getByPrefix ht.ordered.wf ht.distinct, ← scanned_iff_resolved vl h0]
    cases hn : newest Entry.version (Entry.hits x.key fun _ => true) e.layers.flatten with
    | none => simp [scanned_dead vl (h.dead_of_none (fun _ _ _ => rfl) (newest_eq_none.mp hn))]
    | some y => simp [hpre, scanned_agrees vl (h.agrees_newest (fun _ _ _ => rfl) (newest_spec hn))]

/-! ## Writes, flushes and compactions -/

theorem distinct_flatten {layers : List (List Entry)} (hd : Descends Entry.key Entry.version layers)
    (hl : ∀ l ∈ layers, Distinct l) : Distinct layers.flatten := by
  induction layers with
  | nil => exact fun x hx => nomatch hx
  | cons l ls ih =>
    obtain ⟨hnewer, hls⟩ := List.pairwise_cons.mp hd
    have hrest := ih hls fun m hm => hl m (List.mem_cons_of_mem _ hm)
    have hlt : ∀ x ∈ l, ∀ y ∈ ls.flatten, x.key = y.key → y.version < x.version := by
      intro x hx y hy hk
      obtain ⟨m, hm, hym⟩ := List.mem_flatten.mp hy
      exact hnewer m hm x hx y hym hk
    intro x hx y hy hk hv
    rw [List.flatten_cons, List.mem_append] at hx hy
    rcases hx with hx | hx <;> rcases hy with hy | hy
    · exact hl l (by simp) x hx y hy hk hv
    · exact absurd hv (Nat.ne_of_gt (hlt x hx y hy hk))
    · exact absurd hv (Nat.ne_of_lt (hlt y hy x hx hk.symm))
    · exact hrest x hx y hy hk hv

theorem Ordered.distinct (h : e.Ordered cfg) (hm : Distinct e.mem.nodes) (hi : Distinct e.immNodes)
    (ht : ∀ t ∈ allTables e.levels, Distinct t.entries) : Distinct e.layers.flatten := by
  refine distinct_flatten h.descends fun l hl => ?_
  simp only [layers, List.mem_cons, List.mem_map, mem_tableOrder] at hl
  rcases hl with rfl | rfl | ⟨t, htab, rfl⟩
  · exact hm
  · exact hi
  · exact ht t htab

theorem Tidy.distinct_parts (h : Tidy cfg e) :
    Distinct e.mem.nodes ∧ Distinct e.immNodes ∧ ∀ t ∈ allTables e.levels, Distinct t.entries :=
  ⟨h.distinct.subset fun _ hy => mem_layers.mpr (Or.inl hy),
    h.distinct.subset fun _ hy => mem_layers.mpr (Or.inr (Or.inl hy)),
    fun t ht => h.distinct.subset fun _ hy => mem_layers.mpr (Or.inr (Or.inr ⟨t, ht, hy⟩))⟩

theorem tidy_fresh (now : Int) : Tidy cfg (Engine.fresh now) where
  ordered := ordered_fresh now
  distinct := fun x hx => absurd hx (layers_fresh now x)
  short := fun x hx => absurd hx (layers_fresh now x)
  below := fun x hx => absurd hx (layers_fresh now x)
  counter := Nat.max_le.mpr ⟨Nat.zero_le _, le_refl _⟩

theorem Tidy.advance (h : Tidy cfg e) (now : Int) (nextSeq : Nat) (oracle : Oracle)
    (hnext : e.oracle.nextTs ≤ oracle.nextTs) : Tidy cfg { e with now, oracle, nextSeq } :=
  ⟨⟨h.ordered.wf, h.ordered.memImm, h.ordered.memTable, h.ordered.immTable, h.ordered.level0,
    h.ordered.across, h.ordered.apart⟩, h.distinct, h.short, h.below, h.counter.trans hnext⟩

theorem Changes.same (hnow : e.now ≤ e'.now) (hmem : ∀ y, y ∈ e'.layers.flatten ↔ y ∈ e.layers.flatten) :
    Changes [] e e' := .of_mem hnow fun y => by simp [hmem y]

theorem mem_insert {x y : Entry} :
    y ∈ (layers { e with mem := e.mem.insertNode x }).flatten ↔ y ∈ [x] ∨ y ∈ e.layers.flatten := by
  rw [mem_layers, mem_layers, SkipList.mem_insertNode, or_assoc, List.mem_singleton]
  rfl

section
variable (h : Tidy cfg e)
include h

theorem Tidy.insert {x : Entry} (hnew : e.mem.currentVersion < x.version)
    (hle : x.version ≤ e.oracle.nextTs) (hshort : x.key.length ≤ maxIndexKey) :
    Tidy cfg { e with mem := e.mem.insertNode x } := by
  have hlt : ∀ y ∈ e.layers.flatten, y.version < x.version := fun y hy => (h.below y hy).trans_lt hnew
  have hnewer : ∀ l : List Entry, (∀ y ∈ l, y ∈ e.layers.flatten) → Newer [x] l := by
    intro l hl z hz y hy _
    rw [List.mem_singleton.mp hz]
    exact hlt y (hl y hy)
  refine ⟨@Ordered.insertAll _ _ h.ordered [x] (hnewer _ fun y hy => mem_layers.mpr (Or.inr (Or.inl hy)))
    (fun t ht => hnewer _ fun y hy => mem_layers.mpr (Or.inr (Or.inr ⟨t, ht, hy⟩))), ?_, ?_, ?_, ?_⟩
  · intro y hy z hz hk hv
    rcases mem_insert.mp hy with hyx | hy <;> rcases mem_insert.mp hz with hzx | hz
    · rw [List.mem_singleton.mp hyx, List.mem_singleton.mp hzx]
    · rw [List.mem_singleton.mp hyx] at hv
      exact absurd hv (Nat.ne_of_gt (hlt z hz))
    · rw [List.mem_singleton.mp hzx] at hv
      exact absurd hv (Nat.ne_of_lt (hlt y hy))
    · exact h.distinct y hy z hz hk hv
  · intro y hy
    rcases mem_insert.mp hy with hy | hy
    · rw [List.mem_singleton.mp hy]
      exact hshort
    · exact h.short y hy
  · intro y hy
    rcases mem_insert.mp hy with hy | hy
    · rw [List.mem_singleton.mp hy]
      exact Nat.le_max_right _ _
    · exact (h.below y hy).trans (Nat.le_max_left _ _)
  · exact Nat.max_le.mpr ⟨h.counter, hle⟩

theorem Tidy.dispatch {node : Nat → Option Entry} (hw : Traced.Writes node (e.oracle.nextTs + 1)) :
    Tidy cfg (e.dispatch node) ∧ Changes (node (e.oracle.nextTs + 1)).toList e (e.dispatch node) := by
  have h1 : Tidy cfg { e with
      oracle := e.oracle.newCommitTs.2, nextSeq := max e.nextSeq (e.oracle.nextTs + 1) } :=
    h.advance e.now _ _ (Nat.le_succ _)
  have hmark : ∀ {e' : Engine}, Tidy cfg e' →
      Tidy cfg { e' with oracle := e'.oracle.markApplied (e.oracle.nextTs + 1) } := by
    intro e' h'
    exact h'.advance e'.now e'.nextSeq _ (by rw [Oracle.markApplied_nextTs])
  unfold Engine.dispatch
  cases hn : node (e.oracle.nextTs + 1) with
  | none =>
    simp only [Oracle.newCommitTs, hn, Option.toList_none]
    exact ⟨hmark h1, .same (le_refl _) fun _ => Iff.rfl⟩
  | some x =>
    obtain ⟨hv, hshort⟩ := hw x hn
    simp only [Oracle.newCommitTs, hn, Option.toList_some]
    refine ⟨hmark (h1.insert ?_ (Nat.le_of_eq hv) hshort), .of_mem (le_refl _) fun y => mem_insert⟩
    rw [hv]
    exact Nat.lt_succ_of_le h.counter

theorem Tidy.rotate (hr : e.rotate = some e') : Tidy cfg e' ∧ Changes [] e e' := by
  have hmem : ∀ x, x ∈ e'.layers.flatten ↔ x ∈ e.layers.flatten := fun x => mem_rotate hr
  have hord := h.ordered.rotate hr
  unfold Engine.rotate at hr
  split at hr
  · cases hr
  · cases hr
    have hcur : (SkipList.newSkipList.seedVersion e.mem.currentVersion).currentVersion = e.mem.currentVersion :=
      Nat.max_eq_right (Nat.zero_le _)
    refine ⟨⟨hord, ?_, ?_, ?_, ?_⟩, .same (le_refl _) hmem⟩
    · exact h.distinct.subset fun y hy => (hmem y).mp hy
    · exact fun x hx => h.short x ((hmem x).mp hx)
    · intro x hx
      rw [hcur]
      exact h.below x ((hmem x).mp hx)
    · rw [hcur]
      exact h.counter

theorem Tidy.of_changes (hc : Changes [] e e') (hord : e'.Ordered cfg)
    (hd : Distinct e'.layers.flatten) (hcur : e'.mem.currentVersion = e.mem.currentVersion)
    (hnext : e'.oracle.nextTs = e.oracle.nextTs) : Tidy cfg e' := by
  have hold : ∀ y ∈ e'.layers.flatten, ∃ x ∈ e.layers.flatten, y.key = x.key ∧ y.version = x.version := by
    intro y hy
    rcases hc.sound y hy with hnil | ⟨x, hx, hk, hv, _⟩
    · cases hnil
    · exact ⟨x, hx, hk, hv⟩
  refine ⟨hord, hd, ?_, ?_, by rw [hcur, hnext]; exact h.counter⟩
  · intro y hy
    obtain ⟨x, hx, hk, _⟩ := hold y hy
    rw [hk]
    exact h.short x hx
  · intro y hy
    obtain ⟨x, hx, _, hv⟩ := hold y hy
    rw [hv, hcur]
    exact h.below x hx

theorem Tidy.executeFlush (hf : e.executeFlush cfg = some e') : Tidy cfg e' ∧ Changes [] e e' := by
  have hshort : ∀ x ∈ e.immNodes, x.key.length ≤ maxIndexKey :=
    fun x hx => h.short x (mem_layers.mpr (Or.inr (Or.inl hx)))
  obtain ⟨hmem, himm, htab⟩ := h.distinct_parts
  rcases executeFlush_cases hf hshort with ⟨hnil, rfl⟩ | ⟨t, hwf, hent, rfl⟩
  · have hc : Changes [] e { e with imm := none } := by
      refine .same (le_refl _) fun y => ?_
      rw [mem_layers, mem_layers, hnil]
      rfl
    refine ⟨h.of_changes hc h.ordered.dropImm ?_ rfl rfl, hc⟩
    exact h.ordered.dropImm.distinct hmem (fun x hx => nomatch hx) htab
  · have hc : Changes [] e
        { e with imm := none, levels := setLevel e.levels 0 (e.levels 0 ++ [t]) } := by
      refine ⟨le_refl _, ?_, ?_⟩
      · intro y hy
        right
        rcases mem_layers.mp hy with hmem | himm | ⟨u, hu, htab⟩
        · exact ⟨y, mem_layers.mpr (Or.inl hmem), rfl, rfl, .refl _ _⟩
        · cases himm
        · rcases mem_allTables_flush.mp hu with hu | rfl
          · exact ⟨y, mem_layers.mpr (Or.inr (Or.inr ⟨u, hu, htab⟩)), rfl, rfl, .refl _ _⟩
          · obtain ⟨x, hx, rfl⟩ := (hent y).mp htab
            exact ⟨x, mem_layers.mpr (Or.inr (Or.inl hx)), by simp, by simp, Entry.agrees_stored _ x⟩
      · intro x hx _ _
        left
        rcases mem_layers.mp hx with hx | hx | ⟨u, hu, hx⟩
        · exact ⟨x, mem_layers.mpr (Or.inl hx), rfl, rfl⟩
        · exact ⟨x.stored, mem_layers.mpr (Or.inr (Or.inr ⟨t, mem_allTables_flush.mpr (Or.inr rfl),
            (hent _).mpr ⟨x, hx, rfl⟩⟩)), by simp, by simp⟩
        · exact ⟨x, mem_layers.mpr (Or.inr (Or.inr ⟨u, mem_allTables_flush.mpr (Or.inl hu), hx⟩)), rfl, rfl⟩
    have hord := h.ordered.flush hwf hent
    refine ⟨h.of_changes hc hord (hord.distinct hmem (fun x hx => nomatch hx) fun u hu => ?_) rfl rfl, hc⟩
    rcases mem_allTables_flush.mp hu with hu | rfl
    · exact htab u hu
    · exact himm.image (f := Entry.stored) (fun x => by simp) fun y hy => (hent y).mp hy

theorem Tidy.move {source target : Nat} {picked : List Table} (hm : Movable e source target picked) :
    Tidy cfg (e.moveTables cfg source target picked) ∧
      Changes [] e (e.moveTables cfg source target picked) := by
  have hc : Changes [] e (e.moveTables cfg source target picked) := by
    refine ⟨le_refl _, ?_, ?_⟩
    · intro y hy
      right
      rcases (Traced.mem_layers_move h.ordered hm).mp hy with hy | hy
      · obtain ⟨x, hx, rfl⟩ := Traced.mem_written_entries h.ordered hm hy
        exact ⟨x, (Traced.mem_layers_inputs hm).mpr (Or.inl hx), by simp, by simp, Entry.agrees_compacted _ x⟩
      · exact ⟨y, (Traced.mem_layers_inputs hm).mpr (Or.inr hy), rfl, rfl, .refl _ _⟩
    · intro x hx _ hlast
      rcases (Traced.mem_layers_inputs hm).mp hx with hin | hrest
      · have hv : Visible Entry.key Entry.version e.oracle.minReadTs
            ((e.inputs target picked).map Table.entries).flatten x := by
          intro g hg hk hlt
          have := hlast g ((Traced.mem_layers_inputs hm).mpr (Or.inl hg)) hk
          omega
        rcases Traced.input_visible h.ordered hm h.short hin hv with
          ⟨t, ht, y, hy, hk, hver⟩ | ⟨⟨z, hz, hzk, hzv, hdead⟩, hb, hno⟩
        · refine Or.inl ⟨y, (Traced.mem_layers_move h.ordered hm).mpr (Or.inl ?_), hk, hver⟩
          exact List.mem_flatten.mpr ⟨_, List.mem_map_of_mem ht, hy⟩
        · refine Or.inr ⟨?_, ?_⟩
          · rw [h.distinct z ((Traced.mem_layers_inputs hm).mpr (Or.inl hz)) x hx hzk hzv] at hdead
            exact hdead
          · intro y hy hk
            rcases (Traced.mem_layers_move h.ordered hm).mp hy with hy | hy
            · obtain ⟨l, hl, hyl⟩ := List.mem_flatten.mp hy
              obtain ⟨t, ht, rfl⟩ := List.mem_map.mp hl
              exact hno t ht y hyl hk
            · -- what is left alone would be newer than the newest
              obtain ⟨u, hu, hxu⟩ := mem_iters.mp hin
              have hlt := Traced.untouched_newer h.ordered hm hb hu y hy x hxu hk
              have := hlast y ((Traced.mem_layers_inputs hm).mpr (Or.inr hy)) hk
              omega
      · exact Or.inl ⟨x, (Traced.mem_layers_move h.ordered hm).mpr (Or.inr hrest), rfl, rfl⟩
  have hord := h.ordered.move hm
  obtain ⟨hmem, himm, htab⟩ := h.distinct_parts
  refine ⟨h.of_changes hc hord (hord.distinct hmem himm fun t ht => ?_) rfl rfl, hc⟩
  rcases (mem_allTables_move hm h.ordered).mp ht with ⟨ht, _⟩ | ht
  · exact htab t ht
  · refine h.distinct.image (f := fun x => (x.compacted e.now).stored) (fun x => by simp) fun y hy => ?_
    obtain ⟨u, hu, x, hx, rfl⟩ := hm.written_entry h.ordered ht hy
    exact ⟨x, mem_layers.mpr (Or.inr (Or.inr ⟨u, hm.input_table hu, hx⟩)), rfl⟩

theorem Tidy.compact (hok : Traced.StepOk cfg ⟨e, []⟩ .compact) :
    Tidy cfg (e.compact cfg) ∧ Changes [] e (e.compact cfg) := by
  rcases @compact_cases cfg e with heq | ⟨hplan, heq⟩ | ⟨lvl, pick, h1, hlt, hp, heq⟩
  · rw [heq]
    exact ⟨h, .refl e⟩
  · rw [heq]
    exact h.move (movable_level0 (hok hplan))
  · rw [heq]
    exact h.move (movable_table h.ordered h1 hlt hp)

theorem Tidy.op {op : Op} (hok : ActOk cfg e (.op op)) (hs : e.act cfg (.op op) = some e') :
    Tidy cfg e' ∧ ∃ xs, (∀ z ∈ xs, (Act.op op).Touches z.key) ∧ Changes xs e e' := by
  obtain ⟨⟨e₁, log⟩, hstep, rfl⟩ := Option.map_eq_some_iff.mp hs
  have hquiet : ∀ {e' : Engine}, Tidy cfg e' ∧ Changes [] e e' →
      Tidy cfg e' ∧ ∃ xs, (∀ z ∈ xs, (Act.op op).Touches z.key) ∧ Changes xs e e' :=
    fun h => ⟨h.1, [], by simp, h.2⟩
  cases op with
  | put key value expiresAt =>
    cases hstep
    obtain ⟨ht, hc⟩ := h.dispatch (@Traced.putNode_writes key value expiresAt hok.2 _)
    exact ⟨ht, _, by simp [putNode, Act.Touches], hc⟩
  | delete key =>
    cases hstep
    obtain ⟨ht, hc⟩ := h.dispatch (@Traced.deleteNode_writes cfg e key hok.2 _)
    refine ⟨ht, _, fun z hz => ?_, hc⟩
    simp only [deleteNode, Option.mem_toList] at hz
    split at hz
    · cases hz
      rfl
    · cases hz
  | rotate =>
    obtain ⟨e₂, hr, heq⟩ := Option.map_eq_some_iff.mp hstep
    cases heq
    exact hquiet (h.rotate hr)
  | flush =>
    obtain ⟨e₂, hf, heq⟩ := Option.map_eq_some_iff.mp hstep
    cases heq
    exact hquiet (h.executeFlush hf)
  | compact =>
    cases hstep
    exact hquiet (h.compact hok)
  | beginTx =>
    cases hstep
    exact hquiet ⟨h.advance e.now e.nextSeq _ (Nat.le_refl _), .same (le_refl _) fun _ => Iff.rfl⟩
  | rollbackTx readTs =>
    cases hstep
    exact hquiet ⟨h.advance e.now e.nextSeq _ (Nat.le_refl _), .same (le_refl _) fun _ => Iff.rfl⟩
  | tick seconds =>
    cases hstep
    exact hquiet ⟨h.advance _ e.nextSeq _ (Nat.le_refl _), .same (by simp) fun _ => Iff.rfl⟩

end

theorem deepestFrom_spec {levels : LevelTables} {tables : List Table} {ls : List Nat} {start : Nat}
    (hs : (start :: ls).Pairwise (· < ·)) :
    (deepestFrom levels tables ls start = start ∨ deepestFrom levels tables ls start ∈ ls) ∧
      ∀ l ∈ ls, l ≤ deepestFrom levels tables ls start → levelOverlapsAny levels l tables = false := by
  induction ls generalizing start with
  | nil => exact ⟨Or.inl rfl, fun l hl => nomatch hl⟩
  | cons lvl rest ih =>
    obtain ⟨hstart, hrest⟩ := List.pairwise_cons.mp hs
    rw [deepestFrom]
    split
    · refine ⟨Or.inl rfl, fun l hl hle => ?_⟩
      exact absurd (hstart l hl) (Nat.not_lt.mpr hle)
    · rename_i hclear
      obtain ⟨hend, hall⟩ := ih hrest
      refine ⟨Or.inr (List.mem_cons.mpr hend), fun l hl hle => ?_⟩
      rcases List.mem_cons.mp hl with rfl | hl
      · simpa using hclear
      · exact hall l hl hle

section Target

variable {levels : LevelTables} {tables : List Table}

theorem ingestLevel_spec : ingestLevel levels tables < maxLevels ∧
    (0 < ingestLevel levels tables →
      ∀ l ≤ ingestLevel levels tables, levelOverlapsAny levels l tables = false) := by
  unfold ingestLevel
  split
  · exact ⟨by decide, fun h => absurd h (Nat.lt_irrefl 0)⟩
  · rename_i hzero
    obtain ⟨hend, hall⟩ := @deepestFrom_spec levels tables [1, 2, 3, 4] 0 (by decide)
    have hlt : deepestFrom levels tables [1, 2, 3, 4] 0 < maxLevels := by
      rcases hend with h | h
      · rw [h]
        decide
      · generalize deepestFrom levels tables [1, 2, 3, 4] 0 = r at h
        revert r
        decide
    refine ⟨hlt, fun _ l hl => ?_⟩
    rcases Nat.eq_zero_or_pos l with rfl | hpos
    · simpa using hzero
    · refine hall l ?_ hl
      have : l < 5 := Nat.lt_of_le_of_lt hl hlt
      simp only [List.mem_cons, List.not_mem_nil, or_false]
      omega

theorem targetLevel_spec : targetLevel levels tables < maxLevels ∧
    (0 < targetLevel levels tables →
      ∀ l ≤ targetLevel levels tables, levelOverlapsAny levels l tables = false) := by
  unfold targetLevel
  dsimp only
  split
  · exact ⟨by decide, fun h => absurd h (Nat.lt_irrefl 0)⟩
  · exact ingestLevel_spec

end Target

theorem renumber_wf {level : Nat} {ts : List Table} (h : ∀ t ∈ ts, t.WF cfg.xxhash) {seq : Nat} {u : Table}
    (hu : u ∈ renumber level seq ts) : u.WF cfg.xxhash := by
  obtain ⟨t, ht, _, rfl⟩ := mem_renumber hu
  exact ⟨(h t ht).ne_nil, (h t ht).sorted, (h t ht).blocks_ne, (h t ht).apart, (h t ht).admits⟩

theorem exists_renumber {level : Nat} {ts : List Table} {t : Table} (ht : t ∈ ts) (seq : Nat) :
    ∃ n, { t with seq := n, level } ∈ renumber level seq ts := by
  induction ts generalizing seq with
  | nil => cases ht
  | cons t' ts ih =>
    rcases List.mem_cons.mp ht with rfl | ht
    · exact ⟨_, List.mem_cons_self⟩
    · obtain ⟨n, hn⟩ := ih ht (seq + 1)
      exact ⟨n, List.mem_cons_of_mem _ hn⟩

section Install

variable {tables : List Table}

theorem mem_install_layers {y : Entry} : y ∈ (e.install tables).layers.flatten ↔
    (∃ t ∈ tables, y ∈ t.entries) ∨ y ∈ e.layers.flatten := by
  have htables : (∃ u ∈ allTables (e.install tables).levels, y ∈ u.entries) ↔
      (∃ t ∈ tables, y ∈ t.entries) ∨ ∃ t ∈ allTables e.levels, y ∈ t.entries := by
    constructor
    · rintro ⟨u, hu, hy⟩
      obtain ⟨l, hl, hu⟩ := mem_allTables.mp hu
      rcases mem_install.mp hu with hu | ⟨_, hu⟩
      · exact Or.inr ⟨u, mem_allTables.mpr ⟨l, hl, hu⟩, hy⟩
      · obtain ⟨t, ht, _, rfl⟩ := mem_renumber hu
        exact Or.inl ⟨t, ht, hy⟩
    · rintro (⟨t, ht, hy⟩ | ⟨u, hu, hy⟩)
      · obtain ⟨_, hu⟩ := @exists_renumber (targetLevel e.levels tables) tables t ht e.nextSeq
        exact ⟨_, mem_allTables.mpr ⟨_, targetLevel_spec.1, mem_install.mpr (Or.inr ⟨rfl, hu⟩)⟩, hy⟩
      · obtain ⟨l, hl, hu⟩ := mem_allTables.mp hu
        exact ⟨u, mem_allTables.mpr ⟨l, hl, mem_install.mpr (Or.inl hu)⟩, hy⟩
  rw [mem_layers, mem_layers, htables]
  change y ∈ e.mem.nodes ∨ y ∈ e.immNodes ∨ _ ↔ _
  grind

theorem Ordered.install (h : e.Ordered cfg) (hmem : e.mem.nodes = []) (himm : e.immNodes = [])
    (hwf : ∀ t ∈ tables, t.WF cfg.xxhash) (hne : ∀ t ∈ tables, t.NoEmptyKey) (hap : tables.Pairwise KeysApart)
    (habove : ∀ t ∈ tables, ∀ u ∈ allTables e.levels, Newer t.entries u.entries) :
    (e.install tables).Ordered cfg := by
  have hnew : ∀ {u l v}, u ∈ renumber (targetLevel e.levels tables) e.nextSeq tables → l < maxLevels →
      v ∈ e.levels l → Newer u.entries v.entries := by
    intro u l v hu hl hv
    obtain ⟨t, ht, _, rfl⟩ := mem_renumber hu
    exact habove t ht v (mem_allTables.mpr ⟨l, hl, hv⟩)
  have hlevels : LevelsApart e.levels := ⟨fun t ht => (h.wf t ht).sorted, h.apart⟩
  refine ⟨?_, ?_, ?_, ?_, ?_, ?_, (hlevels.install (fun t ht => (hwf t ht).sorted) hne hap).apart⟩
  · intro u hu
    obtain ⟨l, hl, hu⟩ := mem_allTables.mp hu
    rcases mem_install.mp hu with hu | ⟨_, hu⟩
    · exact h.wf u (mem_allTables.mpr ⟨l, hl, hu⟩)
    · exact renumber_wf hwf hu
  · exact h.memImm
  · intro u _ x hx
    change x ∈ e.mem.nodes at hx
    rw [hmem] at hx
    cases hx
  · intro u _ x hx
    change x ∈ e.immNodes at hx
    rw [himm] at hx
    cases hx
  · by_cases h0 : 0 = targetLevel e.levels tables
    · -- they are the last tables of level 0
      have hlevel : (e.install tables).levels 0 = e.levels 0 ++ renumber 0 e.nextSeq tables := by
        simp only [Engine.install, ← h0, setLevel_same, Nat.lt_irrefl, if_false]
      rw [hlevel]
      refine List.pairwise_append.mpr ⟨h.level0, ?_, ?_⟩
      · exact (renumber_apart hap _).imp fun hab => hab.symm.newer
      · intro t ht u hu
        exact hnew (h0 ▸ hu) (by decide) ht
    · rw [install_other h0]
      exact h.level0
  · intro l m hlm hm t ht u hu
    rcases mem_install.mp ht with ht | ⟨hl, ht⟩ <;> rcases mem_install.mp hu with hu | ⟨hmt, hu⟩
    · exact h.across l m hlm hm t ht u hu
    · -- the levels above the target have none of the keys
      obtain ⟨v, hv, _, rfl⟩ := mem_renumber hu
      have hclear := targetLevel_spec.2 (hmt ▸ Nat.zero_lt_of_lt hlm) l (hmt ▸ hlm.le)
      have hsorted := (h.wf t (mem_allTables.mpr ⟨l, hlm.trans hm, ht⟩)).sorted
      have hapart := Table.keysApart_of_not_overlap (hwf v hv).sorted hsorted
        (not_overlap_of_level hclear ht hv (hne v hv))
      exact hapart.symm.newer
    · exact hnew ht hm hu
    · omega

end Install

theorem Adoptable.flushed {staged : List Staged} (h : Adoptable cfg e staged)
    (hcur : e'.mem.currentVersion = e.mem.currentVersion)
    (hold : ∀ y ∈ e'.layers.flatten, ∃ x ∈ e.layers.flatten, y.key = x.key ∧ y.version = x.version) :
    Adoptable cfg e' staged := by
  refine ⟨h.named, h.wf, h.distinct, h.short, h.expiry, ?_, ?_⟩
  · rw [hcur]
    exact h.reached
  · intro s hs x hx y hy hk
    obtain ⟨z, hz, hzk, hzv⟩ := hold y hy
    rw [hzv]
    exact h.above s hs x hx z hz (hzk.symm.trans hk)

theorem Tidy.forceFlush (h : Tidy cfg e) (hf : e.forceFlush cfg false = some e') :
    Tidy cfg e' ∧ (∀ x, Shown e x → Shown e' x) ∧ e'.mem.nodes = [] ∧ e'.immNodes = [] ∧
      ∀ staged, Adoptable cfg e staged → Adoptable cfg e' staged := by
  unfold Engine.forceFlush at hf
  split at hf
  · cases hf
  · rename_i himm
    split at hf
    · rename_i hmem
      cases hf
      exact ⟨h, fun _ hx => hx, hmem, by simp [immNodes, himm], fun _ ha => ha⟩
    · obtain ⟨e₁, hr, hf⟩ := Option.bind_eq_some_iff.mp hf
      have hf : e₁.executeFlush cfg = some e' := hf
      obtain ⟨h₁, hc₁⟩ := h.rotate hr
      obtain ⟨h₂, hc₂⟩ := h₁.executeFlush hf
      have hmem : e'.mem = e₁.mem ∧ e'.imm = none := by
        obtain ⟨m, seq, _, ⟨rfl, _⟩ | ⟨t, _, _, _, rfl⟩⟩ := executeFlush_spec hf <;> exact ⟨rfl, rfl⟩
      have hrot : e₁.mem = SkipList.newSkipList.seedVersion e.mem.currentVersion := by
        unfold Engine.rotate at hr
        split at hr <;> cases hr
        rfl
      refine ⟨h₂, fun x hx => (hx.changes hc₁ (by simp)).changes hc₂ (by simp), ?_, ?_, fun staged ha => ?_⟩
      · rw [hmem.1, hrot]
        rfl
      · simp [immNodes, hmem.2]
      · refine ha.flushed ?_ fun y hy => ?_
        · rw [hmem.1, hrot]
          exact Nat.max_eq_right (Nat.zero_le _)
        · obtain hnil | ⟨z, hz, hzk, hzv, _⟩ := hc₂.sound y hy
          · cases hnil
          · exact ⟨z, (mem_rotate hr).mp hz, hzk, hzv⟩

theorem Tidy.install (h : Tidy cfg e) {staged : List Staged} (ha : Adoptable cfg e staged)
    (hmem : e.mem.nodes = []) (himm : e.immNodes = []) (hi : e.ingestTables staged = .ok e') :
    Tidy cfg e' ∧ ∃ xs : List Entry, (∀ y, y ∈ xs ↔ ∃ s ∈ staged, y ∈ s.table.entries) ∧
      (∀ y, y ∈ e'.layers.flatten ↔ y ∈ xs ∨ y ∈ e.layers.flatten) ∧ e'.now = e.now := by
  obtain ⟨tables, hperm, hkeys, hap, rfl⟩ := ingestTables_ok ha.named hi
  have hstaged : ∀ t ∈ tables, ∃ s ∈ staged, s.table = t := by
    intro t ht
    simpa using hperm.mem_iff.mp ht
  have hwf : ∀ t ∈ tables, t.WF cfg.xxhash := by
    intro t ht
    obtain ⟨s, hs, rfl⟩ := hstaged t ht
    exact ha.wf s hs
  have hord := h.ordered.install hmem himm hwf (fun t ht => (hkeys t ht).2) hap (by
    intro t ht u hu x hx y hy hk
    obtain ⟨s, hs, rfl⟩ := hstaged t ht
    exact ha.above s hs x hx y (mem_layers.mpr (Or.inr (Or.inr ⟨u, hu, hy⟩))) hk.symm)
  have hcases : ∀ y ∈ (e.install tables).layers.flatten,
      (∃ s ∈ staged, y ∈ s.table.entries) ∨ y ∈ e.layers.flatten := by
    intro y hy
    refine (mem_install_layers.mp hy).imp_left ?_
    rintro ⟨t, ht, hy⟩
    obtain ⟨s, hs, rfl⟩ := hstaged t ht
    exact ⟨s, hs, hy⟩
  obtain ⟨hdmem, hdimm, hdtab⟩ := h.distinct_parts
  refine ⟨⟨hord, hord.distinct hdmem hdimm fun u hu => ?_, fun x hx => ?_, fun x hx => ?_, h.counter⟩,
    (tables.map Table.entries).flatten, fun y => ?_, fun y => ?_, rfl⟩
  · obtain ⟨l, hl, hu⟩ := mem_allTables.mp hu
    rcases mem_install.mp hu with hu | ⟨_, hu⟩
    · exact hdtab u (mem_allTables.mpr ⟨l, hl, hu⟩)
    · obtain ⟨t, ht, _, rfl⟩ := mem_renumber hu
      obtain ⟨s, hs, rfl⟩ := hstaged t ht
      exact ha.distinct s hs
  · rcases hcases x hx with ⟨s, hs, hxs⟩ | hx
    · exact ha.short s hs x hxs
    · exact h.short x hx
  · rcases hcases x hx with ⟨s, hs, hxs⟩ | hx
    · exact ha.reached s hs x hxs
    · exact h.below x hx
  · simp only [List.mem_flatten, List.mem_map, exists_exists_and_eq_and]
    constructor
    · rintro ⟨t, ht, hy⟩
      obtain ⟨s, hs, rfl⟩ := hstaged t ht
      exact ⟨s, hs, hy⟩
    · rintro ⟨s, hs, hy⟩
      exact ⟨s.table, hperm.mem_iff.mpr (List.mem_map_of_mem hs), hy⟩
  · rw [mem_install_layers]
    simp only [List.mem_flatten, List.mem_map, exists_exists_and_eq_and]

def Brings (staged : List Staged) (x : Entry) : Prop :=
  (∃ s ∈ staged, x ∈ s.table.entries) ∧
    ∀ s ∈ staged, ∀ y ∈ s.table.entries, y.key = x.key → y.version ≤ x.version

theorem Tidy.ingest (h : Tidy cfg e) {staged : List Staged} (ha : Adoptable cfg e staged)
    (hi : e.ingest cfg false staged = some (.ok e')) :
    Tidy cfg e' ∧ (∀ x, Brings staged x → Shown e' x) ∧
      ∀ x, Shown e x → ¬ (Act.ingest staged).Touches x.key → Shown e' x := by
  unfold Engine.ingest at hi
  split at hi
  · rename_i hempty
    cases hi
    refine ⟨h, fun x hx => ?_, fun x hx _ => hx⟩
    obtain ⟨⟨s, hs, _⟩, _⟩ := hx
    rw [List.isEmpty_iff.mp hempty] at hs
    cases hs
  · obtain ⟨e₁, hf, hi⟩ := Option.map_eq_some_iff.mp hi
    obtain ⟨h₀, hc₀⟩ := h.dispatch (show Traced.Writes (fun _ => none) _ from fun x hx => nomatch hx)
    obtain ⟨h₁, hshown, hmem, himm, hadopt⟩ := h₀.forceFlush hf
    have ha₁ := hadopt staged (ha.flushed rfl fun y hy => ⟨y, hy, rfl, rfl⟩)
    obtain ⟨h₂, xs, hxs, hlayers, hnow⟩ := h₁.install ha₁ hmem himm hi
    refine ⟨h₂, fun x hx => ?_, fun x hx hnot => ?_⟩
    · obtain ⟨⟨s, hs, hxs'⟩, hlast⟩ := hx
      have hin : ∀ y ∈ e'.layers.flatten, y.key = x.key →
          (∃ s ∈ staged, y ∈ s.table.entries) ∨ y.version < x.version := by
        intro y hy hk
        rcases (hlayers y).mp hy with hy | hy
        · exact Or.inl ((hxs y).mp hy)
        · exact Or.inr (ha₁.above s hs x hxs' y hy hk)
      have hmemx : x ∈ e'.layers.flatten := (hlayers x).mpr (Or.inl ((hxs x).mpr ⟨s, hs, hxs'⟩))
      refine ⟨fun y hy hk => ?_, fun y hy hk hv => ?_, Or.inl ⟨x, hmemx, rfl, rfl⟩⟩
      · rcases hin y hy hk with ⟨s', hs', hy'⟩ | hlt
        · exact hlast s' hs' y hy' hk
        · exact hlt.le
      · rw [h₂.distinct y hy x hmemx hk hv]
        exact .refl _ _
    · refine (hshown x (hx.changes hc₀ (by simp))).changes (.of_mem hnow.ge hlayers) fun z hz hk => hnot ?_
      obtain ⟨s, hs, hzs⟩ := (hxs z).mp hz
      exact ⟨s, hs, z, hzs, hk⟩

theorem Tidy.act (h : Tidy cfg e) {a : Act} (hok : ActOk cfg e a) (hs : e.act cfg a = some e') :
    Tidy cfg e' ∧ ∀ x, Shown e x → ¬ a.Touches x.key → Shown e' x := by
  cases a with
  | op op =>
    obtain ⟨ht, xs, hxs, hc⟩ := h.op hok hs
    refine ⟨ht, fun x hx hnot => hx.changes hc fun z hz hk => hnot ?_⟩
    exact hk ▸ hxs z hz
  | ingest staged =>
    obtain ⟨r, hi, hr⟩ := Option.bind_eq_some_iff.mp hs
    cases r with
    | error err => cases hr
    | ok e₁ =>
      cases hr
      obtain ⟨ht, _, hkeep⟩ := h.ingest hok hi
      exact ⟨ht, hkeep⟩

def bulk (version : Nat) : Staged where
  path := "bulk.sst"
  table := ⟨0, 0, [[⟨[97], [7], false, 0, version⟩]], Filter.newFilter (fun _ => 0) [[97]], 0⟩
  sorted := List.pairwise_singleton _ _

theorem bulk_wf (version : Nat) : (bulk version).table.WF eager.xxhash :=
  (@Table.createAtLevel_wf eager.xxhash _ 0 0 0 [⟨[97], [7], false, 0, version⟩] (List.pairwise_singleton _ _)
    (List.cons_ne_nil _ _) rfl).1

def twoPuts : List Act :=
  [.op (.put [97] [0, 1] 0), .op (.put [98] [0, 2] 0), .op .rotate, .op .flush]

theorem twoPuts_guarded : Guarded (act eager) (ActOk eager) (fresh 0) twoPuts := by
  refine guarded_of_forall (fun e a ha => ?_) _
  simp only [twoPuts, List.mem_cons, List.not_mem_nil, or_false] at ha
  rcases ha with rfl | rfl | rfl | rfl
  · exact ⟨by decide, by decide⟩
  · exact ⟨by decide, by decide⟩
  · trivial
  · trivial

theorem bulk_adoptable {version : Nat} (hreach : version ≤ e.mem.currentVersion)
    (habove : ∀ y ∈ e.layers.flatten, y.key = [97] → y.version < version) :
    Adoptable eager e [bulk version] := by
  have hone : ∀ s ∈ [bulk version], s = bulk version := fun s hs => List.mem_singleton.mp hs
  have hentry : ∀ s ∈ [bulk version], ∀ x ∈ s.table.entries, x = ⟨[97], [7], false, 0, version⟩ := by
    intro s hs x hx
    rw [hone s hs] at hx
    exact List.mem_singleton.mp hx
  refine ⟨?_, ?_, ?_, ?_, ?_, ?_, ?_⟩
  · intro s hs x hx
    rw [hentry s hs x hx]
    exact List.cons_ne_nil _ _
  · intro s hs
    rw [hone s hs]
    exact bulk_wf version
  · intro s hs x hx y hy _ _
    rw [hentry s hs x hx, hentry s hs y hy]
  · intro s hs x hx
    rw [hentry s hs x hx]
    exact (by decide : 1 ≤ maxIndexKey)
  · intro s hs x hx
    rw [hentry s hs x hx]
  · intro s hs x hx
    rw [hentry s hs x hx]
    exact hreach
  · intro s hs x hx
    rw [hentry s hs x hx]
    exact habove

theorem bulk_compacted : ∃ e₁ e₂ e₃, run (act eager) (fresh 0) twoPuts = some e₁ ∧
    Adoptable eager e₁ [bulk 3] ∧ e₁.ingest eager false [bulk 3] = some (.ok e₂) ∧
    Guarded (act eager) (ActOk eager) e₂ [.op .compact] ∧ run (act eager) e₂ [.op .compact] = some e₃ ∧
    (∀ t ∈ allTables e₃.levels, t.Aligned [97]) ∧ e₃.levels 0 = [] ∧ e₃.now = 0 := by
  obtain ⟨e₁, h₁⟩ : ∃ e, run (act eager) (fresh 0) twoPuts = some e := ⟨_, rfl⟩
  obtain ⟨e₂, h₂⟩ : ∃ e, e₁.ingest eager false [bulk 3] = some (.ok e) := by
    cases h₁
    exact ⟨_, rfl⟩
  have hadopt : Adoptable eager e₁ [bulk 3] := by
    cases h₁
    exact bulk_adoptable (by decide +kernel) (by decide +kernel)
  have hclear : ∀ l < maxLevels - 1, 1 ≤ l → e₂.levels l = [] := by
    cases h₁
    cases h₂
    decide +kernel
  have hguard : Guarded (act eager) (ActOk eager) e₂ [.op .compact] := by
    refine ⟨fun _ l h1 hl t ht => ?_, fun _ _ => trivial⟩
    have hlt := Nat.lt_of_lt_of_le hl (Nat.le_of_lt_succ (findBaseLevel_bounds e₂.levels).2)
    rw [hclear l hlt h1] at ht
    cases ht
  have hafter : (∀ t ∈ allTables (e₂.compact eager).levels, ∀ b ∈ t.blocks, b.length ≤ restartInterval) ∧
      (e₂.compact eager).levels 0 = [] ∧ (e₂.compact eager).now = 0 := by
    cases h₁
    cases h₂
    decide +kernel
  exact ⟨e₁, e₂, e₂.compact eager, h₁, hadopt, h₂, hguard, rfl,
    fun t ht b hb => aligned_of_length (hafter.1 t ht b hb), hafter.2⟩

theorem bulk_brings (version : Nat) : Brings [bulk version] ⟨[97], [7], false, 0, version⟩ := by
  refine ⟨⟨bulk version, List.mem_singleton.mpr rfl, List.mem_singleton.mpr rfl⟩, fun s hs y hy _ => ?_⟩
  rw [List.mem_singleton.mp hs] at hy
  rw [List.mem_singleton.mp hy]

section Ingested

variable {now : Int} {before after : List Act} {staged : List Staged} {e₁ e₂ e₃ : Engine} {x : Entry}

theorem ingested_shown (hg : Guarded (act cfg) (ActOk cfg) (fresh now) before)
    (hr : run (act cfg) (fresh now) before = some e₁) (ha : Adoptable cfg e₁ staged)
    (hi : e₁.ingest cfg false staged = some (.ok e₂)) (hg' : Guarded (act cfg) (ActOk cfg) e₂ after)
    (hr' : run (act cfg) e₂ after = some e₃) (hx : Brings staged x)
    (hother : ∀ a ∈ after, ¬ a.Touches x.key) : Tidy cfg e₃ ∧ Shown e₃ x := by
  have h₁ : Tidy cfg e₁ := run_invariant (fun h hok hs => (h.act hok hs).1) (tidy_fresh now) hg hr
  obtain ⟨h₂, hshown, _⟩ := h₁.ingest ha hi
  refine @run_invariant _ _ _ (fun e => Tidy cfg e ∧ Shown e x) _ ?_ _ _ _ ⟨h₂, hshown x hx⟩
    (hg'.and_forall hother) hr'
  intro e a e' h hok hs
  obtain ⟨ht, hkeep⟩ := h.1.act hok.1 hs
  exact ⟨ht, hkeep x h.2 hok.2⟩

/-- **Ingested tables are visible**, through every later run that does not write the key. -/
theorem ingested_visible {vl : Vlog.ValueLog} (hg : Guarded (act cfg) (ActOk cfg) (fresh now) before)
    (hr : run (act cfg) (fresh now) before = some e₁) (ha : Adoptable cfg e₁ staged)
    (hi : e₁.ingest cfg false staged = some (.ok e₂)) (hg' : Guarded (act cfg) (ActOk cfg) e₂ after)
    (hr' : run (act cfg) e₂ after = some e₃) (hx : Brings staged x)
    (hother : ∀ a ∈ after, ¬ a.Touches x.key) (hal : ∀ t ∈ allTables e₃.levels, t.Aligned x.key) :
    Shows cfg vl e₃ x := by
  obtain ⟨ht, hshown⟩ := ingested_shown hg hr ha hi hg' hr' hx hother
  obtain ⟨s, hs, hxs⟩ := hx.1
  exact hshown.shows vl ht hal (ha.expiry s hs x hxs)

end Ingested

theorem ingested_visible_compacted : ∃ e₁ e₂ e₃, run (act eager) (fresh 0) twoPuts = some e₁ ∧
    e₁.ingest eager false [bulk 3] = some (.ok e₂) ∧ run (act eager) e₂ [.op .compact] = some e₃ ∧
    e₃.levels 0 = [] ∧ Shows eager noLog e₃ ⟨[97], [7], false, 0, 3⟩ := by
  obtain ⟨e₁, e₂, e₃, h₁, hadopt, h₂, hguard, h₃, hal, h0, _⟩ := bulk_compacted
  exact ⟨e₁, e₂, e₃, h₁, h₂, h₃, h0, ingested_visible twoPuts_guarded h₁ hadopt h₂ hguard h₃ (bulk_brings 3)
    (by simp [Act.Touches]) hal⟩

/-- A version above the counter is hidden from `Get`, and one below that of the write from the scan. -/
theorem ingested_hidden :
    (∃ e, (fresh 0).ingest eager false [bulk 9] = some (.ok e) ∧
      e.getByPrefix eager noLog [97] = [([97], [7])] ∧ e.get eager noLog [97] = .error .keyNotFound ∧
      ¬ Shows eager noLog e ⟨[97], [7], false, 0, 9⟩) ∧
    ∃ e₁ e₂, run (act eager) (fresh 0) twoPuts = some e₁ ∧ e₁.ingest eager false [bulk 0] = some (.ok e₂) ∧
      e₂.get eager noLog [97] = .ok [7] ∧ e₂.getByPrefix eager noLog [97] = [([97], [1])] ∧
      (e₂.compact eager).get eager noLog [97] = .ok [1] ∧ ¬ Shows eager noLog e₂ ⟨[97], [7], false, 0, 0⟩ := by
  refine ⟨⟨_, rfl, by decide +kernel, rfl, fun h => ?_⟩, _, _, rfl, rfl, by decide +kernel, by decide +kernel,
    by decide +kernel, fun h => ?_⟩
  · have hget := h.1
    revert hget
    decide +kernel
  · have hscan := (h.2.2.2 [97] (List.prefix_refl _) [7]).mpr rfl
    revert hscan
    decide +kernel

end Engine
end AkwaDB
