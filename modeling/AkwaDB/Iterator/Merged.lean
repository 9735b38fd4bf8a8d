import AkwaDB.Store.Entry

/-!
# AkwaDB.Iterator.Merged

`MergedIterator`: a heap of iterators, each standing at one of its entries. `Next` takes the iterator in front and
all others that stand at the same key, moves them on, and keeps the entry with the highest version.

Of the heap nothing is used but what `container/heap` promises: the operations lose nothing, and nothing is less
than what stands in front. Iterators may yield the versions of a key in any order, and more of them may come up while
a key is drained.

- `drain_spec`: the inner loop takes exactly the entries of the key.
- `collect_spec`: all that the iterator yields, by induction on its calls.
-/

namespace AkwaDB
namespace Iterator

/-- `next` is `Next` with the entry it comes to, `rest` all to come; they go together where `good` holds. -/
structure Source (σ : Type) where
  next : σ → Option (Entry × σ)
  rest : σ → List Entry
  good : σ → Prop
  spells : ∀ {s}, good s → rest s = match next s with
    | none => []
    | some (e, s') => e :: rest s'
  kept : ∀ {s e s'}, good s → next s = some (e, s') → good s'

/-- `heapItem`: an iterator with the entry it stands at. -/
structure HeapItem (σ : Type) where
  entry : Entry
  iter : σ
  priority : Int

def HeapItem.less {σ : Type} (a b : HeapItem σ) : Bool :=
  decide (a.entry.key < b.entry.key) || (decide (a.entry.key = b.entry.key) &&
    (decide (b.entry.version < a.entry.version) ||
      (decide (a.entry.version = b.entry.version) && decide (b.priority < a.priority))))

/-- What `container/heap` does with the array: `pop` is what is left when the front is taken. -/
structure HeapOps (σ : Type) where
  Ok : List (HeapItem σ) → Prop
  init : List (HeapItem σ) → List (HeapItem σ)
  push : List (HeapItem σ) → HeapItem σ → List (HeapItem σ)
  pop : List (HeapItem σ) → List (HeapItem σ)
  front : ∀ {x l}, Ok (x :: l) → ∀ y ∈ l, y.less x = false
  init_ok : ∀ l, Ok (init l)
  init_perm : ∀ l, (init l).Perm l
  push_ok : ∀ {l}, Ok l → ∀ x, Ok (push l x)
  push_perm : ∀ l x, (push l x).Perm (x :: l)
  pop_ok : ∀ {x l}, Ok (x :: l) → Ok (pop (x :: l))
  pop_perm : ∀ x l, (pop (x :: l)).Perm l

section
variable {σ : Type} (S : Source σ)

def tagged (heap : List (HeapItem σ)) : List (Entry × Int) :=
  heap.flatMap fun it => (it.entry :: S.rest it.iter).map fun e => (e, it.priority)

variable (H : HeapOps σ)

def advance (it : HeapItem σ) (heap : List (HeapItem σ)) : List (HeapItem σ) :=
  match S.next it.iter with
  | none => heap
  | some (e, s) => H.push heap ⟨e, s, it.priority⟩

/-- The loop of `Next` over the items that stand at the current key. -/
def drain : Nat → Entry → List (HeapItem σ) → Entry × List (HeapItem σ)
  | 0, curr, heap => (curr, heap)
  | _ + 1, curr, [] => (curr, [])
  | fuel + 1, curr, peek :: heap =>
    if peek.entry.key ≠ curr.key then (curr, peek :: heap)
    else
      let curr := if curr.version < peek.entry.version then peek.entry else curr
      drain fuel curr (advance S H peek (H.pop (peek :: heap)))

/-- `Next`. No round of the loop is without an entry. -/
def next : List (HeapItem σ) → Option (Entry × List (HeapItem σ))
  | [] => none
  | top :: heap =>
    some (drain S H (tagged S (top :: heap)).length top.entry (advance S H top (H.pop (top :: heap))))

def collect : Nat → List (HeapItem σ) → List Entry
  | 0, _ => []
  | fuel + 1, heap =>
    match next S H heap with
    | none => []
    | some (x, heap') => x :: collect fuel heap'

end

def lists : Source (List Entry) where
  next
    | [] => none
    | e :: rest => some (e, rest)
  rest l := l
  good _ := True
  spells {s} _ := by cases s <;> rfl
  kept _ _ := trivial

def items (sources : List (List Entry × Int)) : List (HeapItem (List Entry)) :=
  sources.filterMap fun s =>
    match s.1 with
    | [] => none
    | e :: rest => some ⟨e, rest, s.2⟩

def merged (H : HeapOps (List Entry)) (sources : List (List Entry × Int)) : List Entry :=
  collect lists H (sources.map fun s => s.1.length).sum (H.init (items sources))

/-! ## Heaps as lists of entries -/

def Ordered {σ : Type} (S : Source σ) (r : Entry → Entry → Prop) (heap : List (HeapItem σ)) : Prop :=
  ∀ it ∈ heap, S.good it.iter ∧ (it.entry :: S.rest it.iter).Pairwise r

section
variable {σ : Type} {S : Source σ} {H : HeapOps σ} {r : Entry → Entry → Prop} {heap heap' : List (HeapItem σ)}
  {it : HeapItem σ}

theorem tagged_perm (h : heap.Perm heap') : (tagged S heap).Perm (tagged S heap') := h.flatMap_right _

theorem Ordered.perm (h : Ordered S r heap) (hp : heap'.Perm heap) : Ordered S r heap' := fun it hit =>
  h it (hp.mem_iff.mp hit)

theorem mem_tagged {t : Entry × Int} :
    t ∈ tagged S heap ↔ ∃ it ∈ heap, t.1 ∈ it.entry :: S.rest it.iter ∧ it.priority = t.2 := by
  obtain ⟨e, p⟩ := t
  simp only [tagged, List.mem_flatMap, List.mem_map, Prod.mk.injEq]
  constructor
  · rintro ⟨it, hit, x, hx, rfl, rfl⟩
    exact ⟨it, hit, hx, rfl⟩
  · rintro ⟨it, hit, hx, rfl⟩
    exact ⟨it, hit, e, hx, rfl, rfl⟩

theorem advance_ok (h : H.Ok heap) : H.Ok (advance S H it heap) := by
  unfold advance
  split
  · exact h
  · exact H.push_ok h _

theorem tagged_advance (heap : List (HeapItem σ)) (hgood : S.good it.iter) :
    (tagged S (it :: heap)).Perm ((it.entry, it.priority) :: tagged S (advance S H it heap)) := by
  have hspells := S.spells hgood
  unfold advance
  cases hnext : S.next it.iter with
  | none =>
    rw [hnext] at hspells
    simp [tagged, hspells]
  | some p =>
    obtain ⟨e, s⟩ := p
    rw [hnext] at hspells
    have hpush := tagged_perm (S := S) (H.push_perm heap ⟨e, s, it.priority⟩)
    refine List.Perm.trans (List.Perm.of_eq ?_) (hpush.symm.cons _)
    simp [tagged, hspells]

def Closed (S : Source σ) (Q : HeapItem σ → Prop) : Prop :=
  ∀ it e s, Q it → S.next it.iter = some (e, s) → Q ⟨e, s, it.priority⟩

section
variable {Q : HeapItem σ → Prop}

theorem Closed.advance (hQ : Closed S Q) (hit : Q it) (h : ∀ x ∈ heap, Q x) : ∀ x ∈ advance S H it heap, Q x := by
  unfold Iterator.advance
  cases hnext : S.next it.iter with
  | none => exact h
  | some p =>
    intro x hx
    rcases List.mem_cons.mp ((H.push_perm heap _).mem_iff.mp hx) with rfl | hx
    · exact hQ it p.1 p.2 hit hnext
    · exact h x hx

theorem Closed.take (hQ : Closed S Q) {x : HeapItem σ} (h : ∀ y ∈ x :: heap, Q y) :
    ∀ y ∈ Iterator.advance S H x (H.pop (x :: heap)), Q y :=
  hQ.advance (h x List.mem_cons_self) fun y hy => h y (List.mem_cons_of_mem _ ((H.pop_perm x heap).mem_iff.mp hy))

theorem Closed.drain (hQ : Closed S Q) (fuel : Nat) (curr : Entry) (h : ∀ x ∈ heap, Q x) :
    ∀ x ∈ (drain S H fuel curr heap).2, Q x := by
  induction fuel generalizing curr heap with
  | zero => exact h
  | succ fuel ih =>
    cases heap with
    | nil => exact h
    | cons peek heap =>
      rw [Iterator.drain]
      split
      · exact h
      · exact ih _ (hQ.take h)

theorem Closed.next (hQ : Closed S Q) {x : Entry} (hnext : next S H heap = some (x, heap')) (h : ∀ y ∈ heap, Q y) :
    ∀ y ∈ heap', Q y := by
  cases heap with
  | nil => cases hnext
  | cons top heap =>
    have hrun := hQ.drain (H := H) (tagged S (top :: heap)).length top.entry (hQ.take (H := H) h)
    rwa [Option.some.inj hnext] at hrun

end

theorem closed_ordered (S : Source σ) {r : Entry → Entry → Prop} :
    Closed S fun it => S.good it.iter ∧ (it.entry :: S.rest it.iter).Pairwise r := by
  rintro it e s ⟨hgood, hit⟩ hnext
  have hspells := S.spells hgood
  rw [hnext] at hspells
  rw [hspells] at hit
  exact ⟨S.kept hgood hnext, (List.pairwise_cons.mp hit).2⟩

theorem take_front {x : HeapItem σ} (hok : H.Ok (x :: heap)) (hord : Ordered S r (x :: heap)) :
    H.Ok (advance S H x (H.pop (x :: heap))) ∧ Ordered S r (advance S H x (H.pop (x :: heap))) ∧
      (tagged S (x :: heap)).Perm ((x.entry, x.priority) :: tagged S (advance S H x (H.pop (x :: heap)))) := by
  have hperm : (x :: H.pop (x :: heap)).Perm (x :: heap) := (H.pop_perm x heap).cons x
  refine ⟨advance_ok (H.pop_ok hok), (closed_ordered S).take hord, ?_⟩
  exact (tagged_perm hperm).symm.trans (tagged_advance _ (hord x List.mem_cons_self).1)

theorem less_eq_false {a b : HeapItem σ} : a.less b = false ↔ b.entry.key ≤ a.entry.key ∧
    (a.entry.key = b.entry.key → a.entry.version ≤ b.entry.version ∧
      (a.entry.version = b.entry.version → a.priority ≤ b.priority)) := by
  simp only [HeapItem.less, Bool.or_eq_false_iff, decide_eq_false_iff_not, not_lt, Bool.and_eq_false_imp,
    decide_eq_true_eq]

theorem front_le {x : HeapItem σ} (hok : H.Ok (x :: heap)) (hkeys : Ordered S (fun a b => a.key ≤ b.key) (x :: heap))
    {t : Entry × Int} (ht : t ∈ tagged S (x :: heap)) : x.entry.key ≤ t.1.key := by
  obtain ⟨it, hit, hmem, -⟩ := mem_tagged.mp ht
  have hhead : x.entry.key ≤ it.entry.key := by
    rcases List.mem_cons.mp hit with rfl | hit
    · exact le_rfl
    · exact (less_eq_false.mp (H.front hok it hit)).1
  rcases List.mem_cons.mp hmem with heq | hmem
  · rw [heq]
    exact hhead
  · exact hhead.trans ((List.pairwise_cons.mp (hkeys it hit).2).1 _ hmem)

/-- **The inner loop** takes the entries of the key and no others, and keeps one with the highest version. -/
theorem drain_spec (fuel : Nat) (curr : Entry) (hok : H.Ok heap)
    (hkeys : Ordered S (fun a b => a.key ≤ b.key) heap) (hfuel : (tagged S heap).length ≤ fuel)
    (hge : ∀ t ∈ tagged S heap, curr.key ≤ t.1.key) :
    H.Ok (drain S H fuel curr heap).2 ∧
      (∀ t ∈ tagged S (drain S H fuel curr heap).2, curr.key < t.1.key) ∧
      (drain S H fuel curr heap).1.key = curr.key ∧ curr.version ≤ (drain S H fuel curr heap).1.version ∧
      ∃ taken : List (Entry × Int), (tagged S heap).Perm (taken ++ tagged S (drain S H fuel curr heap).2) ∧
        (∀ t ∈ taken, t.1.key = curr.key ∧ t.1.version ≤ (drain S H fuel curr heap).1.version) ∧
        ((drain S H fuel curr heap).1 = curr ∨ ∃ p, ((drain S H fuel curr heap).1, p) ∈ taken) ∧
        ((∀ t ∈ taken, t.1.version ≤ curr.version) → (drain S H fuel curr heap).1 = curr) := by
  induction fuel generalizing curr heap with
  | zero =>
    have hnil : tagged S heap = [] := List.length_eq_zero_iff.mp (Nat.le_zero.mp hfuel)
    refine ⟨hok, fun t ht => ?_, rfl, le_rfl, [], List.Perm.refl _, by simp, Or.inl rfl, fun _ => rfl⟩
    rw [drain, hnil] at ht
    cases ht
  | succ fuel ih =>
    cases heap with
    | nil =>
      exact ⟨hok, fun t ht => absurd ht List.not_mem_nil, rfl, le_rfl, [], List.Perm.refl _, by simp,
        Or.inl rfl, fun _ => rfl⟩
    | cons peek heap =>
      rw [drain]
      by_cases hkey : peek.entry.key = curr.key
      · rw [if_neg (not_not.mpr hkey)]
        dsimp only
        obtain ⟨hok', hkeys', hperm⟩ := take_front hok hkeys
        have hlen := hperm.length_eq
        rw [List.length_cons] at hlen
        generalize hcurr : (if curr.version < peek.entry.version then peek.entry else curr) = curr'
        have hcurr' : curr'.key = curr.key ∧ curr.version ≤ curr'.version ∧ peek.entry.version ≤ curr'.version ∧
            (curr' = curr ∨ curr' = peek.entry) ∧ (peek.entry.version ≤ curr.version → curr' = curr) := by
          rw [← hcurr]
          split
          · exact ⟨hkey, by omega, le_rfl, Or.inr rfl, fun _ => by omega⟩
          · exact ⟨rfl, le_rfl, by omega, Or.inl rfl, fun _ => rfl⟩
        obtain ⟨hck, hcv, hpv, hor, hsame⟩ := hcurr'
        obtain ⟨h1, h4, h5, h6, taken, h7, h8, h9, h10⟩ := ih curr' hok' hkeys' (by omega)
          fun t ht => hck ▸ hge t (hperm.mem_iff.mpr (List.mem_cons_of_mem _ ht))
        rw [hck] at h4 h5
        refine ⟨h1, h4, h5, hcv.trans h6, (peek.entry, peek.priority) :: taken, hperm.trans (h7.cons _), ?_, ?_, ?_⟩
        · intro t ht
          rcases List.mem_cons.mp ht with rfl | ht
          · exact ⟨hkey, hpv.trans h6⟩
          · exact ⟨(h8 t ht).1.trans hck, (h8 t ht).2⟩
        · rcases h9 with h9 | ⟨p, hp⟩
          · rw [h9]
            exact hor.imp_right fun heq : curr' = peek.entry => ⟨peek.priority, heq ▸ List.mem_cons_self⟩
          · exact Or.inr ⟨p, List.mem_cons_of_mem _ hp⟩
        · intro hle
          have heq : curr' = curr := hsame (hle _ List.mem_cons_self)
          rw [h10 fun t ht => heq ▸ hle t (List.mem_cons_of_mem _ ht), heq]
      · rw [if_pos hkey]
        refine ⟨hok, fun t ht => ?_, rfl, le_rfl, [], List.Perm.refl _, by simp, Or.inl rfl, fun _ => rfl⟩
        have hpeek : curr.key ≤ peek.entry.key := hge (peek.entry, peek.priority) (by simp [tagged])
        exact (lt_of_le_of_ne hpeek (Ne.symm hkey)).trans_le (front_le hok hkeys ht)

theorem next_spec {x : Entry} (hok : H.Ok heap) (hkeys : Ordered S (fun a b => a.key ≤ b.key) heap)
    (h : next S H heap = some (x, heap')) :
    H.Ok heap' ∧ (∀ t ∈ tagged S heap', x.key < t.1.key) ∧ (∃ p, (x, p) ∈ tagged S heap) ∧
      ∃ taken : List (Entry × Int), taken ≠ [] ∧ (tagged S heap).Perm (taken ++ tagged S heap') ∧
        ∀ t ∈ taken, t.1.key = x.key ∧ t.1.version ≤ x.version := by
  cases heap with
  | nil => cases h
  | cons top heap =>
    have hrun := Option.some.inj h
    obtain ⟨hok', hkeys', hperm⟩ := take_front hok hkeys
    have hlen := hperm.length_eq
    rw [List.length_cons] at hlen
    obtain ⟨h1, h4, h5, h6, taken, h7, h8, h9, -⟩ := drain_spec (tagged S (top :: heap)).length top.entry
      hok' hkeys' (by omega) fun t ht => front_le hok hkeys (hperm.mem_iff.mpr (List.mem_cons_of_mem _ ht))
    rw [hrun] at h1 h4 h5 h6 h7 h8 h9
    have hall := hperm.trans (h7.cons _)
    refine ⟨h1, fun t ht => h5 ▸ h4 t ht, ?_, (top.entry, top.priority) :: taken, by simp, hall, ?_⟩
    · rcases h9 with heq | ⟨p, hp⟩
      · exact ⟨top.priority, hall.mem_iff.mpr (heq ▸ List.mem_cons_self)⟩
      · exact ⟨p, hall.mem_iff.mpr (List.mem_cons_of_mem _ (List.mem_append_left _ hp))⟩
    · intro t ht
      rcases List.mem_cons.mp ht with rfl | ht
      · exact ⟨h5.symm, h6⟩
      · exact ⟨(h8 t ht).1.trans h5.symm, (h8 t ht).2⟩

def Descending (a b : Entry) : Prop := a.key ≤ b.key ∧ (a.key = b.key → b.version ≤ a.version)

theorem next_tie {x : Entry} (hok : H.Ok heap) (hord : Ordered S Descending heap)
    (h : next S H heap = some (x, heap')) :
    ∃ p, (x, p) ∈ tagged S heap ∧
      ∀ t ∈ tagged S heap, t.1.key = x.key → t.1.version = x.version → t.2 ≤ p := by
  cases heap with
  | nil => cases h
  | cons top heap =>
    have hkeys : Ordered S (fun a b => a.key ≤ b.key) (top :: heap) := fun it hit =>
      (hord it hit).imp_right fun hpair => hpair.imp And.left
    -- the front is compared with the first entry of each iterator
    have hfirst : ∀ t ∈ tagged S (top :: heap), t.1.key = top.entry.key → t.1.version ≤ top.entry.version ∧
        (t.1.version = top.entry.version → t.2 ≤ top.priority) := by
      intro t ht hkey
      obtain ⟨it, hit, hmem, hp⟩ := mem_tagged.mp ht
      have hhead : it.entry.key ≤ t.1.key ∧ (it.entry.key = t.1.key → t.1.version ≤ it.entry.version) := by
        rcases List.mem_cons.mp hmem with heq | hmem
        · rw [heq]
          exact ⟨le_rfl, fun _ => le_rfl⟩
        · exact (List.pairwise_cons.mp (hord it hit).2).1 _ hmem
      have hit' : it.entry.key = top.entry.key :=
        le_antisymm (hkey ▸ hhead.1) (front_le (t := (it.entry, it.priority)) hok hkeys
          (mem_tagged.mpr ⟨it, hit, List.mem_cons_self, rfl⟩))
      have hver := hhead.2 (hit'.trans hkey.symm)
      rcases List.mem_cons.mp hit with rfl | hit
      · exact ⟨hver, fun _ => hp.ge⟩
      · obtain ⟨hle, hprio⟩ := (less_eq_false.mp (H.front hok it hit)).2 hit'
        exact ⟨hver.trans hle, fun heq => hp ▸ hprio (le_antisymm hle (heq ▸ hver))⟩
    have hrun := Option.some.inj h
    obtain ⟨hok', hkeys', hperm⟩ := take_front hok hkeys
    have hlen := hperm.length_eq
    rw [List.length_cons] at hlen
    obtain ⟨-, -, -, -, taken, h7, h8, -, h10⟩ := drain_spec (tagged S (top :: heap)).length top.entry
      hok' hkeys' (by omega) fun t ht => front_le hok hkeys (hperm.mem_iff.mpr (List.mem_cons_of_mem _ ht))
    have htop : x = top.entry := by
      have := h10 fun t ht => (hfirst t (hperm.mem_iff.mpr (List.mem_cons_of_mem _
        (h7.mem_iff.mpr (List.mem_append_left _ ht)))) (h8 t ht).1).1
      rwa [hrun] at this
    rw [htop]
    exact ⟨top.priority, hperm.mem_iff.mpr List.mem_cons_self, fun t ht hkey => (hfirst t ht hkey).2⟩

/-- Each key once and in order, with an entry of the highest version. -/
structure Yields (entries : List (Entry × Int)) (out : List Entry) : Prop where
  sorted : out.Pairwise fun a b => a.key < b.key
  complete : ∀ t ∈ entries, ∃ x ∈ out, x.key = t.1.key
  given : ∀ x ∈ out, ∃ p, (x, p) ∈ entries
  newest : ∀ x ∈ out, ∀ t ∈ entries, t.1.key = x.key → t.1.version ≤ x.version

def ByPriority (entries : List (Entry × Int)) (out : List Entry) : Prop :=
  ∀ x ∈ out, ∃ p, (x, p) ∈ entries ∧ ∀ t ∈ entries, t.1.key = x.key → t.1.version = x.version → t.2 ≤ p

theorem collect_spec {fuel : Nat} (hok : H.Ok heap) (hkeys : Ordered S (fun a b => a.key ≤ b.key) heap)
    (hfuel : (tagged S heap).length ≤ fuel) :
    Yields (tagged S heap) (collect S H fuel heap) ∧
      (Ordered S Descending heap → ByPriority (tagged S heap) (collect S H fuel heap)) := by
  induction fuel generalizing heap with
  | zero =>
    have hnil : tagged S heap = [] := List.length_eq_zero_iff.mp (Nat.le_zero.mp hfuel)
    rw [hnil]
    exact ⟨⟨List.Pairwise.nil, by simp, by simp [collect], by simp [collect]⟩, fun _ x hx => absurd hx List.not_mem_nil⟩
  | succ fuel ih =>
    rw [collect]
    cases hnext : next S H heap with
    | none =>
      have hnil : heap = [] := by
        cases heap with
        | nil => rfl
        | cons top heap => cases hnext
      rw [hnil]
      exact ⟨⟨List.Pairwise.nil, by simp [tagged], by simp, by simp⟩, fun _ x hx => absurd hx List.not_mem_nil⟩
    | some res =>
      obtain ⟨x, heap'⟩ := res
      obtain ⟨hok', hlt, hgiven, taken, hne, hperm, htaken⟩ := next_spec hok hkeys hnext
      have hkeys' : Ordered S (fun a b => a.key ≤ b.key) heap' := (closed_ordered S).next hnext hkeys
      have hlen := hperm.length_eq
      rw [List.length_append] at hlen
      have hpos := List.length_pos_iff.mpr hne
      obtain ⟨hrest, hprio⟩ := ih hok' hkeys' (by omega)
      have hlater : ∀ y ∈ collect S H fuel heap', x.key < y.key := fun y hy => by
        obtain ⟨p, hp⟩ := hrest.given y hy
        exact hlt _ hp
      have hkept : ∀ t ∈ tagged S heap', t ∈ tagged S heap := fun t ht => hperm.mem_iff.mpr (List.mem_append_right _ ht)
      -- an entry is taken now, or is there for the calls that follow
      have hcases : ∀ t ∈ tagged S heap, t ∈ taken ∨ t ∈ tagged S heap' := fun t ht =>
        List.mem_append.mp (hperm.mem_iff.mp ht)
      refine ⟨⟨List.pairwise_cons.mpr ⟨hlater, hrest.sorted⟩, ?_, ?_, ?_⟩, fun hdesc y hy => ?_⟩
      · intro t ht
        rcases hcases t ht with ht | ht
        · exact ⟨x, List.mem_cons_self, (htaken t ht).1.symm⟩
        · obtain ⟨y, hy, hkey⟩ := hrest.complete t ht
          exact ⟨y, List.mem_cons_of_mem _ hy, hkey⟩
      · intro y hy
        rcases List.mem_cons.mp hy with rfl | hy
        · exact hgiven
        · obtain ⟨p, hp⟩ := hrest.given y hy
          exact ⟨p, hkept _ hp⟩
      · intro y hy t ht hkey
        rcases List.mem_cons.mp hy with rfl | hy
        · rcases hcases t ht with ht | ht
          · exact (htaken t ht).2
          · exact absurd hkey (hlt t ht).ne'
        · rcases hcases t ht with ht | ht
          · exact absurd ((htaken t ht).1.symm.trans hkey) (hlater y hy).ne
          · exact hrest.newest y hy t ht hkey
      · rcases List.mem_cons.mp hy with rfl | hy
        · exact next_tie hok hdesc hnext
        · obtain ⟨p, hp, hmax⟩ := hprio ((closed_ordered S).next hnext hdesc) y hy
          refine ⟨p, hkept _ hp, fun t ht hkey hver => ?_⟩
          rcases hcases t ht with ht | ht
          · exact absurd ((htaken t ht).1.symm.trans hkey) (hlater y hy).ne
          · exact hmax t ht hkey hver

end

def allEntries (sources : List (List Entry × Int)) : List (Entry × Int) :=
  sources.flatMap fun s => s.1.map fun e => (e, s.2)

theorem tagged_items (sources : List (List Entry × Int)) : tagged lists (items sources) = allEntries sources := by
  induction sources with
  | nil => rfl
  | cons s sources ih =>
    obtain ⟨l, p⟩ := s
    cases l with
    | nil => simpa [items, allEntries] using ih
    | cons e rest => simpa [items, allEntries, tagged, lists] using ih

theorem ordered_items {r : Entry → Entry → Prop} {sources : List (List Entry × Int)}
    (h : ∀ s ∈ sources, s.1.Pairwise r) : Ordered lists r (items sources) := by
  intro it hit
  obtain ⟨s, hs, hitem⟩ := List.mem_filterMap.mp hit
  have hpair := h s hs
  split at hitem
  · cases hitem
  · rename_i e rest heq
    cases hitem
    rw [heq] at hpair
    exact ⟨trivial, hpair⟩

/-- **The merge iterator yields the newest version of each key**, whatever the heap does in its contract. -/
theorem merged_newest (H : HeapOps (List Entry)) {sources : List (List Entry × Int)}
    (hsorted : ∀ s ∈ sources, s.1.Pairwise fun a b => a.key ≤ b.key) :
    Yields (allEntries sources) (merged H sources) ∧
      ((∀ s ∈ sources, s.1.Pairwise Descending) → ByPriority (allEntries sources) (merged H sources)) := by
  have hperm : (tagged lists (H.init (items sources))).Perm (allEntries sources) := by
    rw [← tagged_items]
    exact tagged_perm (H.init_perm _)
  have hlen : (tagged lists (H.init (items sources))).length ≤ (sources.map fun s => s.1.length).sum := by
    rw [hperm.length_eq, allEntries, List.length_flatMap]
    simp
  obtain ⟨hyields, hprio⟩ := collect_spec (H.init_ok _) ((ordered_items hsorted).perm (H.init_perm _)) hlen
  refine ⟨⟨hyields.sorted, fun t ht => hyields.complete t (hperm.mem_iff.mpr ht), fun x hx => ?_,
    fun x hx t ht => hyields.newest x hx t (hperm.mem_iff.mpr ht)⟩, fun hdesc x hx => ?_⟩
  · obtain ⟨p, hp⟩ := hyields.given x hx
    exact ⟨p, hperm.mem_iff.mp hp⟩
  · obtain ⟨p, hp, hmax⟩ := hprio ((ordered_items hdesc).perm (H.init_perm _)) x hx
    exact ⟨p, hperm.mem_iff.mp hp, fun t ht => hmax t (hperm.mem_iff.mpr ht)⟩

def HeapItem.notAfter {σ : Type} (a b : HeapItem σ) : Prop := b.less a = false

instance {σ : Type} : DecidableRel (HeapItem.notAfter (σ := σ)) := fun a b =>
  inferInstanceAs (Decidable (b.less a = false))

instance notAfter_total {σ : Type} : Std.Total (HeapItem.notAfter (σ := σ)) := ⟨fun a b => by
  unfold HeapItem.notAfter
  rw [less_eq_false, less_eq_false]
  rcases lt_trichotomy a.entry.key b.entry.key with h | h | h
  · exact Or.inl ⟨h.le, fun heq => absurd heq h.ne'⟩
  · rcases Nat.lt_trichotomy a.entry.version b.entry.version with hv | hv | hv
    · exact Or.inr ⟨h.ge, fun _ => ⟨hv.le, fun heq => absurd heq hv.ne⟩⟩
    · rcases le_total a.priority b.priority with hp | hp
      · exact Or.inr ⟨h.ge, fun _ => ⟨hv.le, fun _ => hp⟩⟩
      · exact Or.inl ⟨h.le, fun _ => ⟨hv.ge, fun _ => hp⟩⟩
    · exact Or.inl ⟨h.le, fun _ => ⟨hv.le, fun heq => absurd heq hv.ne⟩⟩
  · exact Or.inr ⟨h.le, fun heq => absurd heq h.ne'⟩⟩

instance notAfter_trans {σ : Type} : IsTrans (HeapItem σ) HeapItem.notAfter := ⟨fun a b c hab hbc => by
  unfold HeapItem.notAfter at *
  rw [less_eq_false] at *
  refine ⟨hab.1.trans hbc.1, fun heq => ?_⟩
  have hab' : a.entry.key = b.entry.key := le_antisymm hab.1 (heq ▸ hbc.1)
  have h1 := hab.2 hab'.symm
  have h2 := hbc.2 (heq.trans hab')
  omega⟩

def sortedArray (σ : Type) : HeapOps σ where
  Ok l := l.Pairwise HeapItem.notAfter
  init l := l.insertionSort HeapItem.notAfter
  push l x := l.orderedInsert HeapItem.notAfter x
  pop := List.tail
  front h := (List.pairwise_cons.mp h).1
  init_ok l := List.pairwise_insertionSort _ l
  init_perm l := List.perm_insertionSort _ l
  push_ok h x := List.Pairwise.orderedInsert x _ h
  push_perm l x := List.perm_orderedInsert _ x l
  pop_ok h := (List.pairwise_cons.mp h).2
  pop_perm _ _ := List.Perm.refl _

theorem merged_newest_two :
    let old : Entry := ⟨[107], [49], false, 0, 3⟩
    let new : Entry := ⟨[107], [50], false, 0, 5⟩
    Yields [(old, 1000), (new, 900)] (merged (sortedArray _) [([old], 1000), ([new], 900)]) :=
  (@merged_newest (sortedArray _) [([⟨[107], [49], false, 0, 3⟩], 1000), ([⟨[107], [50], false, 0, 5⟩], 900)]
    (by simp)).1

end Iterator
end AkwaDB
