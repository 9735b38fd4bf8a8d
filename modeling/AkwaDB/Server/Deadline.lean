import Mathlib.Data.Rat.Floor
import AkwaDB.Server.Query

/-!
# AkwaDB.Server.Deadline

Strings that are set with an expiry, and what `GET` and `TTL` make of it later.

The expiry is kept in whole seconds as an `int64`, and anything up to zero counts as none. `GET` lets a value
expire when a positive expiry has been reached. `TTL` subtracts the clock, again in 64 bits, and when it finds
nothing left of the string it goes on to the collections under the same key.

- `Exact`: the string lives up to a deadline, and `TTL` says so.
- `exact_iff`: for which stored expiries this holds.
- `set_expiry_exact_iff`: the options of `SET`, and `SETEX`.
-/

namespace AkwaDB
namespace Server

open Client (strKey collectionPrefixes)

/-- The engine at a time, of which its clock has the whole seconds. -/
def Node.at (n : Node) (t : ℚ) : Node := { n with now := ⌊t⌋ }

@[simp] theorem Node.now_at (n : Node) (t : ℚ) : (n.at t).now = ⌊t⌋ := rfl

@[simp] theorem Node.db_at (n : Node) (t : ℚ) : (n.at t).db = n.db := rfl

def Node.collectionTTL (n : Node) (key : Bytes) : Int64 :=
  match n.eval (collectionKeys key) with
  | part :: _ => remaining n.now (n.db.live n.now part)
  | [] => -2

theorem remaining_cases (now : Int) (i : Option Item) :
    remaining now i = -2 ∨ remaining now i = -1 ∨ 0 < remaining now i := by
  unfold remaining
  split
  · exact .inl rfl
  · split
    · exact .inr (.inl rfl)
    · dsimp only
      split
      · exact .inl rfl
      · rename_i h
        exact .inr (.inr (Int64.not_le.mp h))

theorem collectionTTL_cases (n : Node) (key : Bytes) :
    n.collectionTTL key = -2 ∨ n.collectionTTL key = -1 ∨ 0 < n.collectionTTL key := by
  unfold Node.collectionTTL
  split
  · exact remaining_cases _ _
  · exact .inl rfl

theorem answer_ttl (rt : Runtime) (formatFloat : Score → Bytes) (n : Node) (key : Bytes) (rest : List Bytes) :
    answer rt formatFloat n .ttl (key :: rest) =
      .int (if remaining n.now (n.db.live n.now (strKey key)) = -2 then n.collectionTTL key
        else remaining n.now (n.db.live n.now (strKey key))) := by
  show (StateT.run (cmdTTL (key :: rest)) n).1 = _
  rw [cmdTTL_run, Node.collectionTTL]
  cases n.eval (collectionKeys key) with
  | nil =>
    dsimp only
    congr 1
    split
    · assumption
    · rfl
  | cons part parts => rfl

theorem answer_get (rt : Runtime) (formatFloat : Score → Bytes) (n : Node) (key : Bytes) :
    answer rt formatFloat n .get [key] = .ofValue (n.read (strKey key)) := rfl

/-! ## A string with an expiry -/

/-- **The string lives up to the deadline**, and `TTL` tells when it is gone. -/
structure Exact (rt : Runtime) (formatFloat : Score → Bytes) (n : Node) (key val : Bytes) (deadline : ℚ) : Prop where
  get : ∀ t : ℚ, n.now ≤ t → (answer rt formatFloat (n.at t) .get [key] = .bulk val ↔ t < deadline)
  ttl : ∀ t : ℚ, n.now ≤ t → (answer rt formatFloat (n.at t) .ttl [key] = .int (-2) ↔
    answer rt formatFloat (n.at t) .get [key] = .null)
  bounded : ∀ t : ℚ, n.now ≤ t → answer rt formatFloat (n.at t) .ttl [key] ≠ .int (-1)

/-- The stored expiry does what the deadline asks for. -/
structure Timely (n : Node) (key : Bytes) (expiresAt : Int64) (deadline : ℚ) : Prop where
  positive : 0 < expiresAt.toInt
  /-- From now on the two are passed at the same time. -/
  sharp : max (expiresAt.toInt : ℚ) n.now = max deadline n.now
  /-- What is left fits into 64 bits. -/
  before : ∀ t : ℚ, n.now ≤ t → t < expiresAt.toInt →
    0 < Int64.ofInt (expiresAt.toInt - ⌊t⌋) ∨ 0 < (n.at t).collectionTTL key
  /-- There is no collection under the key. -/
  after : ∀ t : ℚ, n.now ≤ t → (expiresAt.toInt : ℚ) ≤ t → (n.at t).collectionTTL key = -2

section
variable {rt : Runtime} {formatFloat : Score → Bytes} {n : Node} {key val : Bytes} {e : Int}

section
variable (h : n.db (strKey key) = some ⟨val, e⟩)
include h

theorem read_at (t : ℚ) :
    (n.at t).read (strKey key) = if 0 < e ∧ (e : ℚ) ≤ t then none else some val := by
  rw [Node.read, Keyspace.get, Keyspace.live, Node.db_at, Node.now_at, h, Option.filter_some]
  by_cases he : 0 < e ∧ (e : ℚ) ≤ t
  · have hexp : (⟨val, e⟩ : Item).expired ⌊t⌋ = true := by simpa [Item.expired, Int.le_floor] using he
    simp [hexp, he]
  · have hexp : (⟨val, e⟩ : Item).expired ⌊t⌋ = false := by
      simp only [Item.expired, Bool.and_eq_false_iff, decide_eq_false_iff_not, Int.le_floor]
      exact not_and_or.mp he
    rw [if_neg he]
    simp [hexp]

theorem get_at_eq (t : ℚ) :
    answer rt formatFloat (n.at t) .get [key] = if 0 < e ∧ (e : ℚ) ≤ t then .null else .bulk val := by
  rw [answer_get, read_at h]
  split <;> rfl

theorem ttl_at_eq (hpos : 0 < e) (t : ℚ) :
    answer rt formatFloat (n.at t) .ttl [key] =
      .int (if t < e ∧ 0 < Int64.ofInt (e - ⌊t⌋) then Int64.ofInt (e - ⌊t⌋) else (n.at t).collectionTTL key) := by
  rw [answer_ttl, Keyspace.live, Node.db_at, Node.now_at, h, Option.filter_some]
  by_cases ht : t < e
  · have hexp : (⟨val, e⟩ : Item).expired ⌊t⌋ = false := by simp [Item.expired, Int.le_floor, ht]
    simp only [hexp, Bool.not_false, if_true, remaining, if_neg (ne_of_gt hpos), ht, true_and]
    by_cases hrem : 0 < Int64.ofInt (e - ⌊t⌋)
    · rw [if_neg (Int64.not_le.mpr hrem), if_pos hrem, if_neg]
      intro heq
      rw [heq] at hrem
      exact absurd hrem (by decide)
    · rw [if_pos (Int64.not_lt.mp hrem), if_pos rfl, if_neg hrem]
  · have hexp : (⟨val, e⟩ : Item).expired ⌊t⌋ = true := by
      simp only [Item.expired, Bool.and_eq_true, decide_eq_true_eq, Int.le_floor]
      exact ⟨hpos, not_lt.mp ht⟩
    simp only [hexp, Bool.not_true, Bool.false_eq_true, if_false, remaining, if_true, ht, false_and]

end

theorem max_eq_max_iff {a b c : ℚ} : max a c = max b c ↔ ∀ t, c ≤ t → (t < a ↔ t < b) := by
  constructor
  · intro h t ht
    have hlt : ∀ x : ℚ, t < x ↔ t < max x c := fun x => by rw [lt_max_iff, or_iff_left (not_lt.mpr ht)]
    rw [hlt a, hlt b, h]
  · intro h
    refine le_antisymm (max_le ?_ (le_max_right _ _)) (max_le ?_ (le_max_right _ _))
    · by_contra hlt
      have hlt := not_le.mp hlt
      exact absurd ((h _ (le_max_right b c)).mp hlt) (not_lt.mpr (le_max_left b c))
    · by_contra hlt
      have hlt := not_le.mp hlt
      exact absurd ((h _ (le_max_right a c)).mpr hlt) (not_lt.mpr (le_max_left a c))

/-- **A stored expiry is exact** when it is passed with the deadline and no collection is in the way. -/
theorem exact_iff {e : Int64} (h : n.db (strKey key) = some ⟨val, e.toInt⟩) (deadline : ℚ) :
    Exact rt formatFloat n key val deadline ↔ Timely n key e deadline := by
  have hbulk : ∀ t : ℚ, 0 < e.toInt →
      (answer rt formatFloat (n.at t) .get [key] = .bulk val ↔ t < e.toInt) := by
    intro t hpos
    rw [get_at_eq h]
    by_cases ht : t < e.toInt
    · simp [hpos, ht]
    · simp [hpos, ht, not_lt.mp ht]
  have hnull : ∀ t : ℚ, 0 < e.toInt →
      (answer rt formatFloat (n.at t) .get [key] = .null ↔ (e.toInt : ℚ) ≤ t) := by
    intro t hpos
    rw [get_at_eq h]
    by_cases ht : (e.toInt : ℚ) ≤ t
    · simp [hpos, ht]
    · simp [hpos, ht]
  constructor
  · intro hx
    have hpos : 0 < e.toInt := by
      by_contra hpos
      have hlt := (hx.get (max n.now deadline) (le_max_left _ _)).mp (by rw [get_at_eq h, if_neg fun hc => hpos hc.1])
      exact absurd hlt (not_lt.mpr (le_max_right _ _))
    refine ⟨hpos, max_eq_max_iff.mpr fun t ht => ?_, fun t ht hlt => ?_, fun t ht hle => ?_⟩
    · rw [← hbulk t hpos, hx.get t ht]
    · by_cases hrem : 0 < Int64.ofInt (e.toInt - ⌊t⌋)
      · exact .inl hrem
      · have hgone := mt (hx.ttl t ht).mp (mt (hnull t hpos).mp (not_le.mpr hlt))
        have hnever := hx.bounded t ht
        rw [ttl_at_eq h hpos, if_neg fun hc => hrem hc.2, ne_eq, Reply.int.injEq] at hnever
        rw [ttl_at_eq h hpos, if_neg fun hc => hrem hc.2, Reply.int.injEq] at hgone
        rcases collectionTTL_cases (n.at t) key with h2 | h1 | h0
        · exact absurd h2 hgone
        · exact absurd h1 hnever
        · exact .inr h0
    · have hgone := (hx.ttl t ht).mpr ((hnull t hpos).mpr hle)
      rw [ttl_at_eq h hpos, if_neg fun hc => absurd hc.1 (not_lt.mpr hle), Reply.int.injEq] at hgone
      exact hgone
  · intro ht
    have hpos := ht.positive
    have hother : ∀ t : ℚ, n.now ≤ t → t < e.toInt →
        0 < (if t < e.toInt ∧ 0 < Int64.ofInt (e.toInt - ⌊t⌋) then Int64.ofInt (e.toInt - ⌊t⌋)
          else (n.at t).collectionTTL key) := by
      intro t hnow hlt
      split
      · rename_i hc
        exact hc.2
      · rename_i hc
        exact (ht.before t hnow hlt).resolve_left fun h0 => hc ⟨hlt, h0⟩
    refine ⟨fun t hnow => ?_, fun t hnow => ?_, fun t hnow => ?_⟩
    · rw [hbulk t hpos]
      exact max_eq_max_iff.mp ht.sharp t hnow
    · rw [hnull t hpos, ttl_at_eq h hpos, Reply.int.injEq]
      constructor
      · intro hgone
        by_contra hlt
        have hp := hother t hnow (not_le.mp hlt)
        rw [hgone] at hp
        exact absurd hp (by decide)
      · intro hle
        rw [if_neg fun hc => absurd hc.1 (not_lt.mpr hle)]
        exact ht.after t hnow hle
    · rw [ttl_at_eq h hpos, ne_eq, Reply.int.injEq]
      by_cases hlt : t < e.toInt
      · intro hone
        have hp := hother t hnow hlt
        rw [hone] at hp
        exact absurd hp (by decide)
      · rw [if_neg fun hc => hlt hc.1, ht.after t hnow (not_lt.mp hlt)]
        decide

end

theorem collectionTTL_congr {m n : Node} {key : Bytes} (hnow : m.now = n.now)
    (h : ∀ k, IsPart key k → m.db k = n.db k) : m.collectionTTL key = n.collectionTTL key := by
  have hparts : m.eval (collectionKeys key) = n.eval (collectionKeys key) := by
    rw [Node.eval, Node.eval, collectionKeys_run, collectionKeys_run]
    refine congrArg List.flatten (List.map_congr_left fun p hp => Node.scanned_congr fun k hk => ?_)
    rw [h k ⟨p, hp, hk⟩, hnow]
  unfold Node.collectionTTL
  rw [hparts]
  cases hp : n.eval (collectionKeys key) with
  | nil => rfl
  | cons part parts =>
    have hpart : IsPart key part := (mem_parts (d := n)).mp (by simp [hp]) |>.1
    dsimp only
    rw [Keyspace.live, Keyspace.live, h part hpart, hnow]

def Node.withString (n : Node) (key val : Bytes) (expiresAt : Int64) : Node :=
  n.applyAt (n.nextTs + 1) [⟨strKey key, val, expiresAt, false⟩]

theorem Node.db_withString (n : Node) (key val : Bytes) (expiresAt : Int64) :
    (n.withString key val expiresAt).db = Function.update n.db (strKey key) (some ⟨val, expiresAt.toInt⟩) := by
  rw [withString, Node.db_applyAt (n.atMost_nextTs _)]
  rfl

theorem timely_withString {n : Node} {key val : Bytes} {expiresAt : Int64} {e : Int64} {deadline : ℚ} :
    Timely (n.withString key val expiresAt) key e deadline ↔ Timely n key e deadline := by
  have hcoll : ∀ t : ℚ, ((n.withString key val expiresAt).at t).collectionTTL key = (n.at t).collectionTTL key := by
    intro t
    refine collectionTTL_congr rfl fun k hk => ?_
    have hne : k ≠ strKey key := fun heq => not_isPart_strKey key key (heq ▸ hk)
    rw [Node.db_at, Node.db_at, Node.db_withString, Function.update_of_ne hne]
  constructor
  · intro h
    exact ⟨h.positive, h.sharp, fun t ht hlt => hcoll t ▸ h.before t ht hlt, fun t ht hle => hcoll t ▸ h.after t ht hle⟩
  · intro h
    exact ⟨h.positive, h.sharp, fun t ht hlt => (hcoll t).symm ▸ h.before t ht hlt,
      fun t ht hle => (hcoll t).symm ▸ h.after t ht hle⟩

theorem exact_withString {rt : Runtime} {formatFloat : Score → Bytes} {n : Node} {key val : Bytes} {e : Int64}
    {deadline : ℚ} : Exact rt formatFloat (n.withString key val e) key val deadline ↔ Timely n key e deadline := by
  rw [exact_iff (by rw [Node.db_withString, Function.update_self]), timely_withString]

def TimeOption.deadline (now : Int) (n : Int64) : TimeOption → ℚ
  | ex => now + n.toInt
  | px => now + n.toInt / 1000
  | exat => n.toInt
  | pxat => n.toInt / 1000

variable {rt : Runtime}

theorem set_run {word arg : Bytes} {o : TimeOption} {num : Int64} (hword : setOption (rt.toUpper word) = some (.time o))
    (harg : parseInt arg = some num) (clustered : Bool) (n : Node) (key val : Bytes) :
    ((handle rt clustered .set [key, val, word, arg]).run n).2 =
      n.withString key val (if clustered then 0 else o.expiresAt n.now num) := by
  show ((cmdSet rt clustered (key :: val :: [word, arg])).run n).2 = _
  rw [cmdSet_run]
  simp only [parseSetOptions, hword, harg]
  rfl

theorem setex_run {arg : Bytes} {num : Int64} (harg : parseInt arg = some num) (hpos : 0 < num) (clustered : Bool)
    (n : Node) (key val : Bytes) :
    ((handle rt clustered .setex [key, arg, val]).run n).2 = n.withString key val (secondsFrom n.now num) := by
  have hstandalone : ((handle rt false .setex [key, arg, val]).run n).2 =
      n.withString key val (secondsFrom n.now num) := by
    simp only [handle, cmdSetEx, harg, route_standalone]
    show n.withString key val (if 0 < num then secondsFrom n.now num else 0) = _
    rw [if_pos hpos]
  cases clustered with
  | false => exact hstandalone
  | true => rw [handle_eq (by decide), hstandalone]

theorem ofInt_pos {x : Int} (hpos : 0 < x) (hlt : x < 2 ^ 63) : 0 < Int64.ofInt x := by
  rw [Int64.lt_iff_toInt_lt, Int64.toInt_ofInt_of_le (by omega) hlt]
  exact hpos

theorem timely_iff_of_alone {n : Node} {key : Bytes} (hnow : 0 ≤ n.now)
    (h : ∀ k, IsPart key k → n.db k = none) {e : Int64} {deadline : ℚ} :
    Timely n key e deadline ↔ 0 < e.toInt ∧ max (e.toInt : ℚ) n.now = max deadline n.now := by
  have hcoll : ∀ t : ℚ, (n.at t).collectionTTL key = -2 := by
    intro t
    have hparts : (n.at t).eval (collectionKeys key) = [] := by
      rw [List.eq_nil_iff_forall_not_mem]
      intro k hk
      obtain ⟨hpart, hlisted⟩ := mem_parts.mp hk
      rw [Node.db_at, h k hpart] at hlisted
      cases hlisted
    rw [Node.collectionTTL, hparts]
  refine ⟨fun ht => ⟨ht.positive, ht.sharp⟩, fun ⟨hpos, hsharp⟩ =>
    ⟨hpos, hsharp, fun t ht hlt => .inl ?_, fun t _ _ => hcoll t⟩⟩
  have hle : n.now ≤ ⌊t⌋ := Int.le_floor.mpr ht
  have hfloor : ⌊t⌋ < e.toInt := Int.floor_lt.mpr hlt
  have hmax := e.toInt_lt
  exact ofInt_pos (by omega) (by omega)

/-- **When the options of `SET` are exact**: the stored expiry is the deadline, and positive. -/
theorem set_expiry_exact_iff (rt : Runtime) (formatFloat : Score → Bytes) (clustered : Bool) (n : Node)
    (key val arg : Bytes) (num : Int64) (harg : parseInt arg = some num) :
    (∀ word o, setOption (rt.toUpper word) = some (.time o) →
      (Exact rt formatFloat ((handle rt clustered .set [key, val, word, arg]).run n).2 key val (o.deadline n.now num) ↔
        Timely n key (if clustered then 0 else o.expiresAt n.now num) (o.deadline n.now num))) ∧
    (0 < num →
      (Exact rt formatFloat ((handle rt clustered .setex [key, arg, val]).run n).2 key val (n.now + num.toInt) ↔
        Timely n key (secondsFrom n.now num) (n.now + num.toInt))) := by
  constructor
  · intro word o hword
    rw [set_run hword harg]
    exact exact_withString
  · intro hpos
    rw [setex_run harg hpos]
    exact exact_withString

theorem set_ex_hundred :
    Exact .plain (fun _ => [])
      ((handle .plain false .set [[107], [118], [69, 88], [49, 48, 48]]).run (Node.fresh 1000)).2
      [107] [118] 1100 := by
  have hiff := (set_expiry_exact_iff .plain (fun _ => []) false (Node.fresh 1000) [107] [118] [49, 48, 48] 100
    (by decide)).1 [69, 88] .ex rfl
  have hdeadline : TimeOption.ex.deadline (Node.fresh 1000).now 100 = 1100 := by
    show ((1000 : Int) : ℚ) + ((100 : Int) : ℚ) = 1100
    norm_num
  rw [hdeadline] at hiff
  refine hiff.mpr ((timely_iff_of_alone (by decide) fun _ _ => rfl).mpr ⟨by decide, ?_⟩)
  have hstored : (if false = true then 0 else TimeOption.ex.expiresAt (Node.fresh 1000).now 100).toInt = 1100 := by
    decide
  rw [hstored]
  norm_num

/-- `PX 1500` lasts one second, `EXAT 0` for ever, and `EXAT -5` for ever too, but `TTL` does not find it. -/
theorem set_expiry_inexact :
    let set (option arg : Bytes) := ((handle .plain false .set [[107], [118], option, arg]).run (Node.fresh 1000)).2
    let px := set [80, 88] (formatInt 1500)
    let exat := set [69, 88, 65, 84] (formatInt 0)
    let past := set [69, 88, 65, 84] (formatInt (-5))
    ((1001 : ℚ) < TimeOption.px.deadline 1000 1500 ∧
        answer .plain (fun _ => []) (px.at 1001) .get [[107]] = .null) ∧
      (TimeOption.exat.deadline 1000 0 ≤ (5000 : ℚ) ∧
        answer .plain (fun _ => []) (exat.at 5000) .get [[107]] = .bulk [118] ∧
        answer .plain (fun _ => []) (exat.at 5000) .ttl [[107]] = .int (-1)) ∧
      answer .plain (fun _ => []) (past.at 1000) .get [[107]] = .bulk [118] ∧
        answer .plain (fun _ => []) (past.at 1000) .ttl [[107]] = .int (-2) := by
  refine ⟨⟨?_, by decide +kernel⟩, ⟨?_, by decide +kernel, by decide +kernel⟩, by decide +kernel, by decide +kernel⟩
  · simp only [TimeOption.deadline]
    decide +kernel
  · simp only [TimeOption.deadline]
    decide +kernel

end Server
end AkwaDB
