import AkwaDB.Lib.Bytes

/-!
# AkwaDB.Engine.Glob

Glob patterns, as `KEYS` and `SCAN` take them.

`globMatch` walks along the pattern and the string and remembers the last star: where the two do not go together it
starts again behind that star, one byte further on. A pattern is a list of tokens (`tokens`), each but the star for one
byte, and it matches what its tokens spell out (`Matches`).

`globMatch_iff`: the loop finds a match if there is one. Forgetting the earlier stars loses nothing: what stands between
two stars has a fixed length, so a match that moves the earlier star on also moves the later one on, and that one can
take up the bytes between.
-/

namespace AkwaDB
namespace Glob

/-- The loop of `matchCharClass`: whether the byte was found, and the pattern behind the bracket. -/
def classLoop (ch : UInt8) : Bytes → Bool → Option (Bytes × Bool)
  | [], _ => none
  | 93 :: rest, matched => some (rest, matched)
  | a :: 45 :: b :: rest, matched =>
    if b = 93 then classLoop ch (45 :: b :: rest) (matched || a == ch)
    else classLoop ch rest (matched || (decide (a ≤ ch) && decide (ch ≤ b)))
  | a :: rest, matched => classLoop ch rest (matched || a == ch)

def matchCharClass (p : Bytes) (ch : UInt8) : Bytes × Bool :=
  let negate := p.head? == some 94
  match classLoop ch (if negate then p.tail else p) false with
  | none => (p, ch == 91)
  | some (next, matched) => (next, matched != negate)

inductive Move where
  | star (p : Bytes)
  | eat (p : Bytes)
  | fail

def move (p : Bytes) (ch : UInt8) : Move :=
  match p with
  | [] => .fail
  | 42 :: p => .star p
  | 63 :: p => .eat p
  | 91 :: p => if (matchCharClass p ch).2 then .eat (matchCharClass p ch).1 else .fail
  | 92 :: p => if p.head? = some ch then .eat p.tail else .fail
  | b :: p => if b = ch then .eat p else .fail

theorem move_star {p p' : Bytes} {ch : UInt8} (h : move p ch = .star p') : p = 42 :: p' := by
  unfold move at h
  split at h
  · cases h
  · cases h
    rfl
  · cases h
  all_goals split at h <;> cases h

/-- The rest of the pattern and of the string, and of both behind the last star. -/
def globLoop (p s : Bytes) (star : Option (Bytes × Bytes)) : Bool :=
  match s with
  | [] => (p.dropWhile (· == 42)).isEmpty
  | ch :: s' =>
    match _h : move p ch with
    | .star p' => globLoop p' (ch :: s') (some (p', ch :: s'))
    | .eat p' => globLoop p' s' star
    | .fail =>
      match star with
      | none => false
      | some (q, t) => globLoop q t.tail (some (q, t.tail))
termination_by (match star with | none => s.length + 1 | some (_, t) => max t.length s.length, s.length, p.length)
decreasing_by
  · obtain rfl := move_star _h
    cases star <;> simp only [Prod.lex_def, List.length_cons, true_and] <;> omega
  · cases star <;> simp only [Prod.lex_def, List.length_cons] <;> omega
  · simp only [Prod.lex_def, List.length_tail, List.length_cons]
    omega

def globMatch (pattern s : Bytes) : Bool := globLoop pattern s none

inductive Token where
  | star
  | any
  | literal (b : UInt8)
  | range (negate : Bool) (items : List (UInt8 × UInt8))
  | nothing

def Token.accepts : Token → UInt8 → Bool
  | star, _ => false
  | any, _ => true
  | literal b, c => b == c
  | range negate items, c => (items.any fun i => decide (i.1 ≤ c) && decide (c ≤ i.2)) != negate
  | nothing, _ => false

def items : Bytes → Option (List (UInt8 × UInt8) × Bytes)
  | [] => none
  | 93 :: rest => some ([], rest)
  | a :: 45 :: b :: rest =>
    if b = 93 then (items (45 :: b :: rest)).map fun r => ((a, a) :: r.1, r.2)
    else (items rest).map fun r => ((a, b) :: r.1, r.2)
  | a :: rest => (items rest).map fun r => ((a, a) :: r.1, r.2)

/-- A bracket that is not closed stands for itself. -/
def classToken (p : Bytes) : Token × Bytes :=
  let negate := p.head? == some 94
  match items (if negate then p.tail else p) with
  | none => (.literal 91, p)
  | some (is, rest) => (.range negate is, rest)

def token : Bytes → Option (Token × Bytes)
  | [] => none
  | 42 :: p => some (.star, p)
  | 63 :: p => some (.any, p)
  | 91 :: p => some (classToken p)
  | [92] => some (.nothing, [])
  | 92 :: b :: p => some (.literal b, p)
  | b :: p => some (.literal b, p)

theorem items_length {p rest : Bytes} {is : List (UInt8 × UInt8)} (h : items p = some (is, rest)) :
    rest.length < p.length := by
  fun_induction items p generalizing is with
  | case1 => cases h
  | case2 => cases h; exact Nat.lt_succ_self _
  | case3 a rest' _ ih | case5 a rest' _ _ ih =>
    obtain ⟨r, hr, heq⟩ := Option.map_eq_some_iff.mp h
    cases heq
    exact (ih hr).trans (Nat.lt_succ_self _)
  | case4 a b rest' _ hb ih =>
    obtain ⟨r, hr, heq⟩ := Option.map_eq_some_iff.mp h
    cases heq
    have := ih hr
    simp only [List.length_cons]
    omega

theorem classToken_length (p : Bytes) : (classToken p).2.length ≤ p.length := by
  have htail : (if p.head? == some 94 then p.tail else p).length ≤ p.length := by
    split
    · rw [List.length_tail]
      omega
    · exact Nat.le_refl _
  unfold classToken
  dsimp only
  split
  · exact Nat.le_refl _
  · exact (items_length ‹_›).le.trans htail

theorem token_length {p rest : Bytes} {t : Token} (h : token p = some (t, rest)) : rest.length < p.length := by
  unfold token at h
  split at h
  · cases h
  · cases h; exact Nat.lt_succ_self _
  · cases h; exact Nat.lt_succ_self _
  · rename_i p
    have hlen := classToken_length p
    rw [Option.some.inj h] at hlen
    exact Nat.lt_succ_of_le hlen
  · cases h; exact Nat.lt_succ_self _
  · cases h; exact Nat.lt_succ_of_lt (Nat.lt_succ_self _)
  · cases h; exact Nat.lt_succ_self _

def tokens (p : Bytes) : List Token :=
  match _h : token p with
  | none => []
  | some (t, rest) => t :: tokens rest
termination_by p.length
decreasing_by exact token_length _h

inductive Matches : List Token → Bytes → Prop where
  | nil : Matches [] []
  | star {ts : List Token} {s : Bytes} (u : Bytes) : Matches ts s → Matches (.star :: ts) (u ++ s)
  | one {t : Token} {ts : List Token} {c : UInt8} {s : Bytes} :
    t.accepts c = true → Matches ts s → Matches (t :: ts) (c :: s)

/-! ## The moves are those of the tokens -/

theorem beq_eq_range (a ch : UInt8) : (a == ch) = (decide (a ≤ ch) && decide (ch ≤ a)) := by
  rw [Bool.eq_iff_iff, beq_iff_eq, Bool.and_eq_true, decide_eq_true_eq, decide_eq_true_eq]
  exact ⟨fun h => h ▸ ⟨le_refl a, le_refl a⟩, fun h => le_antisymm h.1 h.2⟩

theorem classLoop_eq (ch : UInt8) (p : Bytes) (matched : Bool) :
    classLoop ch p matched =
      (items p).map fun r => (r.2, matched || r.1.any fun i => decide (i.1 ≤ ch) && decide (ch ≤ i.2)) := by
  fun_induction classLoop ch p matched with
  | case1 => rfl
  | case2 rest matched => simp [items]
  | case3 a rest matched ha ih =>
    rw [ih, items, if_pos rfl, Option.map_map, beq_eq_range]
    · simp only [Function.comp_def, List.any_cons, Bool.or_assoc]
    · exact ha
  | case4 a b rest matched ha hb ih =>
    rw [ih, items, if_neg hb, Option.map_map]
    · simp only [Function.comp_def, List.any_cons, Bool.or_assoc]
    · exact ha
  | case5 a rest matched ha hrange ih =>
    rw [ih, items, Option.map_map, beq_eq_range]
    · simp only [Function.comp_def, List.any_cons, Bool.or_assoc]
    · exact ha
    · exact hrange

theorem matchCharClass_eq (p : Bytes) (ch : UInt8) :
    matchCharClass p ch = ((classToken p).2, (classToken p).1.accepts ch) := by
  unfold matchCharClass classToken
  dsimp only
  rw [classLoop_eq]
  cases items (if p.head? == some 94 then p.tail else p) with
  | none => rw [Token.accepts, Bool.beq_comm]; rfl
  | some r => rfl

def Token.move (t : Token) (rest : Bytes) (ch : UInt8) : Move :=
  match t with
  | .star => .star rest
  | t => if t.accepts ch then .eat rest else .fail

theorem Token.move_of_ne {t : Token} (h : t ≠ .star) {rest : Bytes} {ch : UInt8} :
    t.move rest ch = if t.accepts ch then .eat rest else .fail := by
  cases t with
  | star => exact absurd rfl h
  | any | literal | range | nothing => rfl

theorem classToken_ne_star (p : Bytes) : (classToken p).1 ≠ .star := by
  unfold classToken
  dsimp only
  split <;> exact Token.noConfusion

theorem move_eq (p : Bytes) (ch : UInt8) :
    move p ch = match token p with
      | none => .fail
      | some (t, rest) => t.move rest ch := by
  unfold move
  split
  · rfl
  · rfl
  · rfl
  · rename_i p
    rw [matchCharClass_eq]
    exact (Token.move_of_ne (classToken_ne_star p)).symm
  · rename_i p
    cases p with
    | nil => rfl
    | cons b p => simp [token, Token.move, Token.accepts]
  · rename_i b p h42 h63 h91 h92
    have htoken : token (b :: p) = some (.literal b, p) := by
      rw [token]
      · exact h42
      · exact h63
      · exact h91
      · exact fun h => absurd h h92
      · exact fun _ _ h => absurd h h92
    simp [htoken, Token.move, Token.accepts]

theorem tokens_eq (p : Bytes) : tokens p = match token p with
    | none => []
    | some (t, rest) => t :: tokens rest := by
  rw [tokens]
  split <;> simp only [*]

variable {t : Token} {ts us : List Token} {c : UInt8} {s v : Bytes}

theorem matches_star : Matches (.star :: ts) s ↔ ∃ v, v <:+ s ∧ Matches ts v := by
  constructor
  · intro h
    cases h with
    | star u h => exact ⟨_, List.suffix_append u _, h⟩
    | one ha _ => cases ha
  · rintro ⟨v, ⟨u, rfl⟩, h⟩
    exact .star u h

theorem matches_one (ha : t.accepts c = true) : Matches (t :: ts) (c :: s) ↔ Matches ts s := by
  constructor
  · intro h
    generalize hs : c :: s = cs at h
    cases h with
    | star => cases ha
    | one _ h => exact (List.cons.inj hs).2 ▸ h
  · exact .one ha

theorem matches_append (hones : ∀ t ∈ ts, t ≠ .star) (h : Matches (ts ++ us) s) :
    ts.length ≤ s.length ∧ Matches us (s.drop ts.length) := by
  induction ts generalizing s with
  | nil => exact ⟨Nat.zero_le _, h⟩
  | cons t ts ih =>
    rw [List.cons_append] at h
    cases h with
    | star => exact absurd rfl (hones _ List.mem_cons_self)
    | one _ h =>
      obtain ⟨hle, hrest⟩ := ih (fun t ht => hones t (List.mem_cons_of_mem _ ht)) h
      exact ⟨Nat.succ_le_succ hle, hrest⟩

theorem token_cons {b : UInt8} (p : Bytes) (hb : b ≠ 42) : ∃ t rest, token (b :: p) = some (t, rest) ∧ t ≠ .star := by
  unfold token
  split
  case h_1 h => cases h
  case h_2 h => exact absurd (List.cons.inj h).1 hb
  case h_4 h => exact ⟨_, _, rfl, classToken_ne_star _⟩
  all_goals exact ⟨_, _, rfl, Token.noConfusion⟩

theorem matches_nil (p : Bytes) : Matches (tokens p) [] ↔ (p.dropWhile (· == 42)).isEmpty = true := by
  induction p with
  | nil =>
    rw [tokens_eq]
    exact iff_of_true .nil rfl
  | cons b p ih =>
    by_cases hb : b = 42
    · subst hb
      rw [List.dropWhile_cons_of_pos rfl, ← ih, tokens_eq]
      show Matches (.star :: tokens p) [] ↔ _
      rw [matches_star]
      exact ⟨fun ⟨v, hv, h⟩ => List.suffix_nil.mp hv ▸ h, fun h => ⟨[], List.nil_suffix, h⟩⟩
    · obtain ⟨t, rest, htoken, hstar⟩ := token_cons p hb
      rw [List.dropWhile_cons_of_neg (by simpa using hb), tokens_eq, htoken]
      refine iff_of_false (fun h => ?_) (by simp)
      generalize hs : ([] : Bytes) = s at h
      cases h with
      | star => exact hstar rfl
      | one => cases hs

theorem suffix_iff_tail : v <:+ s ↔ v = s ∨ v <:+ s.tail := by
  cases s with
  | nil => simp
  | cons c s => exact List.suffix_cons_iff

theorem tokens_of_eat {p p' : Bytes} (h : move p c = .eat p') :
    ∃ t, t.accepts c = true ∧ tokens p = t :: tokens p' := by
  rw [move_eq] at h
  rw [tokens_eq]
  cases htoken : token p with
  | none => rw [htoken] at h; cases h
  | some r =>
    obtain ⟨t, rest⟩ := r
    rw [htoken] at h
    by_cases hstar : t = .star
    · subst hstar
      cases h
    · dsimp only at h
      rw [Token.move_of_ne hstar] at h
      split at h
      · cases h
        exact ⟨t, ‹_›, rfl⟩
      · cases h

theorem not_matches_of_fail {p : Bytes} (h : move p c = .fail) : ¬Matches (tokens p) (c :: s) := by
  rw [move_eq] at h
  rw [tokens_eq]
  intro hm
  cases htoken : token p with
  | none => rw [htoken] at hm; cases hm
  | some r =>
    obtain ⟨t, rest⟩ := r
    rw [htoken] at h hm
    generalize hs : c :: s = cs at hm
    cases hm with
    | star => cases h
    | one ha =>
      cases hs
      dsimp only at h
      rw [Token.move_of_ne (by rintro rfl; cases ha), if_pos ha] at h
      cases h

/-! ## The loop finds a match -/

/-- Since the last star, tokens for one byte each have been passed, and as many bytes. -/
def Since (p s : Bytes) (star : Option (Bytes × Bytes)) : Prop :=
  ∀ q t, star = some (q, t) → ∃ ones u, (∀ x ∈ ones, x ≠ .star) ∧ tokens q = ones ++ tokens p ∧ t = u ++ s ∧
    u.length = ones.length

/-- A match that begins further on behind the last star. -/
def Later (star : Option (Bytes × Bytes)) : Prop :=
  ∃ q t v, star = some (q, t) ∧ v <:+ t.tail ∧ Matches (tokens q) v

theorem globLoop_iff (p s : Bytes) (star : Option (Bytes × Bytes)) (h : Since p s star) :
    globLoop p s star = true ↔ Matches (tokens p) s ∨ Later star := by
  fun_induction globLoop p s star with
  | case1 p star =>
    -- at the end of the string a later match would be too short
    rw [← matches_nil]
    refine (or_iff_left_of_imp ?_).symm
    rintro ⟨q, t, v, hstar, hv, hm⟩
    obtain ⟨ones, u, hones, hq, rfl, hlen⟩ := h q t hstar
    rw [hq] at hm
    obtain ⟨hle, hm⟩ := matches_append hones hm
    have hshort := hv.length_le
    rw [List.append_nil, List.length_tail] at hshort
    obtain rfl : v = [] := List.length_eq_zero_iff.mp (by omega)
    rwa [List.drop_nil] at hm
  | case2 p star ch s' p' hmove ih =>
    obtain rfl := move_star hmove
    have hp : tokens (42 :: p') = .star :: tokens p' := by rw [tokens_eq]; rfl
    have hnew : Later (some (p', ch :: s')) ↔ ∃ v, v <:+ s' ∧ Matches (tokens p') v := by
      constructor
      · rintro ⟨q, t, v, ⟨⟩, hv, hm⟩
        exact ⟨v, hv, hm⟩
      · rintro ⟨v, hv, hm⟩
        exact ⟨p', ch :: s', v, rfl, hv, hm⟩
    have hhere : Matches (tokens (42 :: p')) (ch :: s') ↔
        Matches (tokens p') (ch :: s') ∨ Later (some (p', ch :: s')) := by
      rw [hp, matches_star, hnew]
      constructor
      · rintro ⟨v, hv, hm⟩
        rcases List.suffix_cons_iff.mp hv with rfl | hv
        · exact Or.inl hm
        · exact Or.inr ⟨v, hv, hm⟩
      · rintro (hm | ⟨v, hv, hm⟩)
        · exact ⟨_, List.suffix_refl _, hm⟩
        · exact ⟨v, hv.trans (List.suffix_cons ch s'), hm⟩
    rw [ih (by rintro q t ⟨⟩; exact ⟨[], [], by simp, rfl, rfl, rfl⟩), ← hhere]
    refine (or_iff_left_of_imp ?_).symm
    -- a match behind the earlier star goes through this one
    rintro ⟨q, t, v, hstar, hv, hm⟩
    obtain ⟨ones, u, hones, hq, rfl, hlen⟩ := h q t hstar
    rw [hq] at hm
    obtain ⟨hle, hm⟩ := matches_append hones hm
    rw [hp, matches_star] at hm ⊢
    obtain ⟨w, hw, hm⟩ := hm
    refine ⟨w, hw.trans ?_, hm⟩
    have hvt : v <:+ u ++ ch :: s' := hv.trans (List.tail_suffix _)
    refine List.suffix_of_suffix_length_le ((List.drop_suffix _ _).trans hvt) (List.suffix_append u _) ?_
    have := hvt.length_le
    rw [List.length_append] at this
    rw [List.length_drop]
    omega
  | case3 p star ch s' p' hmove ih =>
    obtain ⟨t, ha, hp⟩ := tokens_of_eat hmove
    rw [ih ?_, hp, matches_one ha]
    intro q t' hstar
    obtain ⟨ones, u, hones, hq, rfl, hlen⟩ := h q t' hstar
    refine ⟨ones ++ [t], u ++ [ch], ?_, by rw [hq, hp, List.append_assoc]; rfl, by rw [List.append_assoc]; rfl,
      by simp [hlen]⟩
    intro x hx
    rcases List.mem_append.mp hx with hx | hx
    · exact hones x hx
    · rintro rfl
      cases List.mem_singleton.mp hx
      cases ha
  | case4 p ch s' hmove =>
    refine iff_of_false Bool.false_ne_true ?_
    rintro (hm | ⟨q, t, v, ⟨⟩, -⟩)
    exact not_matches_of_fail hmove hm
  | case5 p ch s' hmove q t ih =>
    rw [ih (by rintro q' t' ⟨⟩; exact ⟨[], [], by simp, rfl, rfl, rfl⟩),
      or_iff_right (not_matches_of_fail hmove)]
    constructor
    · rintro (hm | ⟨q', t', v, ⟨⟩, hv, hm⟩)
      · exact ⟨q, t, t.tail, rfl, List.suffix_refl _, hm⟩
      · exact ⟨q, t, v, rfl, hv.trans (List.tail_suffix _), hm⟩
    · rintro ⟨q', t', v, ⟨⟩, hv, hm⟩
      rcases suffix_iff_tail.mp hv with rfl | hv
      · exact Or.inl hm
      · exact Or.inr ⟨q, t.tail, v, rfl, hv, hm⟩

/-- **`globMatch` is the relation of the tokens.** -/
theorem globMatch_iff (pattern s : Bytes) : globMatch pattern s = true ↔ Matches (tokens pattern) s := by
  rw [globMatch, globLoop_iff pattern s none (by rintro q t ⟨⟩)]
  exact or_iff_left (by rintro ⟨q, t, v, ⟨⟩, -⟩)

end Glob
end AkwaDB
