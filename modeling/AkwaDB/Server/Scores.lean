import AkwaDB.Server.Query
import Mathlib.Data.EReal.Operations
import Mathlib.Data.Nat.Bitwise

/-!
# AkwaDB.Server.Scores

The scores of a sorted set and the eight bytes they are stored as.

A score that is a number has a place on the line of the `float64`s (`Score.value`), where both zeros are one. The
bytes of a score are its place moved up to the positive numbers, so that they are ordered as the scores are.

- `encodeScore_lt_iff`, `encodeScore_eq_iff`: the bytes have the order of the scores.
- `value_decodeScore`: a score is read back, up to the sign of a zero.
- `score_order_embedding`: both for the numbers that IEEE 754 gives the bits (`Score.ieee`).
-/

namespace AkwaDB

/-! ## Order of byte strings -/

theorem bePut_lt_bePut_iff {w m n : Nat} (hm : m < 256 ^ w) (hn : n < 256 ^ w) :
    bePut w m < bePut w n ↔ m < n := by
  induction w generalizing m n with
  | zero => simp [bePut]; omega
  | succ w ih =>
    have hpos : 0 < 256 ^ w := by positivity
    have hdm : m / 256 ^ w < 2 ^ 8 := Nat.div_lt_of_lt_mul (by rwa [Nat.pow_succ] at hm)
    have hdn : n / 256 ^ w < 2 ^ 8 := Nat.div_lt_of_lt_mul (by rwa [Nat.pow_succ] at hn)
    have hsplit : ∀ k, bePut w k = bePut w (k % 256 ^ w) := fun k => by
      conv_lhs => rw [← Nat.div_add_mod' k (256 ^ w), bePut_add]
    rw [bePut, bePut, List.cons_lt_cons_iff, hsplit m, hsplit n, ih (Nat.mod_lt _ hpos) (Nat.mod_lt _ hpos),
      UInt8.lt_iff_toNat_lt, ← UInt8.toNat_inj, UInt8.toNat_ofNat', UInt8.toNat_ofNat', Nat.mod_eq_of_lt hdm,
      Nat.mod_eq_of_lt hdn]
    have hm' := Nat.div_add_mod m (256 ^ w)
    have hn' := Nat.div_add_mod n (256 ^ w)
    have hmm := Nat.mod_lt m hpos
    have hnm := Nat.mod_lt n hpos
    constructor
    · rintro (h | ⟨h, hlt⟩)
      · have := Nat.mul_le_mul_left (256 ^ w) (Nat.succ_le_of_lt h)
        rw [Nat.mul_succ] at this
        omega
      · rw [h] at hm'
        omega
    · intro h
      rcases Nat.lt_or_ge (m / 256 ^ w) (n / 256 ^ w) with hlt | hge
      · exact Or.inl hlt
      · have heq : m / 256 ^ w = n / 256 ^ w := Nat.le_antisymm (Nat.div_le_div_right h.le) hge
        rw [heq] at hm'
        exact Or.inr ⟨heq, by omega⟩

namespace Server

theorem sign_eq_zero_iff (x : UInt64) : x &&& signBit = 0 ↔ x.toNat < 2 ^ 63 := by
  rw [← UInt64.toNat_inj, UInt64.toNat_and]
  show x.toNat &&& 2 ^ 63 = 0 ↔ _
  rw [Nat.and_two_pow]
  have hlt := x.toNat_lt
  by_cases h : x.toNat < 2 ^ 63
  · simpa [Nat.testBit_lt_two_pow h] using h
  · have hbit : x.toNat.testBit 63 = true := by
      rw [Nat.testBit_eq_decide_div_mod_eq, decide_eq_true_eq]
      omega
    simpa [hbit] using h

theorem flip_toNat (x : UInt64) :
    (x ^^^ signBit).toNat = if x.toNat < 2 ^ 63 then x.toNat + 2 ^ 63 else x.toNat - 2 ^ 63 := by
  have hlt := x.toNat_lt
  have hmod : (x.toNat ^^^ 2 ^ 63) % 2 ^ 63 = x.toNat % 2 ^ 63 := by
    rw [Nat.xor_mod_two_pow, Nat.mod_self, Nat.xor_zero]
  have hdiv : (x.toNat ^^^ 2 ^ 63) / 2 ^ 63 = (x.toNat / 2 ^ 63) ^^^ 1 := by
    rw [Nat.xor_div_two_pow, Nat.div_self (by decide)]
  rw [UInt64.toNat_xor]
  show x.toNat ^^^ 2 ^ 63 = _
  generalize x.toNat ^^^ 2 ^ 63 = q at hmod hdiv ⊢
  by_cases h : x.toNat < 2 ^ 63
  · have hq : q / 2 ^ 63 = 1 := by rw [hdiv, Nat.div_eq_of_lt h]; rfl
    rw [if_pos h]
    omega
  · have hone : x.toNat / 2 ^ 63 = 1 := by omega
    have hq : q / 2 ^ 63 = 0 := by rw [hdiv, hone]; rfl
    rw [if_neg h]
    omega

namespace Score

variable {x y : Score}

theorem magnitude_toNat (x : Score) : x.magnitude.toNat = x.toNat % 2 ^ 63 := by
  rw [magnitude, UInt64.toNat_and]
  exact Nat.and_two_pow_sub_one_eq_mod x.toNat 63

theorem value_eq (x : Score) :
    x.value = if x.toNat < 2 ^ 63 then (x.toNat : Int) else 2 ^ 63 - (x.toNat : Int) := by
  have hlt := x.toNat_lt
  unfold value
  simp only [sign_eq_zero_iff, magnitude_toNat]
  split <;> omega

theorem natAbs_value (x : Score) : x.value.natAbs = x.magnitude.toNat := by
  unfold value
  split <;> simp

theorem isNaN_eq (x : Score) : x.isNaN = decide (0x7FF0000000000000 < x.value.natAbs) := by
  rw [natAbs_value, isNaN]
  exact decide_eq_decide.mpr UInt64.lt_iff_toNat_lt

theorem isZero_iff (x : Score) : x.isZero = true ↔ x.value = 0 := by
  rw [isZero, beq_iff_eq, ← UInt64.toNat_inj, ← natAbs_value]
  exact Int.natAbs_eq_zero

theorem atLeastZero_iff (h : x.isNaN = false) : x.atLeastZero = true ↔ 0 ≤ x.value := by
  have hlt := x.toNat_lt
  rw [atLeastZero, h, Bool.not_false, Bool.true_and, Bool.or_eq_true, isZero_iff, beq_iff_eq, sign_eq_zero_iff, value_eq]
  split <;> omega

end Score

def scoreCode (x : Score) : UInt64 :=
  if x.atLeastZero then (if x.isZero then 0 else x) ^^^ signBit else ~~~(if x.isZero then 0 else x)

variable {x y : Score}

theorem encodeScore_eq (x : Score) : encodeScore x = bePut 8 (scoreCode x).toNat := rfl

@[simp] theorem encodeScore_length (x : Score) : (encodeScore x).length = 8 := by
  simp [encodeScore]

theorem scoreCode_toNat (h : x.isNaN = false) :
    ((scoreCode x).toNat : Int) = if 0 ≤ x.value then x.value + 2 ^ 63 else x.value + 2 ^ 63 - 1 := by
  have hlt := x.toNat_lt
  have hzero := x.isZero_iff
  have hpos := Score.atLeastZero_iff h
  have hvalue := x.value_eq
  unfold scoreCode
  by_cases hnonneg : 0 ≤ x.value
  · rw [if_pos (hpos.mpr hnonneg), if_pos hnonneg, flip_toNat]
    by_cases hz : x.value = 0
    · rw [if_pos (hzero.mpr hz), hz]
      rfl
    · rw [if_neg (mt hzero.mp hz)]
      split at hvalue <;> split <;> omega
  · have hz : x.value ≠ 0 := fun hz => hnonneg (hz ▸ le_rfl)
    rw [if_neg (mt hpos.mp hnonneg), if_neg hnonneg, if_neg (mt hzero.mp hz), UInt64.toNat_not]
    show ((2 ^ 64 - 1 - x.toNat : Nat) : Int) = _
    split at hvalue <;> omega

theorem scoreCode_lt_iff (hx : x.isNaN = false) (hy : y.isNaN = false) :
    (scoreCode x).toNat < (scoreCode y).toNat ↔ x.value < y.value := by
  have hcx := scoreCode_toNat hx
  have hcy := scoreCode_toNat hy
  split at hcx <;> split at hcy <;> omega

theorem encodeScore_lt_iff (hx : x.isNaN = false) (hy : y.isNaN = false) :
    encodeScore x < encodeScore y ↔ x.value < y.value := by
  rw [encodeScore_eq, encodeScore_eq, bePut_lt_bePut_iff (scoreCode x).toNat_lt (scoreCode y).toNat_lt,
    scoreCode_lt_iff hx hy]

theorem encodeScore_eq_iff (hx : x.isNaN = false) (hy : y.isNaN = false) :
    encodeScore x = encodeScore y ↔ x.value = y.value := by
  have hxy := encodeScore_lt_iff hx hy
  have hyx := encodeScore_lt_iff hy hx
  constructor
  · intro h
    rw [h, lt_self_iff_false, false_iff] at hxy
    rw [h, lt_self_iff_false, false_iff] at hyx
    omega
  · intro h
    rcases lt_trichotomy (encodeScore x) (encodeScore y) with hlt | heq | hgt
    · exact absurd (hxy.mp hlt) (by omega)
    · exact heq
    · exact absurd (hyx.mp hgt) (by omega)

theorem decodeScore_bePut (e : UInt64) :
    decodeScore (bePut 8 e.toNat) = if e &&& signBit != 0 then e ^^^ signBit else ~~~e := by
  have hlen : (bePut 8 e.toNat).take 8 = bePut 8 e.toNat := List.take_of_length_le (by simp)
  rw [decodeScore, hlen, beGet_bePut_of_lt (by have := e.toNat_lt; omega), UInt64.ofNat_toNat]

theorem value_decodeScore (h : x.isNaN = false) : (decodeScore (encodeScore x)).value = x.value := by
  have hcode := scoreCode_toNat h
  have hlt := x.toNat_lt
  have hvalue := x.value_eq
  rw [encodeScore_eq, decodeScore_bePut, Score.value_eq]
  simp only [bne_iff_ne, ne_eq, sign_eq_zero_iff]
  by_cases hs : (scoreCode x).toNat < 2 ^ 63
  · rw [if_neg (not_not.mpr hs), UInt64.toNat_not]
    have hsize : UInt64.size = 2 ^ 64 := rfl
    split at hcode <;> split at hvalue <;> split <;> omega
  · rw [if_pos hs, flip_toNat, if_neg hs]
    split at hcode <;> split at hvalue <;> split <;> omega

theorem isNaN_decodeScore (h : x.isNaN = false) : (decodeScore (encodeScore x)).isNaN = false := by
  rw [Score.isNaN_eq, value_decodeScore h, ← Score.isNaN_eq, h]

/-- A finite magnitude in units of 2^-1074, with the leading one unless the exponent is 0. -/
def units (m : Nat) : Nat := if m / 2 ^ 52 = 0 then m % 2 ^ 52 else (2 ^ 52 + m % 2 ^ 52) * 2 ^ (m / 2 ^ 52 - 1)

/-- The infinities have the exponent 2047. -/
noncomputable def size (m : Nat) : EReal :=
  if m / 2 ^ 52 = 2047 then ⊤ else ((units m * 2 ^ (-1074 : ℤ) : ℝ) : EReal)

noncomputable def Score.ieee (x : Score) : EReal :=
  if x &&& signBit = 0 then size x.magnitude.toNat else -size x.magnitude.toNat

theorem units_strictMono : StrictMono units := by
  refine strictMono_nat_of_lt_succ fun m => ?_
  have hpos : 0 < 2 ^ (m / 2 ^ 52 - 1) := by positivity
  unfold units
  by_cases hcarry : m % 2 ^ 52 + 1 < 2 ^ 52
  · have hexp : (m + 1) / 2 ^ 52 = m / 2 ^ 52 := by omega
    have hfrac : (m + 1) % 2 ^ 52 = m % 2 ^ 52 + 1 := by omega
    rw [hexp, hfrac]
    split
    · omega
    · exact Nat.mul_lt_mul_of_pos_right (by omega) hpos
  · -- the fraction runs over into the exponent
    have hexp : (m + 1) / 2 ^ 52 = m / 2 ^ 52 + 1 := by omega
    have hfrac : (m + 1) % 2 ^ 52 = 0 := by omega
    rw [hexp, hfrac, if_neg (Nat.succ_ne_zero _), Nat.add_sub_cancel, Nat.add_zero]
    split
    · rename_i hzero
      rw [hzero]
      omega
    · obtain ⟨e, he⟩ := Nat.exists_eq_succ_of_ne_zero ‹_›
      have hdouble : 2 ^ 52 * 2 ^ (e + 1) = 2 ^ 53 * 2 ^ e := by ring
      rw [he, Nat.succ_sub_one, hdouble]
      exact Nat.mul_lt_mul_of_pos_right (by omega) (by positivity)

theorem size_zero : size 0 = 0 := by
  simp [size, units]

theorem size_lt {m n : Nat} (h : m < n) (hn : n ≤ 0x7FF0000000000000) : size m < size n := by
  have hm : ¬m / 2 ^ 52 = 2047 := by omega
  rw [size, size, if_neg hm]
  split
  · exact EReal.coe_lt_top _
  · rw [EReal.coe_lt_coe_iff]
    have hlt : (units m : ℝ) < units n := Nat.cast_lt.mpr (units_strictMono h)
    exact mul_lt_mul_of_pos_right hlt (zpow_pos two_pos _)

namespace Score

theorem ieee_eq (x : Score) :
    x.ieee = if 0 ≤ x.value then size x.value.natAbs else -size x.value.natAbs := by
  rw [natAbs_value, ieee, value]
  by_cases hs : x &&& signBit = 0
  · rw [if_pos hs, if_pos hs, if_pos (Int.natCast_nonneg _)]
  · rw [if_neg hs, if_neg hs]
    split
    · rename_i hzero
      have hm : x.magnitude.toNat = 0 := by omega
      rw [hm, size_zero, neg_zero]
    · rfl

theorem ieee_lt (hx : x.isNaN = false) (hy : y.isNaN = false) (h : x.value < y.value) : x.ieee < y.ieee := by
  rw [isNaN_eq, decide_eq_false_iff_not, not_lt] at hx hy
  have hnonneg : ∀ m ≤ 0x7FF0000000000000, 0 ≤ size m := by
    intro m hm
    rcases Nat.eq_zero_or_pos m with rfl | hpos
    · rw [size_zero]
    · exact size_zero ▸ (size_lt hpos hm).le
  rw [ieee_eq, ieee_eq]
  by_cases hx0 : 0 ≤ x.value
  · rw [if_pos hx0, if_pos (by omega)]
    exact size_lt (by omega) hy
  · rw [if_neg hx0]
    have hneg : -size x.value.natAbs < 0 := by
      rw [EReal.neg_lt_zero, ← size_zero]
      exact size_lt (by omega) hx
    by_cases hy0 : 0 ≤ y.value
    · rw [if_pos hy0]
      exact hneg.trans_le (hnonneg _ hy)
    · rw [if_neg hy0, EReal.neg_lt_neg_iff]
      exact size_lt (by omega) hx

theorem ieee_lt_iff (hx : x.isNaN = false) (hy : y.isNaN = false) : x.ieee < y.ieee ↔ x.value < y.value := by
  rcases lt_trichotomy x.value y.value with hlt | heq | hgt
  · exact iff_of_true (ieee_lt hx hy hlt) hlt
  · rw [ieee_eq, ieee_eq, heq]
    exact iff_of_false (lt_irrefl _) (lt_irrefl _)
  · exact iff_of_false (ieee_lt hy hx hgt).asymm hgt.asymm

theorem ieee_inj (hx : x.isNaN = false) (hy : y.isNaN = false) : x.ieee = y.ieee ↔ x.value = y.value := by
  rw [eq_iff_le_not_lt, eq_iff_le_not_lt, ← not_lt, ← not_lt, ieee_lt_iff hx hy, ieee_lt_iff hy hx]

end Score

/-- **The bytes of the scores are ordered as the numbers are**, and give the number back. -/
theorem score_order_embedding (x y : Score) (hx : x.isNaN = false) (hy : y.isNaN = false) :
    (encodeScore x < encodeScore y ↔ x.ieee < y.ieee) ∧ (encodeScore x = encodeScore y ↔ x.ieee = y.ieee) ∧
      (decodeScore (encodeScore x)).isNaN = false ∧ (decodeScore (encodeScore x)).ieee = x.ieee := by
  refine ⟨?_, ?_, isNaN_decodeScore hx, ?_⟩
  · rw [encodeScore_lt_iff hx hy, Score.ieee_lt_iff hx hy]
  · rw [encodeScore_eq_iff hx hy, Score.ieee_inj hx hy]
  · rw [Score.ieee_inj (isNaN_decodeScore hx) hx, value_decodeScore hx]

theorem score_order_subnormal : encodeScore signBit < encodeScore 1 ∧ Score.ieee signBit < Score.ieee 1 :=
  have hlt : encodeScore signBit < encodeScore 1 := by decide
  ⟨hlt, (score_order_embedding signBit 1 (by decide) (by decide)).1.mp hlt⟩

end Server
end AkwaDB
