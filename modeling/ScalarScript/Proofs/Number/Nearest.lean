import ScalarScript.Decimal
import ScalarScript.Proofs.Number.Order

/-!
# The double of a decimal number

A decimal number is turned into the double that is nearest to it, for all digits and all exponents:
where the exponent alone decides, the number is too large for the finite doubles or nearest to zero.
So the double depends on nothing but the number, and a larger number has no smaller double.
-/

namespace ScalarScript

namespace Binary64

open Float.Model.UnpackedFloat (Sign)

/-- The double that a number without a sign is rounded to: the nearest one, of two equally near ones
the even one, and infinity from the middle between the largest finite double and the next power of
two on. -/
structure Rounds (q : ℚ) (x : Float) : Prop where
  unsigned : isNegative x = false
  finite : q < 2 ^ 1024 - 2 ^ 970 → x.isFinite = true
  infinite : 2 ^ 1024 - 2 ^ 970 ≤ q → x = Float.inf
  nearest : x.isFinite = true → ∀ y : Float, y.isFinite = true → |value x - q| ≤ |value y - q|
  even : x.isFinite = true → ∀ y : Float, y.isFinite = true → |value y - q| = |value x - q| →
    value y = value x ∨ Even (code x)

variable {q r : ℚ} {c d : ℕ}

theorem ofCode_infinity : ofCode infinity = Float.inf := rfl

/-- Without its sign a number is not farther from a number that has none. -/
theorem abs_sub_le_apply (hr : 0 ≤ r) (s : Sign) (n : ℕ) :
    |(n : ℚ) - r| ≤ |(s.apply n : ℚ) - r| := by
  cases s with
  | positive => exact le_rfl
  | negative =>
    have hn : (0 : ℚ) ≤ n := n.cast_nonneg
    have hsub : ((Sign.negative.apply n : ℤ) : ℚ) - r = -(n + r) := by
      simp only [Sign.apply]
      push_cast
      ring
    rw [hsub, abs_neg, abs_of_nonneg (by positivity : 0 ≤ (n : ℚ) + r)]
    exact abs_le.mpr ⟨by linarith, by linarith⟩

/-- A double that is as near with its sign as the nearest one has the same value or gives way to an
even code. Both signs of a magnitude are as near only to zero, or if the magnitude is zero. -/
theorem IsNearest.tie (h : IsNearest r c) (hr : 0 ≤ r) (s : Sign) (hd : d ≤ infinity)
    (htie : |(s.apply (units d) : ℚ) - r| = |(units c : ℚ) - r|) :
    s.apply (units d) = units c ∨ Even c := by
  obtain ⟨hle, heven⟩ := h.nearer d hd
  have hsame : |(units d : ℚ) - r| = |(units c : ℚ) - r| :=
    le_antisymm (htie ▸ abs_sub_le_apply hr s (units d)) hle
  rcases heven hsame with rfl | heven
  · cases s with
    | positive => exact Or.inl rfl
    | negative =>
      have hsq := (sq_eq_sq_iff_abs_eq_abs _ _).mpr htie
      simp only [Sign.apply] at hsq ⊢
      push_cast at hsq ⊢
      have hprod : (units d : ℚ) * r = 0 := by linarith
      have hzero : units d = 0 := by
        rcases mul_eq_zero.mp hprod with hd | hr
        · exact_mod_cast hd
        · subst hr
          rw [h.unique (isNearest_zero le_rfl (by norm_num)), units_zero]
      left
      rw [hzero]
      rfl
  · exact Or.inr heven

/-- The middle between the largest finite double and the next power of two, counted in units. -/
theorem threshold_mul_unitsPerOne :
    (2 ^ 1024 - 2 ^ 970 : ℚ) * unitsPerOne = 2 ^ 2098 - 2 ^ 2044 := by
  rw [unitsPerOne_eq, sub_mul, ← pow_add, ← pow_add]

theorem IsNearest.eq_infinity_iff_threshold (h : IsNearest (q * unitsPerOne) c) :
    c = infinity ↔ 2 ^ 1024 - 2 ^ 970 ≤ q := by
  rw [h.eq_infinity_iff, ← threshold_mul_unitsPerOne, mul_le_mul_iff_left₀ unitsPerOne_pos]

/-- A distance of values is one of units. -/
theorem abs_value_sub (s : Sign) (n : ℕ) (q : ℚ) :
    |(s.apply n : ℚ) / unitsPerOne - q| = |(s.apply n : ℚ) - q * unitsPerOne| / unitsPerOne := by
  have hpos := unitsPerOne_pos
  rw [div_sub' hpos.ne', abs_div, abs_of_pos hpos, mul_comm q]

/-- The double of the nearest code is the one that a number is rounded to. -/
theorem IsNearest.rounds (h : IsNearest (q * unitsPerOne) c) (hq : 0 ≤ q) :
    Rounds q (ofCode c) := by
  have hr : 0 ≤ q * unitsPerOne := mul_nonneg hq unitsPerOne_pos.le
  have hcode : code (ofCode c) = c := code_ofCode h.le_infinity
  have hvalue : (ofCode c).isFinite = true → value (ofCode c) = (units c : ℚ) / unitsPerOne := by
    intro hx
    rw [isFinite_iff, hcode] at hx
    exact value_ofCode hx
  have hdist : (ofCode c).isFinite = true →
      |value (ofCode c) - q| = |(units c : ℚ) - q * unitsPerOne| / unitsPerOne := by
    intro hx
    rw [hvalue hx]
    exact abs_value_sub .positive (units c) q
  refine ⟨isNegative_ofCode h.le_infinity, ?_, ?_, ?_, ?_⟩
  · intro hlt
    rw [isFinite_iff, hcode]
    apply h.le_infinity.lt_of_ne
    rw [ne_eq, h.eq_infinity_iff_threshold]
    exact not_le.mpr hlt
  · intro hle
    rw [h.eq_infinity_iff_threshold.mpr hle, ofCode_infinity]
  · intro hx y hy
    rw [hdist hx, value_eq hy, abs_value_sub]
    apply div_le_div_of_nonneg_right _ unitsPerOne_pos.le
    exact (h.nearer (code y) (code_le_infinity (isNaN_of_isFinite hy))).1.trans
      (abs_sub_le_apply hr _ _)
  · intro hx y hy htie
    rw [hdist hx, value_eq hy, abs_value_sub, div_left_inj' unitsPerOne_pos.ne'] at htie
    rw [hvalue hx, value_eq hy, hcode]
    refine (h.tie hr _ (code_le_infinity (isNaN_of_isFinite hy)) htie).imp_left ?_
    intro heq
    rw [heq]
    rfl

end Binary64

namespace Decimal

open Binary64 (IsNearest unitsPerOne)

/-- The number that the digits and the exponent denote. -/
def value (q : Decimal) : ℚ := q.digits * 10 ^ q.exponent

theorem value_nonneg (q : Decimal) : 0 ≤ q.value := by
  unfold value
  positivity

theorem value_eq_div (q : Decimal) :
    q.value = ((q.digits * 10 ^ q.exponent.toNat : ℕ) : ℚ) / (10 ^ (-q.exponent).toNat : ℕ) := by
  have hsplit : q.exponent = (q.exponent.toNat : ℤ) - ((-q.exponent).toNat : ℤ) :=
    (Int.toNat_sub_toNat_neg _).symm
  have hpow : (10 : ℚ) ^ q.exponent = 10 ^ q.exponent.toNat / 10 ^ (-q.exponent).toNat := by
    conv_lhs => rw [hsplit]
    rw [zpow_sub₀ (by norm_num), zpow_natCast, zpow_natCast]
  rw [value, hpow]
  push_cast
  rw [mul_div_assoc]

/-- With these exponents a number is too large for the finite doubles. -/
theorem infinity_le_of_exponent {q : Decimal} (hd : q.digits ≠ 0) (he : 310 ≤ q.exponent) :
    (Binary64.units Binary64.infinity : ℚ) ≤ q.value * unitsPerOne := by
  have hpow : (2 : ℚ) ^ 1024 ≤ 10 ^ 310 := calc
    (2 : ℚ) ^ 1024 = (2 ^ 93) ^ 11 * 2 := by rw [← pow_mul, ← pow_succ]
    _ ≤ (10 ^ 28) ^ 11 * 10 ^ 2 := by gcongr <;> norm_num
    _ = 10 ^ 310 := by rw [← pow_mul, ← pow_add]
  have hvalue : (10 : ℚ) ^ 310 ≤ q.value := by
    have hdigits : (1 : ℚ) ≤ q.digits := by exact_mod_cast Nat.one_le_iff_ne_zero.mpr hd
    have hexponent : (10 : ℚ) ^ (310 : ℤ) ≤ 10 ^ q.exponent := zpow_le_zpow_right₀ (by norm_num) he
    calc
      _ ≤ (10 : ℚ) ^ q.exponent := hexponent
      _ ≤ q.value := le_mul_of_one_le_left (by positivity) hdigits
  have hunits : (Binary64.units Binary64.infinity : ℚ) = 2 ^ 1024 * unitsPerOne := by
    have hshift : Binary64.units Binary64.infinity = 1 <<< (53 + 2045) := by
      rw [Binary64.units_infinity, ← Nat.pow_add, Nat.one_shiftLeft]
    rw [hshift, Binary64.cast_one_shiftLeft, Binary64.unitsPerOne_eq, ← pow_add]
  rw [hunits]
  exact mul_le_mul_of_nonneg_right (hpow.trans hvalue) Binary64.unitsPerOne_pos.le

/-- With these exponents a number is nearest to zero. -/
theorem lt_half_of_exponent {q : Decimal} (he : q.exponent + q.digits.log2 < -330) :
    q.value * unitsPerOne < 1 / 2 := by
  have hpow : (2 : ℚ) ^ 1076 < 10 ^ 331 := calc
    (2 : ℚ) ^ 1076 = (2 ^ 23) ^ 46 * 2 ^ 18 := by rw [← pow_mul, ← pow_add]
    _ < (10 ^ 7) ^ 46 * 10 ^ 9 := by gcongr <;> norm_num
    _ = 10 ^ 331 := by rw [← pow_mul, ← pow_add]
  have hdigits : (q.digits : ℚ) < 2 * 10 ^ q.digits.log2 := by
    have hlt : (q.digits : ℚ) < 2 ^ (q.digits.log2 + 1) := by exact_mod_cast Nat.lt_log2_self
    refine hlt.trans_le ?_
    rw [pow_succ, mul_comm]
    gcongr
    norm_num
  have hvalue : q.value < 2 * 10 ^ (-331 : ℤ) := calc
    q.value < 2 * 10 ^ q.digits.log2 * 10 ^ q.exponent :=
      mul_lt_mul_of_pos_right hdigits (by positivity)
    _ = 2 * 10 ^ (q.exponent + q.digits.log2) := by
      rw [zpow_add₀ (by norm_num), zpow_natCast]
      ring
    _ ≤ 2 * 10 ^ (-331 : ℤ) :=
      mul_le_mul_of_nonneg_left (zpow_le_zpow_right₀ (by norm_num) (by omega)) two_pos.le
  have hneg : (10 : ℚ) ^ (-331 : ℤ) = (10 ^ 331)⁻¹ := by
    rw [zpow_neg]
    rfl
  have hfour : (2 : ℚ) ^ 1076 = 4 * 2 ^ 1074 := by
    rw [pow_add _ 2 1074]
    norm_num
  have hten : (0 : ℚ) < 10 ^ 331 := by positivity
  have htwo : (0 : ℚ) < 2 ^ 1074 := by positivity
  rw [hneg] at hvalue
  rw [hfour] at hpow
  rw [Binary64.unitsPerOne_eq]
  generalize (10 : ℚ) ^ 331 = a at hpow hvalue hten
  generalize (2 : ℚ) ^ 1074 = b at hpow htwo ⊢
  calc
    q.value * b < 2 * a⁻¹ * b := mul_lt_mul_of_pos_right hvalue htwo
    _ = 2 * b / a := by ring
    _ < 1 / 2 := by
      rw [div_lt_div_iff₀ hten two_pos]
      linarith

/-- The code of a decimal number is the nearest one. -/
theorem isNearest_code (q : Decimal) : IsNearest (q.value * unitsPerOne) q.code := by
  unfold code
  split
  next hd =>
    rw [value, hd, Nat.cast_zero, zero_mul, zero_mul]
    exact Binary64.isNearest_zero le_rfl (by norm_num)
  next hd =>
    split
    next he => exact Binary64.isNearest_infinity (infinity_le_of_exponent hd he)
    next =>
      split
      next he =>
        exact Binary64.isNearest_zero (mul_nonneg q.value_nonneg Binary64.unitsPerOne_pos.le)
          (lt_half_of_exponent he)
      next =>
        have hden : 0 < 10 ^ (-q.exponent).toNat := Nat.pow_pos (by decide)
        have hnearest := Binary64.isNearest_nearest
          (q.digits * 10 ^ q.exponent.toNat * unitsPerOne) hden
        rwa [Nat.cast_mul _ unitsPerOne, mul_div_right_comm, ← value_eq_div] at hnearest

theorem rounds_toFloat (q : Decimal) : Binary64.Rounds q.value q.toFloat :=
  q.isNearest_code.rounds q.value_nonneg

variable {q q' : Decimal}

/-- Only the number matters. -/
theorem toFloat_eq_of_value_eq (h : q.value = q'.value) : q.toFloat = q'.toFloat := by
  have hnearest := q'.isNearest_code
  rw [← h] at hnearest
  rw [toFloat, toFloat, q.isNearest_code.unique hnearest]

/-- A larger number has no smaller double. -/
theorem toFloat_le_of_value_le (h : q.value ≤ q'.value) : q.toFloat ≤ q'.toFloat := by
  have hnearest := q.isNearest_code
  have hnearest' := q'.isNearest_code
  rw [toFloat, toFloat,
    Binary64.ofCode_le_ofCode_iff hnearest.le_infinity hnearest'.le_infinity]
  exact hnearest.mono hnearest' (mul_le_mul_of_nonneg_right h Binary64.unitsPerOne_pos.le)

end Decimal
end ScalarScript
