import ScalarScript.Binary64
import Mathlib

/-!
# Rounding

Codes order magnitudes, and the code that a quotient is rounded to belongs to the magnitude nearest
to it, or of two equally near ones to that with the even code. Infinity takes part as the magnitude
that would come next after the largest finite one, which is where a number becomes too large for the
finite ones. So the code is determined by the number, and it grows with it.
-/

namespace ScalarScript
namespace Binary64

variable {c c' d num den s m : ℕ} {r r' : ℚ}

theorem hiddenBit_pos : 0 < hiddenBit := by decide

theorem even_hiddenBit : Even hiddenBit := by decide

theorem significand_lt (c : ℕ) : significand c < 2 * hiddenBit := by
  have hmod := Nat.mod_lt c hiddenBit_pos
  unfold significand
  split <;> omega

theorem hiddenBit_le_significand (c : ℕ) : hiddenBit ≤ significand c ∨ scale c = 0 := by
  by_cases h : c < hiddenBit
  · right
    rw [scale, Nat.div_eq_of_lt h]
  · left
    rw [significand, if_neg h]
    exact Nat.le_add_right _ _

theorem units_eq (c : ℕ) : units c = significand c * 2 ^ scale c := Nat.shiftLeft_eq _ _

/-- A significand of the full width and one more belong to the same scale; the last one is also the
first of the next scale. -/
theorem units_of_significand (low : hiddenBit ≤ m ∨ s = 0) (high : m ≤ 2 * hiddenBit) :
    units (s * hiddenBit + m) = m * 2 ^ s := by
  rw [← Nat.shiftLeft_eq]
  rcases high.lt_or_eq with hlt | rfl
  · by_cases h : hiddenBit ≤ m
    · exact units_of_normal h hlt
    · obtain rfl := low.resolve_left h
      simpa using units_of_subnormal (Nat.lt_of_not_le h)
  · have hnext : s * hiddenBit + 2 * hiddenBit = (s + 1) * hiddenBit + hiddenBit := by ring
    rw [hnext, units_of_normal le_rfl (by decide), Nat.shiftLeft_eq, Nat.shiftLeft_eq]
    ring

theorem units_lt_succ (c : ℕ) : units c < units (c + 1) := by
  have hsucc : c + 1 = scale c * hiddenBit + (significand c + 1) := by
    rw [← Nat.add_assoc, ← code_eq]
  have hlow : hiddenBit ≤ significand c + 1 ∨ scale c = 0 :=
    (hiddenBit_le_significand c).imp_left fun h => h.trans (Nat.le_succ _)
  rw [hsucc, units_of_significand hlow (significand_lt c), units_eq]
  exact Nat.mul_lt_mul_of_pos_right (Nat.lt_succ_self _) (Nat.two_pow_pos _)

/-- Codes order magnitudes. -/
theorem units_strictMono : StrictMono units := strictMono_nat_of_lt_succ units_lt_succ

theorem units_zero : units 0 = 0 := rfl

theorem units_infinity : units infinity = 2 ^ 53 * 2 ^ 2045 := by
  have hcode : infinity = 2045 * hiddenBit + 2 * hiddenBit := by decide
  rw [hcode, units_of_significand (Or.inl (by decide)) le_rfl, show 2 * hiddenBit = 2 ^ 53 from rfl]

/-- The largest finite magnitude. -/
theorem units_pred_infinity : units (infinity - 1) = (2 ^ 53 - 1) * 2 ^ 2045 := by
  have hcode : infinity - 1 = 2045 * hiddenBit + (2 * hiddenBit - 1) := by decide
  rw [hcode, units_of_significand (Or.inl (by decide)) (by decide),
    show 2 * hiddenBit = 2 ^ 53 from rfl]

/-- The magnitude of `c` is as near to `r` as that of `d`, and if `d` is as near, then `c` is
even. -/
def Nearer (r : ℚ) (c d : ℕ) : Prop :=
  |(units c : ℚ) - r| ≤ |(units d : ℚ) - r| ∧
    (|(units d : ℚ) - r| = |(units c : ℚ) - r| → d = c ∨ Even c)

/-- The code of the magnitude nearest to `r` units. -/
structure IsNearest (r : ℚ) (c : ℕ) : Prop where
  le_infinity : c ≤ infinity
  nearer : ∀ d ≤ infinity, Nearer r c d

theorem nearer_of_lt (h : |(units c : ℚ) - r| < |(units d : ℚ) - r|) : Nearer r c d :=
  ⟨h.le, fun heq => absurd heq h.ne'⟩

theorem nearer_refl (r : ℚ) (c : ℕ) : Nearer r c c := ⟨le_rfl, fun _ => Or.inl rfl⟩

theorem units_lt_cast (h : c < d) : (units c : ℚ) < units d := by
  exact_mod_cast units_strictMono h

theorem units_le_cast (h : c ≤ d) : (units c : ℚ) ≤ units d := by
  exact_mod_cast units_strictMono.monotone h

/-- A number less than half a unit is nearest to zero. -/
theorem isNearest_zero (hr : 0 ≤ r) (hlt : r < 1 / 2) : IsNearest r 0 where
  le_infinity := Nat.zero_le _
  nearer d _ := by
    rcases Nat.eq_zero_or_pos d with rfl | hd
    · exact nearer_refl r 0
    · have hone : (1 : ℚ) ≤ units d := by
        have := units_strictMono hd
        rw [units_zero] at this
        exact_mod_cast this
      apply nearer_of_lt
      rw [units_zero, Nat.cast_zero, zero_sub, abs_neg, abs_of_nonneg hr,
        abs_of_nonneg (by linarith)]
      linarith

/-- A number not below the magnitude of infinity is nearest to it. -/
theorem isNearest_infinity (hr : (units infinity : ℚ) ≤ r) : IsNearest r infinity where
  le_infinity := le_rfl
  nearer d hd := by
    rcases hd.lt_or_eq with hlt | rfl
    · have hunits := units_lt_cast hlt
      apply nearer_of_lt
      rw [abs_of_nonpos (by linarith), abs_of_nonpos (by linarith)]
      linarith
    · exact nearer_refl r infinity

/-- A code preferred to a smaller one is that of a number in the upper half between them. -/
theorem midpoint_le (h : Nearer r c d) (hlt : d < c) : (units c + units d : ℚ) / 2 ≤ r := by
  have hunits := units_lt_cast hlt
  by_contra hr
  have hle := h.1
  rw [abs_of_nonneg (by linarith)] at hle
  rcases abs_cases ((units d : ℚ) - r) with ⟨heq, -⟩ | ⟨heq, -⟩ <;> linarith

theorem le_midpoint (h : Nearer r c d) (hlt : c < d) : r ≤ (units c + units d : ℚ) / 2 := by
  have hunits := units_lt_cast hlt
  by_contra hr
  have hle := h.1
  rw [abs_of_nonpos (by linarith)] at hle
  rcases abs_cases ((units d : ℚ) - r) with ⟨heq, -⟩ | ⟨heq, -⟩ <;> linarith

/-- At the midpoint of two magnitudes both are equally near. -/
theorem abs_sub_midpoint (hr : r = (units c + units d : ℚ) / 2) :
    |(units d : ℚ) - r| = |(units c : ℚ) - r| := by
  have hneg : (units d : ℚ) - r = -(units c - r) := by
    rw [hr]
    ring
  rw [hneg, abs_neg]

/-- Larger numbers have larger codes. Codes that change places would both be even, and then one
between them is nearer. -/
theorem IsNearest.mono (h : IsNearest r c) (h' : IsNearest r' c') (hr : r ≤ r') : c ≤ c' := by
  by_contra hlt
  rw [not_le] at hlt
  have hc := h.nearer c' h'.le_infinity
  have hc' := h'.nearer c h.le_infinity
  have hlow := midpoint_le hc hlt
  have hhigh := le_midpoint hc' hlt
  have hmid : r = (units c + units c' : ℚ) / 2 := by linarith
  have hmid' : r' = (units c' + units c : ℚ) / 2 := by linarith
  have heven := (hc.2 (abs_sub_midpoint hmid)).resolve_left hlt.ne
  have heven' := (hc'.2 (abs_sub_midpoint hmid')).resolve_left hlt.ne'
  have hbetween : c' + 1 < c := by grind
  have hle := midpoint_le (h.nearer (c' + 1) (hbetween.le.trans h.le_infinity)) hbetween
  have hunits := units_lt_cast (Nat.lt_succ_self c')
  linarith

theorem IsNearest.unique (h : IsNearest r c) (h' : IsNearest r c') : c = c' :=
  Nat.le_antisymm (h.mono h' le_rfl) (h'.mono h le_rfl)

/-- The midpoint of the largest finite magnitude and that of infinity. -/
theorem midpoint_infinity :
    (units (infinity - 1) + units infinity : ℚ) / 2 = 2 ^ 2098 - 2 ^ 2044 := by
  have htop : (2 : ℚ) ^ 2098 = 2 ^ 54 * 2 ^ 2044 := by rw [← pow_add]
  have hcast : (2 : ℚ) ^ 2044 = ((2 ^ 2044 : ℕ) : ℚ) := by rw [Nat.cast_pow, Nat.cast_ofNat]
  rw [units_pred_infinity, units_infinity, pow_succ _ 2044, htop, hcast]
  generalize 2 ^ 2044 = step
  push_cast
  ring

/-- From that midpoint on the code is that of infinity, as the last finite one is odd. -/
theorem IsNearest.eq_infinity_iff (h : IsNearest r c) :
    c = infinity ↔ (2 ^ 2098 - 2 ^ 2044 : ℚ) ≤ r := by
  have hpred : infinity - 1 < infinity := by decide
  rw [← midpoint_infinity]
  constructor
  · rintro rfl
    rw [add_comm]
    exact midpoint_le (h.nearer _ hpred.le) hpred
  · intro hr
    by_contra hne
    have hlt : c < infinity := lt_of_le_of_ne h.le_infinity hne
    have hinfinity := h.nearer infinity le_rfl
    have hle := le_midpoint hinfinity hlt
    have hunits : (units c : ℚ) ≤ units (infinity - 1) := units_le_cast (Nat.le_pred_of_lt hlt)
    have hsame : (units c : ℚ) = units (infinity - 1) := by linarith
    obtain rfl : c = infinity - 1 := units_strictMono.injective (by exact_mod_cast hsame)
    have hmid : r = (units (infinity - 1) + units infinity : ℚ) / 2 := by linarith
    have heven := (hinfinity.2 (abs_sub_midpoint hmid)).resolve_left (Ne.symm hne)
    exact absurd heven (by decide)

/-- The quotient and which half of the next integer the rest reaches decide the integer. -/
theorem roundHalfEven_cases (num : ℕ) (hden : 0 < den) :
    ∃ f : ℚ, (num : ℚ) / den = (num / den : ℕ) + f ∧ 0 ≤ f ∧ f < 1 ∧
      (f < 1 / 2 ∧ roundHalfEven num den = num / den ∨
        1 / 2 < f ∧ roundHalfEven num den = num / den + 1 ∨
        f = 1 / 2 ∧ roundHalfEven num den = num / den + num / den % 2) := by
  have hpos : (0 : ℚ) < den := by exact_mod_cast hden
  have hmod : ((num % den : ℕ) : ℚ) < den := by exact_mod_cast Nat.mod_lt num hden
  have hsplit : (num : ℚ) = den * (num / den : ℕ) + (num % den : ℕ) := by
    exact_mod_cast (Nat.div_add_mod num den).symm
  refine ⟨(num % den : ℕ) / den, ?_, by positivity, (div_lt_one hpos).mpr hmod, ?_⟩
  · rw [hsplit]
    field_simp
  · unfold roundHalfEven
    rw [div_lt_iff₀ hpos, lt_div_iff₀ hpos, div_eq_iff hpos.ne']
    rcases lt_trichotomy (2 * (num % den)) den with hlt | heq | hgt
    · left
      have : (2 * (num % den : ℕ) : ℚ) < den := by exact_mod_cast hlt
      exact ⟨by linarith, if_pos hlt⟩
    · right; right
      have : (2 * (num % den : ℕ) : ℚ) = den := by exact_mod_cast heq
      exact ⟨by linarith, by simp [heq]⟩
    · right; left
      have : (den : ℚ) < 2 * (num % den : ℕ) := by exact_mod_cast hgt
      exact ⟨by linarith, by simp [hgt, hgt.le]⟩

/-- The rounded integer is as near as the nearer one of the two around the quotient, and it is that
one unless it is even. -/
theorem roundHalfEven_between (num : ℕ) (hden : 0 < den) :
    ∃ f : ℚ, (num : ℚ) / den = (num / den : ℕ) + f ∧ 0 ≤ f ∧ f < 1 ∧
      ∃ dist, |(roundHalfEven num den : ℚ) - num / den| = dist ∧ dist ≤ f ∧ dist ≤ 1 - f ∧
        (dist = f → roundHalfEven num den = num / den ∨ Even (roundHalfEven num den)) ∧
        (dist = 1 - f → roundHalfEven num den = num / den + 1 ∨ Even (roundHalfEven num den)) := by
  obtain ⟨f, hf, h0, h1, hround⟩ := roundHalfEven_cases num hden
  refine ⟨f, hf, h0, h1, ?_⟩
  rw [hf]
  generalize num / den = q at hround ⊢
  have hfloor : |(q : ℚ) - (q + f)| = f := by
    rw [sub_add_cancel_left, abs_neg, abs_of_nonneg h0]
  have hceil : |((q + 1 : ℕ) : ℚ) - (q + f)| = 1 - f := by
    rw [Nat.cast_succ, add_sub_add_left_eq_sub, abs_of_pos (by linarith)]
  rcases hround with ⟨hlt, hr⟩ | ⟨hgt, hr⟩ | ⟨hhalf, hr⟩
  · rw [hr]
    exact ⟨f, hfloor, le_rfl, by linarith, fun _ => Or.inl rfl, fun h => by linarith⟩
  · rw [hr]
    exact ⟨1 - f, hceil, by linarith, le_rfl, fun h => by linarith, fun _ => Or.inl rfl⟩
  · have heven : Even (roundHalfEven num den) := by
      rw [hr, Nat.even_iff]
      omega
    refine ⟨f, ?_, le_rfl, by linarith, fun _ => Or.inr heven, fun _ => Or.inr heven⟩
    rw [hr]
    rcases Nat.mod_two_eq_zero_or_one q with hq | hq
    · rw [hq, Nat.add_zero, hfloor]
    · rw [hq, hceil]
      linarith

/-- No integer is nearer than the rounded one, and of two equally near ones it is even. -/
theorem roundHalfEven_nearest (num : ℕ) (hden : 0 < den) (k : ℕ) :
    |(roundHalfEven num den : ℚ) - num / den| ≤ |(k : ℚ) - num / den| ∧
      (|(k : ℚ) - num / den| = |(roundHalfEven num den : ℚ) - num / den| →
        k = roundHalfEven num den ∨ Even (roundHalfEven num den)) := by
  obtain ⟨f, hf, h0, h1, dist, hdist, hfloor, hceil, hlow, hhigh⟩ := roundHalfEven_between num hden
  rw [hdist, hf]
  rcases Nat.lt_or_ge (num / den) k with hlt | hle
  · have hcast : ((num / den : ℕ) + 1 : ℚ) ≤ k := by exact_mod_cast hlt
    rw [abs_of_nonneg (by linarith)]
    refine ⟨by linarith, fun htie => ?_⟩
    have hk : (k : ℚ) = (num / den : ℕ) + 1 := by linarith
    rw [show k = num / den + 1 by exact_mod_cast hk]
    exact (hhigh (by linarith)).imp_left Eq.symm
  · have hcast : (k : ℚ) ≤ (num / den : ℕ) := by exact_mod_cast hle
    rw [abs_of_nonpos (by linarith)]
    refine ⟨by linarith, fun htie => ?_⟩
    have hk : (k : ℚ) = (num / den : ℕ) := by linarith
    rw [show k = num / den by exact_mod_cast hk]
    exact (hlow (by linarith)).imp_left Eq.symm

/-- The scale of a quotient leaves as many bits of it as a significand has, or all of them. -/
theorem quotient_mem_scale (num den : ℕ) :
    (hiddenBit ≤ num / (den <<< ((num / den).log2 - 52)) ∨ (num / den).log2 - 52 = 0) ∧
      num / (den <<< ((num / den).log2 - 52)) < 2 * hiddenBit := by
  rw [Nat.shiftLeft_eq, ← Nat.div_div_eq_div_mul]
  generalize num / den = q
  have hbelow : q < 2 ^ (q.log2 + 1) := Nat.lt_log2_self
  by_cases h : 52 ≤ q.log2
  · have hq : q ≠ 0 := by
      rintro rfl
      simp at h
    have habove : 2 ^ q.log2 ≤ q := Nat.log2_self_le hq
    obtain ⟨s, hs⟩ := Nat.exists_eq_add_of_le h
    rw [hs] at hbelow habove ⊢
    rw [Nat.add_sub_cancel_left, Nat.div_lt_iff_lt_mul (Nat.two_pow_pos s),
      Nat.le_div_iff_mul_le (Nat.two_pow_pos s), show hiddenBit = 2 ^ 52 from rfl, ← Nat.pow_add]
    refine ⟨Or.inl habove, hbelow.trans_eq ?_⟩
    ring
  · have hs : q.log2 - 52 = 0 := by omega
    have hpow : 2 ^ (q.log2 + 1) ≤ hiddenBit :=
      Nat.pow_le_pow_right (by decide) (show q.log2 + 1 ≤ 52 by omega)
    rw [hs, Nat.pow_zero, Nat.div_one]
    exact ⟨Or.inr rfl, by omega⟩

theorem roundHalfEven_mem (num den : ℕ) :
    num / den ≤ roundHalfEven num den ∧ roundHalfEven num den ≤ num / den + 1 := by
  simp only [roundHalfEven]
  split_ifs <;> omega

/-- A magnitude is a whole number of steps of a scale, or it is below the normal range there. -/
theorem units_mem_grid (d s : ℕ) :
    (∃ k, units d = k * 2 ^ s) ∨ s ≠ 0 ∧ units d < hiddenBit * 2 ^ s := by
  rw [units_eq]
  rcases Nat.lt_or_ge (scale d) s with hlt | hle
  · right
    refine ⟨Nat.ne_zero_of_lt hlt, ?_⟩
    calc
      _ < 2 * hiddenBit * 2 ^ scale d :=
        Nat.mul_lt_mul_of_pos_right (significand_lt d) (Nat.two_pow_pos _)
      _ = hiddenBit * 2 ^ (scale d + 1) := by ring
      _ ≤ hiddenBit * 2 ^ s := Nat.mul_le_mul_left _ (Nat.pow_le_pow_right (by decide) hlt)
  · left
    refine ⟨significand d * 2 ^ (scale d - s), ?_⟩
    rw [Nat.mul_assoc, ← Nat.pow_add, Nat.sub_add_cancel hle]

/-- A quotient counted in the steps of a scale. -/
theorem div_eq_mul_step (num : ℕ) (hden : 0 < den) (s : ℕ) :
    (num : ℚ) / den = num / (den <<< s : ℕ) * 2 ^ s := by
  have hne : (den : ℚ) ≠ 0 := by exact_mod_cast hden.ne'
  rw [Nat.shiftLeft_eq]
  push_cast
  field_simp

theorem abs_step_sub (k s : ℕ) (r : ℚ) :
    |((k * 2 ^ s : ℕ) : ℚ) - r * 2 ^ s| = |(k : ℚ) - r| * 2 ^ s := by
  have hpos : (0 : ℚ) < 2 ^ s := by positivity
  push_cast
  rw [← sub_mul, abs_mul, abs_of_pos hpos]

/-- Without the largest code the rounded one is preferred to all others. -/
theorem exists_nearer (num : ℕ) (hden : 0 < den) :
    ∃ c, nearest num den = min c infinity ∧ ∀ d, Nearer (num / den) c d := by
  refine ⟨_, rfl, fun d => ?_⟩
  obtain ⟨hlow, hhigh⟩ := quotient_mem_scale num den
  generalize (num / den).log2 - 52 = s at hlow hhigh ⊢
  obtain ⟨hfloor, hceil⟩ := roundHalfEven_mem num (den <<< s)
  have hstep : 0 < den <<< s := by
    rw [Nat.shiftLeft_eq]
    positivity
  have hround := roundHalfEven_nearest num hstep
  have hcode : units (s * hiddenBit + roundHalfEven num (den <<< s)) =
      roundHalfEven num (den <<< s) * 2 ^ s :=
    units_of_significand (hlow.imp_left hfloor.trans') (by omega)
  have hpos : (0 : ℚ) < 2 ^ s := by positivity
  rw [div_eq_mul_step num hden s]
  rcases units_mem_grid d s with ⟨k, hk⟩ | ⟨hs, hlt⟩
  · obtain ⟨hle, htie⟩ := hround k
    unfold Nearer
    rw [hcode, hk, abs_step_sub, abs_step_sub, mul_le_mul_iff_left₀ hpos, mul_left_inj' hpos.ne']
    refine ⟨hle, fun heq => ?_⟩
    rcases htie heq with rfl | heven
    · left
      apply units_strictMono.injective
      rw [hk, hcode]
    · exact Or.inr ((even_hiddenBit.mul_left s).add heven)
  · have hnormal : (hiddenBit : ℚ) ≤ num / (den <<< s : ℕ) := by
      have hcast : (0 : ℚ) < (den <<< s : ℕ) := by exact_mod_cast hstep
      have hle := (Nat.le_div_iff_mul_le hstep).mp (hlow.resolve_right hs)
      rw [le_div_iff₀ hcast]
      exact_mod_cast hle
    have hunits : (units d : ℚ) < hiddenBit * 2 ^ s := by exact_mod_cast hlt
    have hbelow := mul_le_mul_of_nonneg_right hnormal hpos.le
    have hfirst := (hround hiddenBit).1
    rw [abs_of_nonpos (sub_nonpos.mpr hnormal)] at hfirst
    have hscaled := mul_le_mul_of_nonneg_right hfirst hpos.le
    apply nearer_of_lt
    rw [hcode, abs_step_sub, abs_of_nonpos (by linarith : (units d : ℚ) - _ ≤ 0)]
    linarith

/-- Rounding a quotient gives the code of the magnitude nearest to it. -/
theorem isNearest_nearest (num : ℕ) (hden : 0 < den) :
    IsNearest (num / den) (nearest num den) := by
  obtain ⟨c, hc, hnearer⟩ := exists_nearer num hden
  rw [hc]
  rcases le_or_gt c infinity with hle | hgt
  · rw [min_eq_left hle]
    exact ⟨hle, fun d _ => hnearer d⟩
  · rw [min_eq_right hgt.le]
    apply isNearest_infinity
    have hmid := midpoint_le (hnearer infinity) hgt
    have hunits := units_lt_cast hgt
    linarith

end Binary64
end ScalarScript
