/-!
# Magnitudes of doubles

The sixty-three bits of a double below its sign bit, read as a natural number, are its *code*.
Codes order magnitudes: consecutive codes are consecutive doubles, from zero through the
subnormals and the normals up to infinity. Every finite magnitude is a whole number of
`2 ^ -1074`, so its value is kept as that natural number, `units`, and exact arithmetic on
doubles is arithmetic on `Nat` without fractions and signed exponents.
-/

namespace ScalarScript
namespace Binary64

/-- The leading bit of a normal significand, which is not stored; the number of codes that share an
exponent. -/
def hiddenBit : Nat := 1 <<< 52

/-- The sign bit, just above all codes. -/
def signBit : Nat := 1 <<< 63

/-- The code of infinity. Smaller codes are finite magnitudes, larger ones are not numbers. -/
def infinity : Nat := 2047 * hiddenBit

def significand (code : Nat) : Nat :=
  if code < hiddenBit then code else hiddenBit + code % hiddenBit

/-- Doublings from a significand to `units`; subnormals share scale zero with the first normals. -/
def scale (code : Nat) : Nat := code / hiddenBit - 1

/-- The number one counted in `2 ^ -1074`. -/
def unitsPerOne : Nat := 1 <<< 1074

/-- The magnitude counted in `2 ^ -1074`. -/
def units (code : Nat) : Nat := significand code <<< scale code

theorem units_of_subnormal {code : Nat} (h : code < hiddenBit) : units code = code := by
  rw [units, significand, scale, if_pos h, Nat.div_eq_of_lt h, Nat.zero_sub, Nat.shiftLeft_zero]

/-- A normal code is read off its scale and significand. -/
theorem units_of_normal {s m : Nat} (low : hiddenBit ≤ m) (high : m < 2 * hiddenBit) :
    units (s * hiddenBit + m) = m <<< s := by
  have positive : 0 < hiddenBit := by decide
  have normal : ¬ s * hiddenBit + m < hiddenBit := by omega
  have total : s * hiddenBit + m = (s + 1) * hiddenBit + (m - hiddenBit) := by
    rw [Nat.add_mul, Nat.one_mul]
    omega
  have quotient : (s * hiddenBit + m) / hiddenBit = s + 1 := by
    rw [total, Nat.add_comm, Nat.add_mul_div_right _ _ positive,
      Nat.div_eq_of_lt (by omega), Nat.zero_add]
  have remainder : (s * hiddenBit + m) % hiddenBit = m - hiddenBit := by
    rw [total, Nat.add_comm, Nat.add_mul_mod_self_right, Nat.mod_eq_of_lt (by omega)]
  rw [units, significand, scale, if_neg normal, quotient, remainder, Nat.add_sub_cancel,
    Nat.add_sub_cancel' low]

/-- A code is made of its scale and its significand, which is a whole one unless the scale is
zero. -/
theorem code_eq (code : Nat) : code = scale code * hiddenBit + significand code := by
  unfold scale significand
  rw [show hiddenBit = 4503599627370496 from rfl]
  split <;> omega

/-- The integer nearest to `num / den`; of two equally near ones, the even one. -/
def roundHalfEven (num den : Nat) : Nat :=
  let quotient := num / den
  let remainder := num % den
  if 2 * remainder < den then quotient
  else if den < 2 * remainder then quotient + 1
  else quotient + quotient % 2

@[simp] theorem roundHalfEven_mul_self {den : Nat} (n : Nat) (h : 0 < den) :
    roundHalfEven (n * den) den = n := by
  simp [roundHalfEven, Nat.mul_div_cancel _ h, h]

/-- The code nearest to `num / den` units. The quotient is rounded to 53 significant bits, fewer
below the normal range; a significand that rounds up past them carries into the scale by itself,
and all that lies beyond the largest finite code is infinity. -/
def nearest (num den : Nat) : Nat :=
  let shift := (num / den).log2 - 52
  min (shift * hiddenBit + roundHalfEven num (den <<< shift)) infinity

theorem one_shiftLeft_dvd {m n : Nat} (h : m ≤ n) : 1 <<< m ∣ 1 <<< n := by
  rw [Nat.one_shiftLeft, Nat.one_shiftLeft]
  exact Nat.pow_dvd_pow 2 h

theorem log2_shiftLeft {m k : Nat} (s : Nat) (low : 1 <<< k ≤ m) (high : m < 1 <<< (k + 1)) :
    (m <<< s).log2 = k + s := by
  rw [Nat.shiftLeft_eq, Nat.one_mul] at *
  have positive : m ≠ 0 := by
    have := Nat.two_pow_pos k
    omega
  rw [Nat.log2_eq_iff (Nat.mul_ne_zero positive (Nat.ne_of_gt (Nat.two_pow_pos s)))]
  constructor
  · rw [Nat.pow_add]
    exact Nat.mul_le_mul_right _ low
  · rw [Nat.add_right_comm, Nat.pow_add]
    exact Nat.mul_lt_mul_of_pos_right high (Nat.two_pow_pos s)

/-- A magnitude that is a double is its own nearest double. -/
theorem nearest_units {code den : Nat} (finite : code < infinity) (h : 0 < den) :
    nearest (units code * den) den = code := by
  have round : ∀ shift, (units code).log2 - 52 = shift →
      roundHalfEven (units code * den) (den <<< shift) + shift * hiddenBit = code →
      nearest (units code * den) den = code := by
    intro shift log rounded
    rw [nearest, Nat.mul_div_cancel _ h, log, Nat.add_comm, rounded]
    exact Nat.min_eq_left (Nat.le_of_lt finite)
  by_cases small : code < hiddenBit
  · apply round 0
    · rw [units_of_subnormal small]
      have : code.log2 < 52 := by
        by_cases zero : code = 0
        · simp [zero]
        · exact (Nat.log2_lt zero).2 small
      omega
    · rw [units_of_subnormal small, Nat.shiftLeft_zero, roundHalfEven_mul_self _ h]
      simp
  · have low : hiddenBit ≤ significand code := by
      rw [significand, if_neg small]
      exact Nat.le_add_right _ _
    have high : significand code < 2 * hiddenBit := by
      have := Nat.mod_lt code (show 0 < hiddenBit by decide)
      rw [significand, if_neg small]
      omega
    apply round (scale code)
    · rw [units, log2_shiftLeft _ low high]
      omega
    · have : units code * den = significand code * (den <<< scale code) := by
        rw [units, Nat.shiftLeft_eq, Nat.shiftLeft_eq, Nat.mul_assoc,
          Nat.mul_comm den]
      have positive : 0 < den <<< scale code := by
        rw [Nat.shiftLeft_eq]
        exact Nat.mul_pos h (Nat.two_pow_pos _)
      rw [this, roundHalfEven_mul_self _ positive, Nat.add_comm, ← code_eq]

def ofCode (code : Nat) : Float := Float.ofBits (UInt64.ofNat code)

def code (x : Float) : Nat := x.toBits.toNat % signBit

/-- Whether the sign bit is set; it tells the two zeros apart. -/
def isNegative (x : Float) : Bool := signBit ≤ x.toBits.toNat

end Binary64
end ScalarScript
