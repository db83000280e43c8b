import ScalarScript.Decimal

/-!
# The shortest decimal of a double

A double is written with the fewest digits that read back to it. The decimals with a given last
place form a grid, and if any point of a grid reads back, so does one of the two points around
the double. The search therefore looks at these two on ever finer grids and takes the first hit:
of two hits the nearer, and of two equally near ones the upper. It ends at the grid that holds
the double itself.
-/

namespace ScalarScript
namespace Decimal

/-- Decimal places that write a magnitude exactly: each halving of a whole number takes one more. -/
def exactPlaces (code : Nat) : Nat := 1074 - Binary64.scale code

/-- The magnitude in units of the last of its exact places, still to be divided by `unitsPerOne`. -/
def scaledUnits (code : Nat) : Nat := Binary64.units code * Nat.pow 10 (exactPlaces code)

/-- All the digits of a magnitude. -/
def exact (code : Nat) : Decimal := ⟨scaledUnits code / Binary64.unitsPerOne, -exactPlaces code⟩

/-- Every place below the point brings a factor of five into the digits. -/
theorem scaledUnits_eq (code : Nat) :
    scaledUnits code =
      Binary64.significand code * Nat.pow 5 (exactPlaces code) *
        1 <<< (Binary64.scale code + exactPlaces code) := by
  have ten : Nat.pow 10 (exactPlaces code) = 5 ^ exactPlaces code * 2 ^ exactPlaces code :=
    Nat.mul_pow 5 2 _
  rw [scaledUnits, ten, Binary64.units, Nat.shiftLeft_eq, Nat.shiftLeft_eq, Nat.one_mul,
    Nat.pow_add]
  exact Nat.mul_mul_mul_comm _ _ _ _

/-- The exact places leave no remainder. -/
theorem unitsPerOne_dvd_scaledUnits (code : Nat) : Binary64.unitsPerOne ∣ scaledUnits code := by
  rw [scaledUnits_eq]
  exact Nat.dvd_mul_left_of_dvd (Binary64.one_shiftLeft_dvd (by unfold exactPlaces; omega)) _

theorem digits_exact_mul (code : Nat) :
    (exact code).digits * Binary64.unitsPerOne = scaledUnits code :=
  Nat.div_mul_cancel (unitsPerOne_dvd_scaledUnits code)

theorem pow_five_le_digits_exact {code : Nat} (positive : 0 < code) :
    Nat.pow 5 (exactPlaces code) ≤ (exact code).digits := by
  have unit : 0 < Binary64.unitsPerOne := by decide
  have significand : 1 ≤ Binary64.significand code := by
    unfold Binary64.significand Binary64.hiddenBit
    split <;> omega
  refine (Nat.le_div_iff_mul_le unit).2 ?_
  rw [scaledUnits_eq]
  refine Nat.mul_le_mul (Nat.le_mul_of_pos_left _ significand) (Nat.le_of_dvd ?_ ?_)
  · rw [Nat.one_shiftLeft]
    exact Nat.two_pow_pos _
  · exact Binary64.one_shiftLeft_dvd (by unfold exactPlaces; omega)

/-- The exact decimal reads back. -/
theorem code_exact {code : Nat} (positive : 0 < code) (finite : code < Binary64.infinity) :
    (exact code).code = code := by
  have five : 0 < Nat.pow 5 (exactPlaces code) := Nat.pow_pos (by decide)
  have nonzero : (exact code).digits ≠ 0 :=
    Nat.ne_of_gt (Nat.lt_of_lt_of_le five (pow_five_le_digits_exact positive))
  have bits : exactPlaces code ≤ (exact code).digits.log2 :=
    (Nat.le_log2 nonzero).2
      (Nat.le_trans (Nat.pow_le_pow_left (by decide) _) (pow_five_le_digits_exact positive))
  have exponent : (exact code).exponent = -exactPlaces code := rfl
  have whole : Nat.pow 10 0 = 1 := rfl
  rw [Decimal.code, if_neg nonzero, exponent, if_neg (by omega), if_neg (by omega),
    Int.neg_neg, Int.toNat_natCast, Int.toNat_of_nonpos (by omega), whole, Nat.mul_one,
    digits_exact_mul]
  exact Binary64.nearest_units finite (Nat.pow_pos (by decide))

/-- The neighbour that reads back on the grid `n` places coarser than the exact one. -/
def neighbour? (code n : Nat) : Option Decimal :=
  let step := Binary64.unitsPerOne * Nat.pow 10 n
  let below : Decimal := ⟨scaledUnits code / step, n - exactPlaces code⟩
  let above : Decimal := ⟨scaledUnits code / step + 1, n - exactPlaces code⟩
  if below.code = code ∧ (2 * (scaledUnits code % step) < step ∨ above.code ≠ code) then some below
  else if above.code = code then some above
  else none

theorem code_of_neighbour? {code n : Nat} {q : Decimal} (h : neighbour? code n = some q) :
    q.code = code := by
  simp only [neighbour?] at h
  split at h
  next below => simp_all
  next =>
    split at h
    next above => simp_all
    next => simp at h

/-- The first hit on the grids from `n` places coarser down to the exact one. -/
def firstFrom (code : Nat) : Nat → Decimal
  | 0 => exact code
  | n + 1 => (neighbour? code (n + 1)).getD (firstFrom code n)

theorem code_firstFrom {code : Nat} (positive : 0 < code) (finite : code < Binary64.infinity)
    (n : Nat) : (firstFrom code n).code = code := by
  induction n with
  | zero => exact code_exact positive finite
  | succ n ih =>
    rw [firstFrom]
    cases found : neighbour? code (n + 1) with
    | none => exact ih
    | some q => exact code_of_neighbour? found

/-- An exponent of ten whose power is above the magnitude; `log₁₀ 2` lies between `0.30102` and
`0.30103`, close enough for all exponents that occur. -/
def ceilingExponent (code : Nat) : Int :=
  ((Binary64.units code).log2 + 1 - 1074 : Int) * 30103 / 100000 + 1

def shortest (code : Nat) : Decimal :=
  if code = 0 then ⟨0, 0⟩
  else firstFrom code (exactPlaces code + ceilingExponent code).toNat

/-- What is written reads back. -/
theorem code_shortest {code : Nat} (finite : code < Binary64.infinity) :
    (shortest code).code = code := by
  unfold shortest
  split
  next zero => rw [zero]; rfl
  next nonzero => exact code_firstFrom (Nat.pos_of_ne_zero nonzero) finite _

end Decimal
end ScalarScript
