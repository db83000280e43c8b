import ScalarScript.Proofs.Number.Bits
import ScalarScript.Proofs.Number.Rounding

/-!
# Values of doubles

A finite double stands for the number that its significand and its exponent make up, which is its
magnitude in units with its sign. The order of doubles is the order of their codes while the sign
bit is clear, and a finite double is compared with zero as its value is.
-/

namespace ScalarScript
namespace Binary64

open Float.Model Float.Model.UnpackedFloat

variable {x y : Float} {s : Sign} {c d : ℕ} {u v : UnpackedFloat}
  {b : BitVec Format.binary64.numBits}

theorem code_pos (h : 0 < significand c) : 0 < c := by
  apply Nat.pos_of_ne_zero
  rintro rfl
  exact absurd h (by decide)

/-- What the double with a sign and a code unpacks to. -/
inductive Unpacked (s : Sign) : ℕ → UnpackedFloat → Prop
  | zero : Unpacked s 0 (.zero s)
  | finite {c m : ℕ} {e : ℤ} (hc : c < infinity) (hpos : 0 < m) (hm : m = significand c)
      (he : e = scale c - 1074) : Unpacked s c (.finite s m e hpos)
  | infinity : Unpacked s infinity (.infinity s)

/-- The fields below the sign bit, told from the code. -/
theorem fields_of_code (hc : b.toNat % signBit = c) :
    (unpackExponent b).toNat = c / hiddenBit ∧ (unpackMantissa b).toNat = c % hiddenBit := by
  have hhidden : hiddenBit = 4503599627370496 := rfl
  have hsignBit : signBit = 9223372036854775808 := rfl
  rw [toNat_unpackExponent, toNat_unpackMantissa, ← hc, hhidden, hsignBit]
  constructor <;> omega

theorem unpacked_unpack (hc : b.toNat % signBit = c) (hle : c ≤ infinity) :
    Unpacked (Sign.ofBitVec (unpackSign b)) c (UnpackedFloat.unpack .binary64 b) := by
  obtain ⟨hexponent, hmantissa⟩ := fields_of_code hc
  rw [UnpackedFloat.unpack]
  generalize Sign.ofBitVec (unpackSign b) = s
  split
  next he =>
    have htop : c / hiddenBit = 2047 := by
      rw [← hexponent, he]
      rfl
    obtain rfl : c = infinity := hle.antisymm (Nat.mul_le_of_le_div _ _ _ htop.ge)
    rw [if_pos (BitVec.eq_of_toNat_eq hmantissa)]
    exact .infinity
  next he =>
    have hlt : c < infinity := by
      refine hle.lt_of_ne ?_
      rintro rfl
      exact he (BitVec.eq_of_toNat_eq hexponent)
    split
    next hzero =>
      have hsmall : c / hiddenBit = 0 := by
        rw [← hexponent, hzero]
        rfl
      have hsubnormal : c < hiddenBit := (Nat.div_eq_zero_iff_lt hiddenBit_pos).mp hsmall
      rw [Nat.mod_eq_of_lt hsubnormal] at hmantissa
      split
      next hm =>
        obtain rfl : c = 0 := by
          rw [← hmantissa, hm]
          rfl
        exact .zero
      next hm =>
        refine .finite hlt _ ?_ ?_
        · rw [hmantissa, significand, if_pos hsubnormal]
        · rw [hexponent, scale, hsmall]
          rfl
    next hzero =>
      have hnormal : c / hiddenBit ≠ 0 := by
        rw [← hexponent]
        exact fun heq => hzero (BitVec.eq_of_toNat_eq heq)
      have hlarge : ¬ c < hiddenBit := fun h => hnormal (Nat.div_eq_of_lt h)
      refine .finite hlt _ ?_ ?_
      · rw [toNat_implicit_append, hmantissa, significand, if_neg hlarge]
      · rw [hexponent, scale]
        show (c / hiddenBit : ℤ) - 1075 = _
        omega

def sign (x : Float) : Sign := if isNegative x then .negative else .positive

theorem sign_positive (h : isNegative x = false) : sign x = .positive := by
  rw [sign, h, if_neg Bool.false_ne_true]

theorem ofBitVec_unpackSign (b : BitVec Format.binary64.numBits) :
    Sign.ofBitVec (unpackSign b) = if signBit ≤ b.toNat then .negative else .positive := by
  have hsign := toNat_unpackSign b
  have hlt : b.toNat < 2 * signBit := b.isLt
  split
  next h =>
    have hone : unpackSign b = 1#1 := by
      apply BitVec.eq_of_toNat_eq
      rw [hsign]
      exact Nat.div_eq_of_lt_le ((Nat.one_mul _).trans_le h) hlt
    rw [hone]
    rfl
  next h =>
    have hzero : unpackSign b = 0#1 := by
      apply BitVec.eq_of_toNat_eq
      rw [hsign, Nat.div_eq_of_lt (Nat.lt_of_not_le h)]
      rfl
    rw [hzero]
    rfl

/-- A double that is a number unpacks to its sign and its magnitude. -/
theorem unpacked (hn : x.isNaN = false) : Unpacked (sign x) (code x) x.toModel.unpack := by
  have hunpack := unpacked_unpack (b := x.toBits.toBitVec) rfl (code_le_infinity hn)
  rw [ofBitVec_unpackSign] at hunpack
  simp only [sign, isNegative, decide_eq_true_eq]
  exact hunpack

theorem lt_iff_compare : x < y ↔ x.toModel.unpack.compare y.toModel.unpack = some .lt := by
  simp only [LT.lt, Float.lt, Float.Model.lt, UnpackedFloat.lt, decide_eq_true_eq, beq_iff_eq]

theorem le_iff_compare :
    x ≤ y ↔ (x.toModel.unpack.compare y.toModel.unpack).any (·.isLE) = true := by
  show decide (UnpackedFloat.le _ _ = true) = true ↔ _
  exact decide_eq_true_iff

theorem beq_iff_compare :
    (x == y) = true ↔ x.toModel.unpack.compare y.toModel.unpack = some .eq := by
  show (x.toModel.unpack.compare y.toModel.unpack == some .eq) = true ↔ _
  exact beq_iff_eq

/-- A larger scale makes a larger code. -/
theorem lt_of_scale_lt (h : scale c < scale d) : c < d := by
  have hlow : hiddenBit ≤ significand d :=
    (hiddenBit_le_significand d).resolve_right (Nat.ne_zero_of_lt h)
  have hmul : (scale c + 1) * hiddenBit ≤ scale d * hiddenBit := Nat.mul_le_mul_right _ h
  have hhigh := significand_lt c
  rw [Nat.add_mul, Nat.one_mul] at hmul
  rw [code_eq c, code_eq d]
  omega

theorem compare_scale_significand (c d : ℕ) :
    (compare (scale c) (scale d)).then (compare (significand c) (significand d)) = compare c d := by
  rcases lt_trichotomy (scale c) (scale d) with hlt | heq | hgt
  · rw [compare_lt_iff_lt.mpr hlt, compare_lt_iff_lt.mpr (lt_of_scale_lt hlt)]
    rfl
  · have hc := code_eq c
    have hd := code_eq d
    rw [heq] at hc
    have hlt : significand c < significand d ↔ c < d := by omega
    have hgt : significand d < significand c ↔ d < c := by omega
    rw [compare_eq_iff_eq.mpr heq, Ordering.eq_then]
    simp only [Nat.compare_eq_ite_lt, hlt, hgt]
  · rw [compare_gt_iff_gt.mpr hgt, compare_gt_iff_gt.mpr (lt_of_scale_lt hgt)]
    rfl

/-- Without the sign bit codes order doubles. -/
theorem Unpacked.compare_eq (hu : Unpacked .positive c u) (hv : Unpacked .positive d v) :
    u.compare v = some (compare c d) := by
  cases hu with
  | zero =>
    cases hv with
    | zero => rfl
    | finite _ hpos hm => exact congrArg some (compare_lt_iff_lt.mpr (code_pos (hm ▸ hpos))).symm
    | infinity => rfl
  | finite hc hpos hm he =>
    cases hv with
    | zero => exact congrArg some (compare_gt_iff_gt.mpr (code_pos (hm ▸ hpos))).symm
    | finite _ _ hm' he' =>
      subst hm he hm' he'
      have hexponent : compare ((scale c : ℤ) - 1074) (scale d - 1074) =
          compare (scale c) (scale d) := by
        simp only [Int.compare_eq_ite_lt, Nat.compare_eq_ite_lt, sub_lt_sub_iff_right, Nat.cast_lt]
      rw [← compare_scale_significand, ← hexponent]
      rfl
    | infinity => exact congrArg some (compare_lt_iff_lt.mpr hc).symm
  | infinity =>
    cases hv with
    | zero => rfl
    | finite hd => exact congrArg some (compare_gt_iff_gt.mpr hd).symm
    | infinity => exact congrArg some (compare_eq_iff_eq.mpr rfl).symm

theorem ofCode_le_ofCode_iff (hc : c ≤ infinity) (hd : d ≤ infinity) :
    ofCode c ≤ ofCode d ↔ c ≤ d := by
  have hu := unpacked (isNaN_ofCode hc)
  have hv := unpacked (isNaN_ofCode hd)
  rw [sign_positive (isNegative_ofCode hc), code_ofCode hc] at hu
  rw [sign_positive (isNegative_ofCode hd), code_ofCode hd] at hv
  rw [le_iff_compare, hu.compare_eq hv, Option.any_some, Nat.isLE_compare]

/-- The number that a sign, a significand and an exponent make up. -/
def unpackedValue : UnpackedFloat → ℚ
  | .finite s m e _ => s.apply m * 2 ^ e
  | _ => 0

/-- The number that a finite double stands for. -/
def value (x : Float) : ℚ := unpackedValue x.toModel.unpack

theorem isNaN_of_isFinite (hx : x.isFinite = true) : x.isNaN = false := by
  have hlt := (isFinite_iff x).mp hx
  rw [Bool.eq_false_iff, ne_eq, isNaN_iff]
  omega

theorem apply_zero (s : Sign) : s.apply 0 = 0 := by cases s <;> rfl

theorem apply_mul (s : Sign) (a b : ℤ) : s.apply (a * b) = s.apply a * b := by
  cases s
  · exact neg_mul_eq_neg_mul a b
  · rfl

theorem cast_one_shiftLeft (n : ℕ) : ((1 <<< n : ℕ) : ℚ) = 2 ^ n := by
  rw [Nat.one_shiftLeft, Nat.cast_pow, Nat.cast_ofNat]

theorem unitsPerOne_eq : (unitsPerOne : ℚ) = 2 ^ 1074 := cast_one_shiftLeft 1074

theorem unitsPerOne_pos : (0 : ℚ) < unitsPerOne := by
  rw [unitsPerOne_eq]
  exact pow_pos two_pos _

theorem two_zpow_scale (n : ℕ) : (2 : ℚ) ^ ((n : ℤ) - 1074) = 2 ^ n / unitsPerOne := by
  rw [unitsPerOne_eq, zpow_sub₀ two_ne_zero, zpow_natCast]
  rfl

theorem unpackedValue_eq (hu : Unpacked s c u) (hc : c < infinity) :
    unpackedValue u = s.apply (units c) / unitsPerOne := by
  cases hu with
  | zero =>
    rw [units_zero, Nat.cast_zero, apply_zero, Int.cast_zero, zero_div]
    rfl
  | finite _ hpos hm he =>
    subst hm he
    rw [unpackedValue, two_zpow_scale, units_eq, Nat.cast_mul, apply_mul, Int.cast_mul,
      mul_div_assoc, Nat.cast_pow, Int.cast_pow]
    rfl
  | infinity => exact absurd hc (lt_irrefl _)

/-- The value of a finite double is its magnitude with its sign. -/
theorem value_eq (hx : x.isFinite = true) :
    value x = (sign x).apply (units (code x)) / unitsPerOne :=
  unpackedValue_eq (unpacked (isNaN_of_isFinite hx)) ((isFinite_iff x).mp hx)

theorem isFinite_ofCode (hc : c < infinity) : (ofCode c).isFinite = true := by
  rwa [isFinite_iff, code_ofCode hc.le]

theorem value_ofCode (hc : c < infinity) : value (ofCode c) = units c / unitsPerOne := by
  rw [value_eq (isFinite_ofCode hc), sign_positive (isNegative_ofCode hc.le), code_ofCode hc.le]
  rfl

theorem compare_zero (hu : u.isFinite = true) :
    u.compare (.zero s) = some (compare (unpackedValue u) 0) := by
  cases u with
  | infinity => cases hu
  | notANumber => cases hu
  | zero =>
    rw [compare_eq_iff_eq.mpr (show unpackedValue (.zero _) = 0 from rfl)]
    rfl
  | finite t m e hpos =>
    have hmagnitude : (0 : ℚ) < m * 2 ^ e := by positivity
    cases t with
    | negative =>
      have hneg : unpackedValue (.finite .negative m e hpos) < 0 := by
        simpa [unpackedValue, Sign.apply] using hmagnitude
      rw [compare_lt_iff_lt.mpr hneg]
      rfl
    | positive =>
      have hpositive : 0 < unpackedValue (.finite .positive m e hpos) := by
        simpa [unpackedValue, Sign.apply] using hmagnitude
      rw [compare_gt_iff_gt.mpr hpositive]
      rfl

theorem unpack_zero : (0 : Float).toModel.unpack = .zero .positive := rfl

/-- A finite double is negative as its value is. -/
theorem lt_zero_iff (hx : x.isFinite = true) : x < 0 ↔ value x < 0 := by
  rw [lt_iff_compare, unpack_zero, compare_zero hx, Option.some_inj, compare_lt_iff_lt]
  rfl

/-- Both zeros and nothing else are equal to zero. -/
theorem beq_zero_iff (hx : x.isFinite = true) : (x == 0) = true ↔ value x = 0 := by
  rw [beq_iff_compare, unpack_zero, compare_zero hx, Option.some_inj, compare_eq_iff_eq]
  rfl

end Binary64
end ScalarScript
