import ScalarScript.Binary64
import Mathlib

/-!
# Bits of doubles

A double is packed from the sign, the exponent and the significand that it unpacks to, and nothing
is lost on the way unless it is not a number, of which there is only one. So a double without its
sign bit is determined by its code, each code up to that of infinity belongs to a double, and the
larger codes are not numbers. A double with its sign bit is the negation of the one without it.
-/

namespace ScalarScript
namespace Binary64

open Float.Model Float.Model.UnpackedFloat

variable {b b' : BitVec Format.binary64.numBits} {e : BitVec Format.binary64.exponentBits}
  {m : BitVec Format.binary64.mantissaBitsWithoutImplicit}

/-- The fields of a pattern make up all of it. -/
theorem packComponents_eq (he : unpackExponent b = e) (hm : unpackMantissa b = m) :
    packComponents .binary64 (Sign.ofBitVec (unpackSign b)) e m = b := by
  have hsign : ∀ s : BitVec 1, (Sign.ofBitVec s).toBitVec = s := by decide
  subst he hm
  unfold packComponents unpackExponent unpackMantissa unpackSign BitVec.extractLsb
  rw [hsign]
  ext i hi
  grind

theorem log2_lt_of_mantissa (h : 0 < m.toNat) : m.toNat.log2 < 52 :=
  (Nat.log2_lt (Nat.ne_of_gt h)).mpr m.isLt

theorem toNat_implicit_append (m : BitVec Format.binary64.mantissaBitsWithoutImplicit) :
    (1#1 ++ m).toNat = hiddenBit + m.toNat := by
  rw [BitVec.toNat_append, ← Nat.shiftLeft_add_eq_or_of_lt m.isLt]
  rfl

theorem log2_implicit_append (m : BitVec Format.binary64.mantissaBitsWithoutImplicit) :
    (1#1 ++ m).toNat.log2 = 52 := by
  have hlt : m.toNat < 4503599627370496 := m.isLt
  have hhidden : hiddenBit = 4503599627370496 := rfl
  rw [toNat_implicit_append, hhidden, Nat.log2_eq_iff (by omega)]
  omega

theorem pack_subnormal (s : Sign) (h : 0 < m.toNat) :
    UnpackedFloat.pack .binary64 (.finite s m.toNat (-1074) h) =
      packComponents .binary64 s 0#_ m := by
  have hlog := log2_lt_of_mantissa h
  have hnormal : ¬ m.toNat.log2 + 1 = Format.binary64.mantissaBits := by
    show ¬ m.toNat.log2 + 1 = 53
    omega
  unfold UnpackedFloat.pack
  rw [if_neg (by decide), if_neg hnormal, BitVec.ofNat_toNat, BitVec.setWidth_eq]

theorem pack_normal (s : Sign) (he : e ≠ -1#_) (h : 0 < (1#1 ++ m).toNat) :
    UnpackedFloat.pack .binary64 (.finite s (1#1 ++ m).toNat (e.toNat - 1075) h) =
      packComponents .binary64 s e m := by
  have hlt : e.toNat < 2048 := e.isLt
  have hne : e.toNat ≠ 2047 := fun heq => he (BitVec.eq_of_toNat_eq heq)
  have hbiased : ((e.toNat : Int) - 1075 + (Format.binary64.exponentBias : Nat) +
      (Format.binary64.mantissaBitsWithoutImplicit : Nat)).toNat = e.toNat := by
    show ((e.toNat : Int) - 1075 + 1023 + 52).toNat = e.toNat
    omega
  have hsmall : ¬ 2 ^ Format.binary64.exponentBits ≤ e.toNat + 1 := by
    show ¬ 2048 ≤ e.toNat + 1
    omega
  have hmantissa :
      BitVec.ofNat Format.binary64.mantissaBitsWithoutImplicit (1#1 ++ m).toNat = m := by
    apply BitVec.eq_of_toNat_eq
    rw [toNat_implicit_append, BitVec.toNat_ofNat]
    show (hiddenBit + m.toNat) % hiddenBit = m.toNat
    rw [Nat.add_mod_left]
    exact Nat.mod_eq_of_lt m.isLt
  have hlog : (1#1 ++ m).toNat.log2 + 1 = Format.binary64.mantissaBits := by
    rw [log2_implicit_append]
    rfl
  unfold UnpackedFloat.pack
  simp only [hbiased]
  rw [if_neg hsmall, if_pos hlog, hmantissa, BitVec.ofNat_toNat, BitVec.setWidth_eq]

/-- A valid pattern is packed from what it unpacks to. -/
theorem pack_unpack (hb : Format.binary64.Valid b) :
    UnpackedFloat.pack .binary64 (UnpackedFloat.unpack .binary64 b) = b := by
  rw [UnpackedFloat.unpack]
  split
  next he =>
    split
    next hm => exact packComponents_eq he hm
    next hm => exact (hb.eq_packedNaN he hm).symm
  next he =>
    split
    next hzero =>
      split
      next hm => exact packComponents_eq hzero hm
      next hm =>
        have hexponent : ((unpackExponent b).toNat : Int) - ((Format.binary64.exponentBias : Nat) +
            (Format.binary64.mantissaBitsWithoutImplicit : Nat)) + 1 = -1074 := by
          rw [hzero]
          rfl
        simp only [hexponent]
        rw [pack_subnormal]
        exact packComponents_eq hzero rfl
    next hzero =>
      exact (pack_normal _ he _).trans (packComponents_eq rfl rfl)

theorem toNat_unpackExponent (b : BitVec Format.binary64.numBits) :
    (unpackExponent b).toNat = b.toNat / hiddenBit % 2048 := by
  unfold unpackExponent BitVec.extractLsb
  rw [BitVec.toNat_cast, BitVec.extractLsb'_toNat, Nat.shiftRight_eq_div_pow]
  rfl

theorem toNat_unpackMantissa (b : BitVec Format.binary64.numBits) :
    (unpackMantissa b).toNat = b.toNat % hiddenBit := by
  unfold unpackMantissa BitVec.extractLsb
  rw [BitVec.toNat_cast, BitVec.extractLsb'_toNat, Nat.shiftRight_zero]
  rfl

theorem toNat_unpackSign (b : BitVec Format.binary64.numBits) :
    (unpackSign b).toNat = b.toNat / signBit := by
  have hlt : b.toNat < 2 ^ 64 := b.isLt
  unfold unpackSign BitVec.extractLsb
  rw [BitVec.toNat_cast, BitVec.extractLsb'_toNat, Nat.shiftRight_eq_div_pow]
  show b.toNat / 2 ^ 63 % 2 ^ 1 = b.toNat / 2 ^ 63
  omega

/-- A pattern is not a number if its bits below the sign are above those of infinity. -/
theorem notANumber_iff (b : BitVec Format.binary64.numBits) :
    (unpackExponent b = -1#_ ∧ unpackMantissa b ≠ 0#_) ↔ infinity < b.toNat % signBit := by
  have hexponent : unpackExponent b = -1#_ ↔ b.toNat / hiddenBit % 2048 = 2047 := by
    rw [← toNat_unpackExponent, ← BitVec.toNat_inj]
    rfl
  have hmantissa : unpackMantissa b = 0#_ ↔ b.toNat % hiddenBit = 0 := by
    rw [← toNat_unpackMantissa, ← BitVec.toNat_inj]
    rfl
  have hhidden : hiddenBit = 4503599627370496 := rfl
  have hsign : signBit = 9223372036854775808 := rfl
  rw [hexponent, ne_eq, hmantissa, infinity, hhidden, hsign]
  omega

theorem ofBits_toBits (x : Float) : Float.ofBits x.toBits = x := by
  obtain ⟨bits, hvalid⟩ := x
  have hpack := pack_unpack hvalid
  simp only [Float.ofBits, Float.toBits, Float.Model.ofBits, Float.Model.pack, hpack]

theorem toBits_ofBits {u : UInt64} (h : Format.binary64.Valid u.toBitVec) :
    (Float.ofBits u).toBits = u := by
  have hpack := pack_unpack h
  simp only [Float.ofBits, Float.toBits, Float.Model.ofBits, Float.Model.pack, hpack]

theorem isNaN_iff (x : Float) : x.isNaN = true ↔ infinity < code x := by
  unfold code
  rw [show x.toBits.toNat = x.toBits.toBitVec.toNat from rfl, ← notANumber_iff]
  show (UnpackedFloat.unpack .binary64 x.toBits.toBitVec).isNaN = true ↔ _
  rw [UnpackedFloat.unpack]
  split
  next he =>
    split
    next hm => simp [UnpackedFloat.isNaN, hm]
    next hm => simp [UnpackedFloat.isNaN, he, hm]
  next he =>
    refine iff_of_false ?_ (fun h => he h.1)
    split
    next => split <;> exact Bool.false_ne_true
    next => exact Bool.false_ne_true

theorem code_le_infinity {x : Float} (hn : x.isNaN = false) : code x ≤ infinity := by
  rw [← Nat.not_lt, ← isNaN_iff, hn]
  exact Bool.false_ne_true

/-- The magnitudes below that of infinity are the finite ones. -/
theorem isFinite_iff (x : Float) : x.isFinite = true ↔ code x < infinity := by
  have hexponent : ∀ b : BitVec Format.binary64.numBits,
      unpackExponent b ≠ -1#_ ↔ b.toNat % signBit < infinity := by
    intro b
    have hlt : (unpackExponent b).toNat < 2048 := (unpackExponent b).isLt
    rw [ne_eq, ← BitVec.toNat_inj, toNat_unpackExponent]
    show ¬ b.toNat / 4503599627370496 % 2048 = 2047 ↔
      b.toNat % 9223372036854775808 < 2047 * 4503599627370496
    omega
  refine Iff.trans ?_ (hexponent x.toBits.toBitVec)
  show (UnpackedFloat.unpack .binary64 x.toBits.toBitVec).isFinite = true ↔ _
  rw [UnpackedFloat.unpack]
  split
  next he =>
    refine iff_of_false ?_ (fun h => h he)
    split <;> exact Bool.false_ne_true
  next he =>
    refine iff_of_true ?_ he
    split
    next => split <;> rfl
    next => rfl

variable {c : Nat}

theorem toNat_ofNat_lt (h : c ≤ infinity) : (UInt64.ofNat c).toNat = c := by
  have hfits : infinity < 2 ^ 64 := by decide
  rw [UInt64.toNat_ofNat', Nat.mod_eq_of_lt (by omega)]

theorem toBits_ofCode (h : c ≤ infinity) : (ofCode c).toBits = UInt64.ofNat c := by
  apply toBits_ofBits
  constructor
  intro he hm
  have hlarge := (notANumber_iff _).mp ⟨he, hm⟩
  have hmod := Nat.mod_le (UInt64.ofNat c).toNat signBit
  rw [UInt64.toNat_toBitVec] at hlarge
  rw [toNat_ofNat_lt h] at hlarge hmod
  omega

theorem code_ofCode (h : c ≤ infinity) : code (ofCode c) = c := by
  have hsign : infinity < signBit := by decide
  rw [code, toBits_ofCode h, toNat_ofNat_lt h, Nat.mod_eq_of_lt (by omega)]

theorem isNegative_ofCode (h : c ≤ infinity) : isNegative (ofCode c) = false := by
  have hsign : infinity < signBit := by decide
  rw [isNegative, toBits_ofCode h, toNat_ofNat_lt h, decide_eq_false_iff_not]
  omega

theorem isNaN_ofCode (h : c ≤ infinity) : (ofCode c).isNaN = false := by
  rw [Bool.eq_false_iff, ne_eq, isNaN_iff, code_ofCode h]
  omega

/-- A double without its sign bit is told by its code. -/
theorem ofCode_code {x : Float} (h : isNegative x = false) : ofCode (code x) = x := by
  have hlt : x.toBits.toNat < signBit := by simpa [isNegative] using h
  rw [ofCode, code, Nat.mod_eq_of_lt hlt, UInt64.ofNat_toNat, ofBits_toBits]

variable {x : Float}

/-- Setting the sign bit negates: the other fields stay as they are. -/
theorem neg_unpack (h : b'.toNat = signBit + b.toNat) :
    (UnpackedFloat.unpack .binary64 b).neg = UnpackedFloat.unpack .binary64 b' := by
  have hlt : b'.toNat < 2 ^ 64 := b'.isLt
  have hsignBit : signBit = 9223372036854775808 := rfl
  have hhidden : hiddenBit = 4503599627370496 := rfl
  have hexponent : unpackExponent b' = unpackExponent b := by
    apply BitVec.eq_of_toNat_eq
    rw [toNat_unpackExponent, toNat_unpackExponent, h, hhidden, hsignBit]
    omega
  have hmantissa : unpackMantissa b' = unpackMantissa b := by
    apply BitVec.eq_of_toNat_eq
    rw [toNat_unpackMantissa, toNat_unpackMantissa, h, hhidden, hsignBit]
    omega
  have hplus : unpackSign b = 0#1 := by
    apply BitVec.eq_of_toNat_eq
    rw [toNat_unpackSign, hsignBit]
    show _ = 0
    omega
  have hminus : unpackSign b' = 1#1 := by
    apply BitVec.eq_of_toNat_eq
    rw [toNat_unpackSign, hsignBit]
    show _ = 1
    omega
  have hsign : Sign.ofBitVec (unpackSign b') = -Sign.ofBitVec (unpackSign b) := by
    rw [hplus, hminus]
    rfl
  unfold UnpackedFloat.unpack
  simp only [hexponent, hmantissa, hsign]
  split
  next => split <;> rfl
  next =>
    split
    next => split <;> rfl
    next => rfl

theorem neg_eq_of_toBits {y : Float} (h : x.toBits.toNat = signBit + y.toBits.toNat) : -y = x := by
  obtain ⟨bits, hvalid⟩ := x
  obtain ⟨bits', hvalid'⟩ := y
  have hunpack := neg_unpack h
  have hpack := pack_unpack hvalid
  show Float.ofModel (Float.Model.pack (UnpackedFloat.unpack .binary64 bits'.toBitVec).neg) = _
  simp only [Float.Model.pack, Float.toBits] at hunpack ⊢
  simp only [hunpack, hpack]

/-- A double with the sign bit is the negation of the one without it. -/
theorem neg_ofCode_code (hn : x.isNaN = false) (hs : isNegative x = true) :
    -ofCode (code x) = x := by
  have hle := code_le_infinity hn
  have hnegative : signBit ≤ x.toBits.toNat := by simpa [isNegative] using hs
  have hlt : x.toBits.toNat < 2 ^ 64 := x.toBits.toBitVec.isLt
  have hsignBit : signBit = 9223372036854775808 := rfl
  apply neg_eq_of_toBits
  rw [toBits_ofCode hle, toNat_ofNat_lt hle, code]
  rw [hsignBit] at hnegative ⊢
  omega

end Binary64
end ScalarScript
