import ScalarScript.Decimal.Style
import ScalarScript.Proofs.Lexical.Longest
import ScalarScript.Proofs.Number.Bits

/-!
# Literals of doubles

Each double that is a number and has no sign bit has a literal that stands for it: all its places,
and for infinity a literal with an exponent, since no written place reaches it. No other double is
the value of a literal, because a literal is rounded to a code up to that of infinity.
-/

namespace ScalarScript
namespace Decimal

open Lexical Computability

theorem code_le_infinity (q : Decimal) : q.code ≤ Binary64.infinity := by
  unfold code
  split
  · exact Nat.zero_le _
  · split
    · exact Nat.le_refl _
    · split
      · exact Nat.zero_le _
      · exact Nat.min_le_right _ _

theorem isNaN_toFloat (q : Decimal) : q.toFloat.isNaN = false :=
  Binary64.isNaN_ofCode q.code_le_infinity

theorem isNegative_toFloat (q : Decimal) : Binary64.isNegative q.toFloat = false :=
  Binary64.isNegative_ofCode q.code_le_infinity

variable {ds es : List Char}

theorem isExponentMark_of_isDigit {c : Char} (h : c.isDigit = true) : isExponentMark c = false := by
  rw [isExponentMark, Bool.or_eq_false_iff, decide_eq_false_iff_not, decide_eq_false_iff_not]
  constructor
  · rintro rfl
    cases h
  · rintro rfl
    cases h

theorem bne_point_of_isDigit {c : Char} (h : c.isDigit = true) : (c != '.') = true := by
  rw [bne_iff_ne]
  rintro rfl
  cases h

theorem ofLiteral_of_forall {text : List Char} (h : ∀ c ∈ text, isExponentMark c = false) :
    ofLiteral text =
      ⟨Nat.ofDigitChars 10
          (text.takeWhile (· != '.') ++ (text.dropWhile (· != '.')).drop 1) 0,
        -(((text.dropWhile (· != '.')).drop 1).length : Int)⟩ := by
  have hmark : ∀ c ∈ text, (!isExponentMark c) = true := fun c hc => by rw [h c hc]; rfl
  have htake : text.takeWhile (!isExponentMark ·) = text := List.takeWhile_eq_self_iff.mpr hmark
  have hdrop : text.dropWhile (!isExponentMark ·) = [] := List.dropWhile_eq_nil_iff.mpr hmark
  unfold ofLiteral
  simp only [htake, hdrop, List.drop_nil, signedDigits, Nat.ofDigitChars_nil]
  rw [Nat.cast_zero, zero_sub]

theorem ofLiteral_whole (h : Digits ds) : ofLiteral ds = ⟨Nat.ofDigitChars 10 ds 0, 0⟩ := by
  have hpoint : ∀ c ∈ ds, (c != '.') = true := fun c hc => bne_point_of_isDigit (h c hc)
  have htake : ds.takeWhile (· != '.') = ds := List.takeWhile_eq_self_iff.mpr hpoint
  have hdrop : ds.dropWhile (· != '.') = [] := List.dropWhile_eq_nil_iff.mpr hpoint
  rw [ofLiteral_of_forall fun c hc => isExponentMark_of_isDigit (h c hc), htake, hdrop]
  simp

theorem isExponentMark_fraction (hd : Digits ds) (he : Digits es) :
    ∀ c ∈ ds ++ '.' :: es, isExponentMark c = false := by
  intro c hc
  rcases List.mem_append.mp hc with hc | hc
  · exact isExponentMark_of_isDigit (hd c hc)
  · rcases List.mem_cons.mp hc with rfl | hc
    · rfl
    · exact isExponentMark_of_isDigit (he c hc)

theorem ofLiteral_fraction (hd : Digits ds) (he : Digits es) :
    ofLiteral (ds ++ '.' :: es) = ⟨Nat.ofDigitChars 10 (ds ++ es) 0, -(es.length : Int)⟩ := by
  have hpoint : ∀ c ∈ ds, (c != '.') = true := fun c hc => bne_point_of_isDigit (hd c hc)
  rw [ofLiteral_of_forall (isExponentMark_fraction hd he), List.takeWhile_append_of_pos hpoint,
    List.dropWhile_append_of_pos hpoint]
  simp

variable {q : Decimal}

theorem digits_digitChars (q : Decimal) : Digits q.digitChars := fun _ hc =>
  Nat.isDigit_of_mem_toDigits (by decide) (by decide) hc

theorem ofDigitChars_digitChars (q : Decimal) : Nat.ofDigitChars 10 q.digitChars 0 = q.digits :=
  Nat.ofDigitChars_ten_toDigits

theorem digits_replicate_zero (n : Nat) : Digits (List.replicate n '0') := by
  intro c hc
  rw [List.eq_of_mem_replicate hc]
  rfl

/-- Moving zeros from the exponent into the digits changes nothing. -/
theorem code_mul_pow {d k : Nat} (h : code ⟨d, k⟩ ≠ Binary64.infinity) :
    code ⟨d * 10 ^ k, 0⟩ = code ⟨d, k⟩ := by
  by_cases hd : d = 0
  · subst hd
    simp [code]
  · have hk : ¬ (310 : Int) ≤ k := by
      intro hk
      apply h
      rw [code, if_neg hd, if_pos hk]
    have hpow : d * 10 ^ k ≠ 0 := Nat.mul_ne_zero hd (Nat.ne_of_gt (Nat.pow_pos (by decide)))
    unfold code
    simp only [if_neg hpow, if_neg hd, if_neg hk]
    rw [if_neg (by omega), if_neg (by omega), if_neg (by omega)]
    simp

/-- The places of a number are its digits and then zeros, or digits on both sides of a point. -/
theorem inPlaces_cases (q : Decimal) :
    (∃ k : ℕ, q.exponent = k ∧ q.inPlaces [] = q.digitChars ++ List.replicate k '0') ∨
      ∃ us vs, q.inPlaces [] = us ++ '.' :: vs ∧ us ≠ [] ∧ Digits us ∧ Digits vs ∧
        q.exponent = -(vs.length : ℤ) ∧ Nat.ofDigitChars 10 (us ++ vs) 0 = q.digits := by
  have hdigits := digits_digitChars q
  have hvalue := ofDigitChars_digitChars q
  unfold inPlaces
  generalize q.digitChars = ds at hdigits hvalue ⊢
  by_cases he : 0 ≤ q.exponent
  · left
    refine ⟨q.exponent.toNat, (Int.toNat_of_nonneg he).symm, ?_⟩
    rw [if_pos he, List.append_nil]
  · right
    have hplaces : q.exponent = -((-q.exponent).toNat : ℤ) := by omega
    generalize (-q.exponent).toNat = places at hplaces ⊢
    rw [if_neg he]
    by_cases hlt : places < ds.length
    · refine ⟨ds.take (ds.length - places), ds.drop (ds.length - places), if_pos hlt,
        ?_, ?_, ?_, ?_, ?_⟩
      · apply List.ne_nil_of_length_pos
        rw [List.length_take]
        omega
      · exact fun c hc => hdigits c (List.mem_of_mem_take hc)
      · exact fun c hc => hdigits c (List.mem_of_mem_drop hc)
      · rw [hplaces, List.length_drop]
        omega
      · rw [List.take_append_drop, hvalue]
    · refine ⟨['0'], List.replicate (places - ds.length) '0' ++ ds, if_neg hlt, by simp,
        digits_replicate_zero 1, (digits_replicate_zero _).append hdigits, ?_, ?_⟩
      · rw [hplaces, List.length_append, List.length_replicate]
        omega
      · rw [← List.append_assoc, Nat.ofDigitChars_append, ← List.replicate_one,
          ← List.replicate_add, Nat.ofDigitChars_replicate_zero, Nat.mul_zero, hvalue]

/-- All places of a finite number stand for it. -/
theorem code_ofLiteral_inPlaces (h : q.code ≠ Binary64.infinity) :
    (ofLiteral (q.inPlaces [])).code = q.code := by
  obtain ⟨d, e⟩ := q
  rcases inPlaces_cases ⟨d, e⟩ with ⟨k, rfl, heq⟩ | ⟨us, vs, heq, -, hu, hv, rfl, rfl⟩
  · have hdigits := (digits_digitChars ⟨d, k⟩).append (digits_replicate_zero k)
    rw [heq, ofLiteral_whole hdigits, Nat.ofDigitChars_append, ofDigitChars_digitChars,
      Nat.ofDigitChars_replicate_zero, Nat.mul_comm]
    exact code_mul_pow h
  · rw [heq, ofLiteral_fraction hu hv]

theorem mem_number {f e : List Char} (hne : ds ≠ []) (hd : Digits ds)
    (hf : f ∈ Lexical.optional (oneOf {'.'} * (oneOf digit)∗))
    (he : e ∈ Lexical.optional Lexical.exponent) :
    ds ++ f ++ e ∈ language .number :=
  Language.append_mem_mul (Language.append_mem_mul (mem_repeated_digit.mpr ⟨hne, hd⟩) hf) he

theorem whole_mem_number (hne : ds ≠ []) (hd : Digits ds) : ds ∈ language .number := by
  have hmem := mem_number hne hd (mem_optional.mpr (Or.inl rfl)) (mem_optional.mpr (Or.inl rfl))
  simpa using hmem

theorem fraction_mem_number (hne : ds ≠ []) (hd : Digits ds) (he : Digits es) :
    ds ++ '.' :: es ∈ language .number := by
  have hmem := mem_number hne hd (mem_optional.mpr (Or.inr (mem_fraction.mpr ⟨es, rfl, he⟩)))
    (mem_optional.mpr (Or.inl rfl))
  simpa using hmem

theorem inPlaces_mem_number (q : Decimal) : q.inPlaces [] ∈ language .number := by
  rcases inPlaces_cases q with ⟨k, -, heq⟩ | ⟨us, vs, heq, hne, hu, hv, -⟩
  · rw [heq]
    have hne : q.digitChars ≠ [] := Nat.toDigits_ne_nil
    exact whole_mem_number (by simp [hne]) ((digits_digitChars q).append (digits_replicate_zero k))
  · rw [heq]
    exact fraction_mem_number hne hu hv

/-- A literal for a double: its places, and for infinity one that is too large for them. -/
def literal (x : Float) : String :=
  if Binary64.code x = Binary64.infinity then "1e999" else NumberStyle.plain.write x

variable {x : Float}

theorem toList_literal (hn : x.isNaN = false) (hs : Binary64.isNegative x = false)
    (hx : Binary64.code x ≠ Binary64.infinity) :
    (literal x).toList = (shortest (Binary64.code x)).inPlaces [] := by
  rw [literal, if_neg hx, NumberStyle.write, hn, hs]
  simp [NumberStyle.writeCode, hx, write, NumberStyle.plain]

theorem literal_mem_number (hn : x.isNaN = false) (hs : Binary64.isNegative x = false) :
    (literal x).toList ∈ language .number := by
  by_cases hx : Binary64.code x = Binary64.infinity
  · rw [literal, if_pos hx]
    have hexponent : ['e', '9', '9', '9'] ∈ Lexical.exponent :=
      mem_exponent.mpr ⟨'e', [], ['9', '9', '9'], rfl, rfl, by simp, by simp, by simp [Digits]⟩
    exact mem_number (List.cons_ne_nil '1' []) (by simp [Digits]) (mem_optional.mpr (Or.inl rfl))
      (mem_optional.mpr (Or.inr hexponent))
  · rw [toList_literal hn hs hx]
    exact inPlaces_mem_number _

/-- The literal of a double stands for it. -/
theorem toFloat_ofLiteral_literal (hn : x.isNaN = false) (hs : Binary64.isNegative x = false) :
    (ofLiteral (literal x).toList).toFloat = x := by
  have hcode : (ofLiteral (literal x).toList).code = Binary64.code x := by
    by_cases hx : Binary64.code x = Binary64.infinity
    · rw [literal, if_pos hx, hx]
      rfl
    · have hshortest := code_shortest (Nat.lt_of_le_of_ne (Binary64.code_le_infinity hn) hx)
      rw [toList_literal hn hs hx, code_ofLiteral_inPlaces, hshortest]
      rwa [hshortest]
  rw [toFloat, hcode, Binary64.ofCode_code hs]

end Decimal
end ScalarScript
