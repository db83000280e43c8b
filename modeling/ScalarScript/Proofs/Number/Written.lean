import ScalarScript.Proofs.Number.Literal

/-!
# Written numbers

The texts of numbers are number words that stand for what is written: all places with or without the
ending of a whole number, and one digit before the point with an exponent. So whichever form is
chosen for a finite magnitude, the text leads back to it.
-/

namespace ScalarScript

namespace Binary64

theorem roundHalfEven_mul_right {a b c : Nat} (hc : 0 < c) :
    roundHalfEven (a * c) (b * c) = roundHalfEven a b := by
  unfold roundHalfEven
  rw [Nat.mul_div_mul_right a b hc, Nat.mul_mod_mul_right]
  simp only [← Nat.mul_assoc, Nat.mul_lt_mul_right hc]

/-- Only the ratio matters. -/
theorem nearest_mul_right {a b c : Nat} (hc : 0 < c) : nearest (a * c) (b * c) = nearest a b := by
  unfold nearest
  rw [Nat.mul_div_mul_right a b hc]
  have hshift : ∀ s, (b * c) <<< s = b <<< s * c := by
    intro s
    rw [Nat.shiftLeft_eq, Nat.shiftLeft_eq, Nat.mul_right_comm]
  simp only [hshift, roundHalfEven_mul_right hc]

end Binary64

namespace Decimal

open Lexical Computability

/-- The text is a number word for the double that is nearest to the decimal. -/
structure Spells (text : List Char) (q : Decimal) : Prop where
  mem_number : text ∈ language .number
  code_eq : (ofLiteral text).code = q.code

variable {q : Decimal} {ds es : List Char}

/-- A zero behind the point changes nothing. -/
theorem code_mul_ten (d : Nat) : code ⟨d * 10, -1⟩ = code ⟨d, 0⟩ := by
  by_cases hd : d = 0
  · subst hd
    rfl
  · have hten : d * 10 ≠ 0 := Nat.mul_ne_zero hd (by decide)
    unfold code
    simp only [if_neg hd, if_neg hten]
    rw [if_neg (by omega), if_neg (by omega), if_neg (by omega), if_neg (by omega)]
    have hdigits : d * 10 * 1 * Binary64.unitsPerOne = d * 1 * Binary64.unitsPerOne * 10 := by
      rw [Nat.mul_one, Nat.mul_one, Nat.mul_right_comm]
    show Binary64.nearest (d * 10 * 1 * Binary64.unitsPerOne) (1 * 10) =
      Binary64.nearest (d * 1 * Binary64.unitsPerOne) 1
    rw [hdigits, Binary64.nearest_mul_right (by decide)]

/-- A whole number may end in a point and a zero. -/
theorem Spells.whole (hne : ds ≠ []) (hd : Digits ds) (h : Spells ds q) :
    Spells (ds ++ ['.', '0']) q := by
  have hzero : Digits ['0'] := digits_replicate_zero 1
  refine ⟨fraction_mem_number hne hd hzero, ?_⟩
  have hcode := h.code_eq
  rw [ofLiteral_whole hd] at hcode
  rw [← hcode, ofLiteral_fraction hd hzero, Nat.ofDigitChars_append]
  exact (congrArg (fun d => code ⟨d, -1⟩) (Nat.mul_comm _ _)).trans (code_mul_ten _)

/-- All places, with the ending of a whole number or without it. -/
theorem spells_inPlaces {ending : List Char} (he : ending = [] ∨ ending = ['.', '0'])
    (h : q.code ≠ Binary64.infinity) : Spells (q.inPlaces ending) q := by
  have hplaces : Spells (q.inPlaces []) q := ⟨inPlaces_mem_number q, code_ofLiteral_inPlaces h⟩
  rcases he with rfl | rfl
  · exact hplaces
  · unfold inPlaces at hplaces ⊢
    by_cases hexponent : 0 ≤ q.exponent
    · simp only [if_pos hexponent, List.append_nil] at hplaces ⊢
      apply hplaces.whole
      · simp [digitChars]
      · exact (digits_digitChars q).append (digits_replicate_zero _)
    · simp only [if_neg hexponent] at hplaces ⊢
      exact hplaces

theorem signedDigits_of_digits (hd : Digits ds) : signedDigits ds = Nat.ofDigitChars 10 ds 0 := by
  unfold signedDigits
  split
  next => exact absurd (hd '-' List.mem_cons_self) (by decide)
  next => exact absurd (hd '+' List.mem_cons_self) (by decide)
  next => rfl

/-- An integer is written with an optional minus sign. -/
theorem toList_toString (i : Int) :
    ∃ sign ds, (toString i).toList = sign ++ ds ∧ (sign = [] ∨ sign = ['-']) ∧ ds ≠ [] ∧
      Digits ds ∧ signedDigits (sign ++ ds) = i := by
  have hdigits : ∀ n, Digits (Nat.toDigits 10 n) := fun n c hc =>
    Nat.isDigit_of_mem_toDigits (by decide) (by decide) hc
  cases i with
  | ofNat n =>
    refine ⟨[], Nat.toDigits 10 n, ?_, Or.inl rfl, Nat.toDigits_ne_nil, hdigits n, ?_⟩
    · show (String.ofList (Nat.toDigits 10 n)).toList = _
      rw [String.toList_ofList, List.nil_append]
    · rw [List.nil_append, signedDigits_of_digits (hdigits n), Nat.ofDigitChars_ten_toDigits]
      rfl
  | negSucc n =>
    refine ⟨['-'], Nat.toDigits 10 (n + 1), ?_, Or.inr rfl, Nat.toDigits_ne_nil, hdigits _, ?_⟩
    · show ("-" ++ String.ofList (Nat.toDigits 10 (n + 1))).toList = _
      rw [String.toList_append, String.toList_ofList, String.toList_ofList]
    · show -((Nat.ofDigitChars 10 (Nat.toDigits 10 (n + 1)) 0 : Nat) : Int) = _
      rw [Nat.ofDigitChars_ten_toDigits]
      rfl

theorem ofLiteral_exponent {m w : List Char} {mark : Char} (hmark : isExponentMark mark = true)
    (hm : ∀ c ∈ m, isExponentMark c = false) :
    ofLiteral (m ++ mark :: w) =
      ⟨(ofLiteral m).digits, (ofLiteral m).exponent + signedDigits w⟩ := by
  have hnone : ∀ c ∈ m, (!isExponentMark c) = true := fun c hc => by rw [hm c hc]; rfl
  have htake : (m ++ mark :: w).takeWhile (!isExponentMark ·) = m := by
    rw [List.takeWhile_append_of_pos hnone]
    simp [hmark]
  have hdrop : (m ++ mark :: w).dropWhile (!isExponentMark ·) = mark :: w := by
    rw [List.dropWhile_append_of_pos hnone]
    simp [hmark]
  rw [ofLiteral_of_forall hm]
  unfold ofLiteral
  simp only [htake, hdrop, List.drop_one, List.tail_cons, sub_eq_neg_add]

theorem toString_mem_exponent (i : Int) : 'e' :: (toString i).toList ∈ Lexical.exponent := by
  obtain ⟨sign, ds, htext, hsign, hne, hd, -⟩ := toList_toString i
  rw [htext]
  exact mem_exponent.mpr ⟨'e', sign, ds, rfl, rfl, hsign.imp_right Or.inr, hne, hd⟩

theorem signedDigits_toString (i : Int) : signedDigits (toString i).toList = i := by
  obtain ⟨sign, ds, htext, -, -, -, hvalue⟩ := toList_toString i
  rw [htext, hvalue]

/-- The digits before the exponent, with a point behind the first of several. -/
theorem withExponent_cases (q : Decimal) :
    ∃ d f, q.withExponent = [d] ++ f ++ 'e' :: (toString q.leadingExponent).toList ∧
      Digits [d] ∧ f ∈ Lexical.optional (oneOf {'.'} * (oneOf digit)∗) ∧
      (∀ c ∈ [d] ++ f, isExponentMark c = false) ∧
      ofLiteral ([d] ++ f) = ⟨q.digits, 1 - q.digitChars.length⟩ := by
  have hdigits := digits_digitChars q
  have hvalue := ofDigitChars_digitChars q
  have hne : q.digitChars ≠ [] := Nat.toDigits_ne_nil
  unfold withExponent
  generalize q.digitChars = ds at hdigits hvalue hne ⊢
  obtain ⟨d, es, rfl⟩ := List.exists_cons_of_ne_nil hne
  obtain ⟨hd, hes⟩ := List.forall_mem_cons.mp hdigits
  have hhead : Digits [d] := List.forall_mem_singleton.mpr hd
  cases es with
  | nil =>
    refine ⟨d, [], rfl, hhead, mem_optional.mpr (Or.inl rfl), ?_, ?_⟩
    · intro c hc
      exact isExponentMark_of_isDigit (hhead c hc)
    · show ofLiteral [d] = _
      rw [ofLiteral_whole hhead, hvalue]
      rfl
  | cons e es =>
    refine ⟨d, '.' :: e :: es, rfl, hhead,
      mem_optional.mpr (Or.inr (mem_fraction.mpr ⟨e :: es, rfl, hes⟩)), ?_, ?_⟩
    · exact isExponentMark_fraction hhead hes
    · have hplaces : (1 - ((d :: e :: es).length : Int)) = -((e :: es).length : Int) := by
        rw [List.length_cons, Nat.cast_succ]
        omega
      rw [hplaces, ← hvalue]
      exact ofLiteral_fraction hhead hes

theorem ofLiteral_withExponent (q : Decimal) : ofLiteral q.withExponent = q := by
  obtain ⟨d, f, htext, -, -, hmark, hvalue⟩ := withExponent_cases q
  rw [htext, ofLiteral_exponent rfl hmark, hvalue, signedDigits_toString]
  have hexponent : 1 - (q.digitChars.length : Int) + q.leadingExponent = q.exponent := by
    unfold leadingExponent
    omega
  rw [hexponent]

theorem withExponent_mem_number (q : Decimal) : q.withExponent ∈ language .number := by
  obtain ⟨d, f, htext, hd, hf, -⟩ := withExponent_cases q
  rw [htext]
  exact mem_number (List.cons_ne_nil d []) hd hf
    (mem_optional.mpr (Or.inr (toString_mem_exponent _)))

theorem spells_write {style : NumberStyle}
    (hstyle : style.wholeEnding = "" ∨ style.wholeEnding = ".0")
    (h : q.code ≠ Binary64.infinity) : Spells (q.write style) q := by
  unfold write
  split
  next =>
    apply spells_inPlaces ?_ h
    rcases hstyle with hstyle | hstyle
    · exact Or.inl (by rw [hstyle]; rfl)
    · exact Or.inr (by rw [hstyle]; rfl)
  next => exact ⟨withExponent_mem_number q, by rw [ofLiteral_withExponent]⟩

end Decimal

namespace NumberStyle

variable {style : NumberStyle} {c : Nat}

/-- Whichever form is chosen, a finite magnitude is written as a number that stands for it. -/
theorem spells_writeCode (hstyle : style.wholeEnding = "" ∨ style.wholeEnding = ".0")
    (h : c < Binary64.infinity) :
    style.writeCode c ∈ Lexical.language .number ∧
      (Decimal.ofLiteral (style.writeCode c)).toFloat = Binary64.ofCode c := by
  have hcode := Decimal.code_shortest h
  have hfinite : (Decimal.shortest c).code ≠ Binary64.infinity := by
    rw [hcode]
    exact Nat.ne_of_lt h
  obtain ⟨hmem, hvalue⟩ := Decimal.spells_write hstyle hfinite
  rw [writeCode, if_neg (Nat.ne_of_lt h)]
  exact ⟨hmem, by rw [Decimal.toFloat, hvalue, hcode]⟩

end NumberStyle
end ScalarScript
