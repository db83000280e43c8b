import ScalarScript.Proofs.Lexical.Boundary
import ScalarScript.Proofs.Number.Nearest
import ScalarScript.Proofs.Number.Written

/-!
# Numerals

A numeral is what the two number rules accept, taken apart: the digits before and behind a point and
an exponent, with at least one digit beside the point. Its places and its exponent give the number
that it denotes. The token of a numeral holds the double that this number is rounded to, and each
number token comes from a numeral. Only a point that begins no numeral is reported as a wrong one.
-/

namespace ScalarScript
namespace Lexical

open Computability

/-- The number that a row of digits denotes. -/
def wholeValue (ds : List Char) : ℕ := Nat.ofDigitChars 10 ds 0

/-- An exponent: a mark, an optional sign and at least one digit. -/
structure Exponent where
  mark : Char
  sign : List Char
  digits : List Char
  mark_eq : mark = 'e' ∨ mark = 'E'
  sign_eq : sign = [] ∨ sign = ['+'] ∨ sign = ['-']
  ne_nil : digits ≠ []
  isDigits : Digits digits

namespace Exponent

def text (e : Exponent) : List Char := e.mark :: (e.sign ++ e.digits)

def value (e : Exponent) : ℤ :=
  if e.sign = ['-'] then -wholeValue e.digits else wholeValue e.digits

theorem isExponentMark_mark (e : Exponent) : Decimal.isExponentMark e.mark = true := by
  rcases e.mark_eq with h | h <;> rw [h] <;> rfl

theorem mem_exponent_iff {w : List Char} : w ∈ exponent ↔ ∃ e : Exponent, e.text = w := by
  rw [mem_exponent]
  constructor
  · rintro ⟨m, sign, ds, rfl, hm, hs, hne, hds⟩
    have hmark : m = 'e' ∨ m = 'E' := by simpa [Decimal.isExponentMark] using hm
    exact ⟨⟨m, sign, ds, hmark, hs, hne, hds⟩, rfl⟩
  · rintro ⟨e, rfl⟩
    exact ⟨e.mark, e.sign, e.digits, rfl, e.isExponentMark_mark, e.sign_eq, e.ne_nil, e.isDigits⟩

theorem signedDigits_eq (e : Exponent) : Decimal.signedDigits (e.sign ++ e.digits) = e.value := by
  unfold value
  rcases e.sign_eq with hs | hs | hs
  · rw [hs, List.nil_append, if_neg (by simp)]
    exact Decimal.signedDigits_of_digits e.isDigits
  · rw [hs, if_neg (by decide)]
    rfl
  · rw [hs, if_pos rfl]
    rfl

end Exponent

/-- The parts of a numeral. If there is no digit before the point, there is one behind it. -/
structure Numeral where
  whole : List Char
  fraction : Option (List Char)
  exponent : Option Exponent
  isDigits_whole : Digits whole
  isDigits_fraction : ∀ ds ∈ fraction, Digits ds
  has_digit : whole = [] → ∃ ds ∈ fraction, ds ≠ []

namespace Numeral

variable (n : Numeral)

/-- The digits behind the point. -/
def places : List Char := n.fraction.getD []

def mantissa : List Char := n.whole ++ n.fraction.elim [] ('.' :: ·)

def text : List Char := n.mantissa ++ n.exponent.elim [] Exponent.text

def exponentValue : ℤ := n.exponent.elim 0 Exponent.value

/-- The number that a numeral denotes. -/
def value : ℚ :=
  (wholeValue n.whole + wholeValue n.places / 10 ^ n.places.length) * 10 ^ n.exponentValue

def rule : Rule := if n.whole = [] then .pointNumber else .number

/-- The double of the token. -/
def double : Float := (Decimal.ofLiteral n.text).toFloat

theorem mem_optional_exponent {w : List Char} :
    w ∈ optional Lexical.exponent ↔ ∃ e : Option Exponent, e.elim [] Exponent.text = w := by
  rw [mem_optional, Exponent.mem_exponent_iff]
  constructor
  · rintro (rfl | ⟨e, rfl⟩)
    · exact ⟨none, rfl⟩
    · exact ⟨some e, rfl⟩
  · rintro ⟨_ | e, rfl⟩
    · exact Or.inl rfl
    · exact Or.inr ⟨e, rfl⟩

theorem mem_optional_fraction {w : List Char} :
    w ∈ optional (oneOf {'.'} * (oneOf digit)∗) ↔
      ∃ f : Option (List Char), (∀ ds ∈ f, Digits ds) ∧ f.elim [] ('.' :: ·) = w := by
  rw [mem_optional, mem_fraction]
  constructor
  · rintro (rfl | ⟨ds, rfl, hds⟩)
    · exact ⟨none, by simp, rfl⟩
    · exact ⟨some ds, by simpa using hds, rfl⟩
  · rintro ⟨_ | ds, hds, rfl⟩
    · exact Or.inl rfl
    · exact Or.inr ⟨ds, rfl, hds ds rfl⟩

theorem text_mem : n.text ∈ language n.rule := by
  have hexponent : n.exponent.elim [] Exponent.text ∈ optional Lexical.exponent :=
    mem_optional_exponent.mpr ⟨n.exponent, rfl⟩
  unfold text mantissa rule
  by_cases hw : n.whole = []
  · obtain ⟨ds, hds, hne⟩ := n.has_digit hw
    have hsome : n.fraction = some ds := hds
    have hdigits := mem_repeated_digit.mpr ⟨hne, n.isDigits_fraction ds hds⟩
    rw [if_pos hw, hw, hsome]
    exact Language.append_mem_mul (mem_oneOf_mul.mpr ⟨'.', rfl, ds, hdigits, rfl⟩) hexponent
  · rw [if_neg hw]
    exact Decimal.mem_number hw n.isDigits_whole
      (mem_optional_fraction.mpr ⟨n.fraction, n.isDigits_fraction, rfl⟩) hexponent

/-- The words of the number rules are the texts of numerals. -/
theorem exists_text_eq_iff {w : List Char} :
    (∃ n : Numeral, n.text = w) ↔ w ∈ language .number ∨ w ∈ language .pointNumber := by
  constructor
  · rintro ⟨n, rfl⟩
    have hmem := n.text_mem
    unfold rule at hmem
    split at hmem
    next => exact Or.inr hmem
    next => exact Or.inl hmem
  · rintro (h | h)
    · obtain ⟨_, hm, e, he, rfl⟩ := Language.mem_mul.mp h
      obtain ⟨ds, hds, f, hf, rfl⟩ := Language.mem_mul.mp hm
      obtain ⟨hne, hds⟩ := mem_repeated_digit.mp hds
      obtain ⟨f, hdigits, rfl⟩ := mem_optional_fraction.mp hf
      obtain ⟨e, rfl⟩ := mem_optional_exponent.mp he
      exact ⟨⟨ds, f, e, hds, hdigits, fun h => absurd h hne⟩, rfl⟩
    · obtain ⟨_, hm, e, he, rfl⟩ := Language.mem_mul.mp h
      obtain ⟨_, rfl, ds, hds, rfl⟩ := mem_oneOf_mul.mp hm
      obtain ⟨hne, hds⟩ := mem_repeated_digit.mp hds
      obtain ⟨e, rfl⟩ := mem_optional_exponent.mp he
      exact ⟨⟨[], some ds, e, by simp [Digits], by simpa using hds, fun _ => ⟨ds, rfl, hne⟩⟩, rfl⟩

theorem isExponentMark_mantissa : ∀ c ∈ n.mantissa, Decimal.isExponentMark c = false := by
  unfold mantissa
  cases hf : n.fraction with
  | none =>
    intro c hc
    exact Decimal.isExponentMark_of_isDigit (n.isDigits_whole c (by simpa using hc))
  | some ds => exact Decimal.isExponentMark_fraction n.isDigits_whole (n.isDigits_fraction ds hf)

theorem ofLiteral_mantissa : Decimal.ofLiteral n.mantissa =
    ⟨wholeValue (n.whole ++ n.places), -(n.places.length : ℤ)⟩ := by
  unfold mantissa places
  cases hf : n.fraction with
  | none => simpa [wholeValue] using Decimal.ofLiteral_whole n.isDigits_whole
  | some ds => exact Decimal.ofLiteral_fraction n.isDigits_whole (n.isDigits_fraction ds hf)

theorem ofLiteral_text : Decimal.ofLiteral n.text =
    ⟨wholeValue (n.whole ++ n.places), -(n.places.length : ℤ) + n.exponentValue⟩ := by
  unfold text exponentValue
  cases n.exponent with
  | none =>
    show Decimal.ofLiteral (n.mantissa ++ []) = ⟨_, _ + 0⟩
    rw [List.append_nil, add_zero, n.ofLiteral_mantissa]
  | some e =>
    show Decimal.ofLiteral (n.mantissa ++ e.mark :: (e.sign ++ e.digits)) = ⟨_, _ + e.value⟩
    rw [Decimal.ofLiteral_exponent e.isExponentMark_mark n.isExponentMark_mantissa,
      n.ofLiteral_mantissa, e.signedDigits_eq]

theorem wholeValue_append (us vs : List Char) :
    wholeValue (us ++ vs) = wholeValue us * 10 ^ vs.length + wholeValue vs := by
  unfold wholeValue
  rw [Nat.ofDigitChars_append, Nat.ofDigitChars_eq_ofDigitChars_zero, Nat.mul_comm]

/-- The digits on both sides of the point with the lowered exponent denote the same number. -/
theorem value_ofLiteral : (Decimal.ofLiteral n.text).value = n.value := by
  have hten : (10 : ℚ) ^ n.places.length ≠ 0 := by positivity
  rw [n.ofLiteral_text, Decimal.value, value, wholeValue_append, zpow_add₀ (by norm_num), zpow_neg,
    zpow_natCast]
  push_cast
  field_simp

theorem rounds_double : Binary64.Rounds n.value n.double := by
  rw [← n.value_ofLiteral]
  exact Decimal.rounds_toFloat _

variable {n} {m : Numeral} {r : Rule} {cs : List Char}

theorem lexeme?_text : n.rule.lexeme? n.text = some (.number n.double) := by
  unfold rule
  split <;> rfl

theorem within_rule : Within numberPart (language n.rule) := by
  unfold rule
  split
  next => exact within_pointNumber
  next => exact within_number

theorem scan_text (h : IsLexeme r n.text (n.text ++ cs)) (line : ℕ) :
    Token.scan line (n.text ++ cs) = (Token.scan line cs).map (⟨.number n.double, line⟩ :: ·) := by
  obtain rfl : r = n.rule := rule_unique h.mem n.text_mem
  have hcount : n.text.count '\n' = 0 := by
    apply List.count_eq_zero.mpr
    exact fun hline => lineEnd_not_mem_numberPart (within_rule _ h.mem _ hline)
  rw [scan_append h, lexeme?_text, hcount, Nat.add_zero]
  rfl

/-- A numeral alone is one token. -/
theorem ofSource_text (n : Numeral) :
    Token.ofSource (String.ofList n.text) = .ok [⟨.number n.double, 1⟩] := by
  have hlexeme : IsLexeme n.rule n.text (n.text ++ []) :=
    isLexeme_of_within within_rule slash_not_mem_numberPart n.text_mem (by simp)
  have hscan := scan_text hlexeme 1
  rw [List.append_nil, Token.scan] at hscan
  rw [Token.ofSource, String.toList_ofList, hscan]
  rfl

/-- A number is what a numeral stands for. -/
theorem exists_of_lexeme?_number {w : List Char} {x : Float} (hw : w ∈ language r)
    (h : r.lexeme? w = some (.number x)) : ∃ n : Numeral, n.text = w ∧ n.double = x := by
  cases hr : isSkipped r with
  | true =>
    rw [lexeme?_of_skipped hr] at h
    cases h
  | false =>
    obtain ⟨l, hl, hdenotes⟩ := lexeme?_of_mem hw hr
    obtain rfl : l = .number x := Option.some.inj (hl.symm.trans h)
    cases hdenotes with
    | number =>
      obtain ⟨n, rfl⟩ := exists_text_eq_iff.mpr (Or.inl hw)
      exact ⟨n, rfl, rfl⟩
    | pointNumber =>
      obtain ⟨n, rfl⟩ := exists_text_eq_iff.mpr (Or.inr hw)
      exact ⟨n, rfl, rfl⟩

theorem exists_of_mem_placed {ps : List (Rule × List Char)} {rest : List Char}
    (h : Munch cs ps rest) {line : ℕ} {t : Token} {x : Float} (ht : t ∈ placed line ps)
    (hx : t.lexeme = .number x) : ∃ n : Numeral, n.double = x ∧ n.text <:+: cs := by
  induction h generalizing line with
  | stuck => cases ht
  | @lexeme r w cs ps rest hl _ ih =>
    rcases List.mem_append.mp ht with hhead | htail
    · obtain ⟨l, hlexeme, rfl⟩ := Option.map_eq_some_iff.mp (Option.mem_toList.mp hhead)
      obtain rfl : l = .number x := hx
      obtain ⟨n, rfl, hdouble⟩ := exists_of_lexeme?_number hl.mem hlexeme
      exact ⟨n, hdouble, (List.prefix_append _ _).isInfix⟩
    · obtain ⟨n, hdouble, hinfix⟩ := ih htail
      exact ⟨n, hdouble, hinfix.trans (List.suffix_append _ _).isInfix⟩

/-- A wrong number is a point that begins no numeral. -/
theorem stuck_of_invalidNumber {source text : String} {line : ℕ}
    (h : Token.ofSource source = .error (.invalidNumber text line)) :
    text = "." ∧ ∃ ps cs, Munch source.toList ps ('.' :: cs) ∧
      ∀ n : Numeral, ¬ n.text <+: '.' :: cs := by
  obtain ⟨ps, rest, hm⟩ := exists_munch source.toList
  rw [Token.ofSource, hm.scan_eq 1] at h
  cases rest with
  | nil => cases h
  | cons c cs =>
    have herror := Except.error.inj h
    unfold Token.strayCharacter at herror
    split at herror
    next hc =>
      subst hc
      refine ⟨(SyntaxError.invalidNumber.inj herror).1.symm, ps, cs, hm, ?_⟩
      exact fun n => hm.stuck_rest n.rule n.text n.text_mem
    next => cases herror

/-- The words of the number rules are the numerals, and the token of a numeral, wherever it is the
longest word, holds the double that its number is rounded to. No other text gives a number token.
Numerals of the same number have the same double, and that of a larger number is not smaller. What
is reported as a wrong number is a point where no numeral begins. -/
theorem tokens_round_numerals :
    (∀ w : List Char, (∃ n : Numeral, n.text = w) ↔
      w ∈ language .number ∨ w ∈ language .pointNumber) ∧
    (∀ n : Numeral, Binary64.Rounds n.value n.double ∧
      Token.ofSource (String.ofList n.text) = .ok [⟨.number n.double, 1⟩] ∧
      ∀ (r : Rule) (line : ℕ) (cs : List Char), IsLexeme r n.text (n.text ++ cs) →
        Token.scan line (n.text ++ cs) =
          (Token.scan line cs).map (⟨.number n.double, line⟩ :: ·)) ∧
    (∀ (source : String) (ts : List Token), Token.ofSource source = .ok ts →
      ∀ t ∈ ts, ∀ x : Float, t.lexeme = .number x →
        ∃ n : Numeral, n.double = x ∧ n.text <:+: source.toList) ∧
    (∀ n m : Numeral, (n.value = m.value → n.double = m.double) ∧
      (n.value ≤ m.value → n.double ≤ m.double)) ∧
    ∀ (source text : String) (line : ℕ),
      Token.ofSource source = .error (.invalidNumber text line) →
        text = "." ∧ ∃ ps cs, Munch source.toList ps ('.' :: cs) ∧
          ∀ n : Numeral, ¬ n.text <+: '.' :: cs := by
  refine ⟨fun _ => exists_text_eq_iff, fun n => ⟨n.rounds_double, n.ofSource_text,
    fun r line cs h => scan_text h line⟩, ?_, ?_, fun _ _ _ => stuck_of_invalidNumber⟩
  · intro source ts hts t ht x hx
    obtain ⟨ps, hm, rfl⟩ := ofSource_eq_ok_iff.mp hts
    exact exists_of_mem_placed hm ht hx
  · intro n m
    rw [← n.value_ofLiteral, ← m.value_ofLiteral]
    exact ⟨Decimal.toFloat_eq_of_value_eq, Decimal.toFloat_le_of_value_le⟩

/-- A tenth of ten is one, and less than two; a point alone is a wrong number. -/
theorem tokens_round_numerals_of_tenth :
    ∃ tenth one two : Numeral, tenth.text = ['.', '1', 'e', '1'] ∧ one.text = ['1'] ∧
      two.text = ['2', '.'] ∧ tenth.double = one.double ∧ one.double ≤ two.double ∧
      Token.scan 7 ['1', ','] = (Token.scan 7 [',']).map (⟨.number one.double, 7⟩ :: ·) ∧
      (∃ n : Numeral, n.double = one.double ∧ n.text <:+: (String.ofList one.text).toList) ∧
      ∃ ps cs, Munch ".".toList ps ('.' :: cs) ∧ ∀ n : Numeral, ¬ n.text <+: '.' :: cs := by
  let tenth : Numeral := ⟨[], some ['1'], some ⟨'e', [], ['1'], Or.inl rfl, Or.inl rfl, by simp,
    by simp [Digits]⟩, by simp [Digits], by simp [Digits], fun _ => ⟨['1'], rfl, by simp⟩⟩
  let one : Numeral := ⟨['1'], none, none, by simp [Digits], by simp, fun h => by cases h⟩
  let two : Numeral := ⟨['2'], some [], none, by simp [Digits], by simp [Digits],
    fun h => by cases h⟩
  have htenth : tenth.value = 1 := by
    show ((0 : ℕ) + (1 : ℕ) / 10 ^ 1 : ℚ) * 10 ^ (1 : ℤ) = 1
    norm_num
  have hone : one.value = 1 := by
    show ((1 : ℕ) + (0 : ℕ) / 10 ^ 0 : ℚ) * 10 ^ (0 : ℤ) = 1
    norm_num
  have htwo : two.value = 2 := by
    show ((2 : ℕ) + (0 : ℕ) / 10 ^ 0 : ℚ) * 10 ^ (0 : ℤ) = 2
    norm_num
  have hcomma : ∀ d ∈ [','].head?, d ∉ numberPart := by simp [numberPart, digit, Char.le_def]
  have hlexeme : IsLexeme .number one.text (one.text ++ [',']) :=
    isLexeme_of_within within_number slash_not_mem_numberPart one.text_mem hcomma
  have hstray : Token.ofSource "." = .error (.invalidNumber "." 1) := Token.scan_of_stray rfl
  obtain ⟨-, hn, htoken, horder, herror⟩ := tokens_round_numerals
  refine ⟨tenth, one, two, rfl, rfl, rfl, (horder tenth one).1 (htenth.trans hone.symm),
    (horder one two).2 ?_, (hn one).2.2 .number 7 [','] hlexeme, ?_, (herror _ _ _ hstray).2⟩
  · rw [hone, htwo]
    exact one_le_two
  · exact htoken _ _ (hn one).2.1 _ (List.mem_singleton_self _) _ rfl

end Numeral
end Lexical
end ScalarScript
