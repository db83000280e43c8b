import ScalarScript.Token.Rule
import Mathlib

/-!
# The languages of the lexical rules

Each rule is declared as a regular language, written with the operations on languages. The languages
do not mention how a text is scanned; they are disjoint, so that a lexeme belongs to one rule, and
the rule can be told from its first two characters.
-/

namespace ScalarScript
namespace Lexical

open Computability

/-- One character of a class. -/
def oneOf (s : Set Char) : Language Char := {w | ∃ c ∈ s, w = [c]}

/-- One or more words in a row. -/
def repeated (l : Language Char) : Language Char := l * l∗

/-- A word or nothing. -/
def optional (l : Language Char) : Language Char := 1 + l

def digit : Set Char := Set.Icc '0' '9'

def nameStart : Set Char := Set.Icc 'a' 'z' ∪ Set.Icc 'A' 'Z' ∪ {'_'}

def namePart : Set Char := Set.Icc 'a' 'z' ∪ Set.Icc 'A' 'Z' ∪ digit ∪ {'_'}

/-- `[eE][+-]?[0-9]+` -/
def exponent : Language Char :=
  oneOf {'e', 'E'} * optional (oneOf {'+', '-'}) * repeated (oneOf digit)

/-- `[^*]*\*+`: a text up to a run of stars. -/
def starred : Language Char := (oneOf {'*'}ᶜ)∗ * repeated (oneOf {'*'})

/-- `([^/*][^*]*\*+)*/`: what may follow a run of stars in a block comment. -/
def commentEnd : Language Char := (oneOf {'/', '*'}ᶜ * starred)∗ * oneOf {'/'}

/-- The words of a rule. -/
def language : Rule → Language Char
  | .number =>
    repeated (oneOf digit) * optional (oneOf {'.'} * (oneOf digit)∗) * optional exponent
  | .pointNumber => oneOf {'.'} * repeated (oneOf digit) * optional exponent
  | .name => oneOf nameStart * (oneOf namePart)∗
  | .symbol => oneOf {'+', '-', '*', '/', '^', '(', ')', '=', ',', ';', '\n'}
  | .lineComment => oneOf {'/'} * oneOf {'/'} * (oneOf {'\n', '\r'}ᶜ)∗
  | .blockComment => oneOf {'/'} * oneOf {'*'} * (starred * commentEnd)
  | .blank => repeated (oneOf {' ', '\t', '\x0c', '\r'})

variable {s : Set Char} {l m : Language Char} {w : List Char}

@[simp] theorem mem_oneOf : w ∈ oneOf s ↔ ∃ c ∈ s, w = [c] := Iff.rfl

theorem mem_optional : w ∈ optional l ↔ w = [] ∨ w ∈ l := by
  rw [optional, Language.mem_add, Language.mem_one]

theorem mem_oneOf_mul : w ∈ oneOf s * l ↔ ∃ c ∈ s, ∃ v ∈ l, w = c :: v := by
  rw [Language.mem_mul]
  constructor
  · rintro ⟨_, ⟨c, hc, rfl⟩, v, hv, rfl⟩
    exact ⟨c, hc, v, hv, rfl⟩
  · rintro ⟨c, hc, v, hv, rfl⟩
    exact ⟨[c], ⟨c, hc, rfl⟩, v, hv, rfl⟩

theorem append_mem_kstar {v : List Char} (hw : w ∈ l) (hv : v ∈ l∗) : w ++ v ∈ l∗ := by
  rw [Language.mem_kstar] at *
  obtain ⟨ws, rfl, h⟩ := hv
  exact ⟨w :: ws, rfl, List.forall_mem_cons.mpr ⟨hw, h⟩⟩

theorem mem_kstar_oneOf : w ∈ (oneOf s)∗ ↔ ∀ c ∈ w, c ∈ s := by
  constructor
  · rw [Language.mem_kstar]
    rintro ⟨ws, rfl, h⟩ c hc
    obtain ⟨v, hv, hcv⟩ := List.mem_flatten.mp hc
    obtain ⟨d, hd, rfl⟩ := h v hv
    rwa [List.mem_singleton.mp hcv]
  · intro h
    induction w with
    | nil => exact Language.nil_mem_kstar _
    | cons c w ih =>
      obtain ⟨hc, hw⟩ := List.forall_mem_cons.mp h
      have hhead : [c] ∈ oneOf s := ⟨c, hc, rfl⟩
      exact append_mem_kstar hhead (ih hw)

theorem mem_repeated_oneOf : w ∈ repeated (oneOf s) ↔ w ≠ [] ∧ ∀ c ∈ w, c ∈ s := by
  rw [repeated, Language.mem_mul]
  constructor
  · rintro ⟨_, ⟨c, hc, rfl⟩, v, hv, rfl⟩
    rw [mem_kstar_oneOf] at hv
    exact ⟨by simp, by simpa [hc] using hv⟩
  · rintro ⟨hne, h⟩
    cases w with
    | nil => exact absurd rfl hne
    | cons c w =>
      obtain ⟨hc, hw⟩ := List.forall_mem_cons.mp h
      exact ⟨[c], ⟨c, hc, rfl⟩, w, mem_kstar_oneOf.mpr hw, rfl⟩

theorem mem_digit {c : Char} : c ∈ digit ↔ c.isDigit = true := by
  simp [digit, Char.isDigit, Char.le_def]

theorem mem_nameStart {c : Char} : c ∈ nameStart ↔ Rule.isNameStart c = true := by
  simp [nameStart, Rule.isNameStart, Char.isAlpha, Char.isUpper, Char.isLower, Char.le_def]
  tauto

theorem mem_namePart {c : Char} : c ∈ namePart ↔ Rule.isNamePart c = true := by
  simp [namePart, Rule.isNamePart, Char.isAlphanum, Char.isAlpha, Char.isUpper, Char.isLower,
    Char.le_def, mem_digit]
  tauto

theorem mem_blank {c : Char} :
    c ∈ ({' ', '\t', '\x0c', '\r'} : Set Char) ↔ Rule.isBlank c = true := by
  simp [Rule.isBlank, or_assoc]

theorem mem_not_lineEnd {c : Char} :
    c ∈ ({'\n', '\r'}ᶜ : Set Char) ↔ (!Rule.isLineEnd c) = true := by
  simp [Rule.isLineEnd]

theorem mem_symbols {c : Char} :
    c ∈ ({'+', '-', '*', '/', '^', '(', ')', '=', ',', ';', '\n'} : Set Char) ↔
      (Rule.symbol? c).isSome = true := by
  constructor
  · rintro (rfl | rfl | rfl | rfl | rfl | rfl | rfl | rfl | rfl | rfl | rfl) <;> rfl
  · intro h
    unfold Rule.symbol? at h
    split at h <;> simp_all

theorem isDigit_of_isNameStart {c : Char} (h : Rule.isNameStart c = true) : c.isDigit = false := by
  have hz : 'z'.val.toNat = 122 ∧ 'a'.val.toNat = 97 ∧ 'Z'.val.toNat = 90 ∧ 'A'.val.toNat = 65 ∧
      '9'.val.toNat = 57 := by decide
  by_cases hu : c = '_'
  · subst hu
    rfl
  · simp [Rule.isNameStart, hu, Char.isAlpha, Char.isUpper, Char.isLower, Char.isDigit,
      UInt32.le_iff_toNat_le] at h ⊢
    omega

/-- The rule of the words that start with a character other than a slash. -/
def ruleOfHead (c : Char) : Rule :=
  if c.isDigit then .number
  else if c = '.' then .pointNumber
  else if Rule.isNameStart c then .name
  else if Rule.isBlank c then .blank
  else .symbol

/-- The rule that a word belongs to, told from its first two characters. -/
def ruleOf? : List Char → Option Rule
  | [] => none
  | '/' :: '/' :: _ => some .lineComment
  | '/' :: '*' :: _ => some .blockComment
  | c :: _ => some (ruleOfHead c)

theorem ruleOf?_cons {c : Char} (h : c ≠ '/') (cs : List Char) :
    ruleOf? (c :: cs) = some (ruleOfHead c) := by
  rw [ruleOf?]
  all_goals
    rintro _ rfl
    exact absurd rfl h

theorem ruleOf?_of_mem {r : Rule} {w : List Char} (h : w ∈ language r) : ruleOf? w = some r := by
  cases r with
  | number =>
    simp only [language, repeated, mul_assoc, mem_oneOf_mul, mem_digit] at h
    obtain ⟨c, hc, v, -, rfl⟩ := h
    have hne : c ≠ '/' := by
      rintro rfl
      cases hc
    simp [ruleOf?_cons hne, ruleOfHead, hc]
  | pointNumber =>
    simp only [language, mul_assoc, mem_oneOf_mul, Set.mem_singleton_iff] at h
    obtain ⟨_, rfl, v, -, rfl⟩ := h
    rfl
  | name =>
    simp only [language, mem_oneOf_mul, mem_nameStart] at h
    obtain ⟨c, hc, v, -, rfl⟩ := h
    have hne : c ≠ '/' := by
      rintro rfl
      cases hc
    have hpoint : c ≠ '.' := by
      rintro rfl
      cases hc
    simp [ruleOf?_cons hne, ruleOfHead, hc, hpoint, isDigit_of_isNameStart hc]
  | symbol =>
    simp only [language, mem_oneOf] at h
    obtain ⟨c, hc, rfl⟩ := h
    rcases hc with rfl | rfl | rfl | rfl | rfl | rfl | rfl | rfl | rfl | rfl | rfl <;> rfl
  | lineComment =>
    simp only [language, mul_assoc, mem_oneOf_mul, Set.mem_singleton_iff] at h
    obtain ⟨_, rfl, _, ⟨_, rfl, v, -, rfl⟩, rfl⟩ := h
    rfl
  | blockComment =>
    simp only [language, mul_assoc, mem_oneOf_mul, Set.mem_singleton_iff] at h
    obtain ⟨_, rfl, _, ⟨_, rfl, v, -, rfl⟩, rfl⟩ := h
    rfl
  | blank =>
    simp only [language, repeated, mem_oneOf_mul] at h
    obtain ⟨c, hc, v, -, rfl⟩ := h
    rcases hc with rfl | rfl | rfl | rfl <;> rfl

/-- A word belongs to one rule. -/
theorem rule_unique {r t : Rule} {w : List Char} (hr : w ∈ language r) (ht : w ∈ language t) :
    r = t :=
  Option.some.inj ((ruleOf?_of_mem hr).symm.trans (ruleOf?_of_mem ht))

/-- Where a text does not start with a slash, one rule has words there. -/
theorem rule_unique_of_head {r t : Rule} {c : Char} {u v : List Char} (hc : c ≠ '/')
    (hr : c :: u ∈ language r) (ht : c :: v ∈ language t) : r = t := by
  have h := (ruleOf?_cons hc u).trans (ruleOf?_cons hc v).symm
  rw [ruleOf?_of_mem hr, ruleOf?_of_mem ht] at h
  exact Option.some.inj h

end Lexical
end ScalarScript
