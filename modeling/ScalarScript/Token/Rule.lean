import ScalarScript.Token

/-!
# Lexical rules

Each rule is a set of non-empty texts, given by the length of its longest member at the front of
the input, where zero means that it has none there. What stands between two members of a rule
costs nothing: `1e+` is in no rule, so the number rule stops after `1`. The lexeme at the front
of the input belongs to the rule that reaches farthest; only a slash starts more than one.
-/

namespace ScalarScript

inductive Rule where
  | number
  | pointNumber
  | name
  | symbol
  | lineComment
  | blockComment
  | blank
  deriving DecidableEq, Repr

namespace Rule

def all : List Rule := [number, pointNumber, name, symbol, lineComment, blockComment, blank]

theorem mem_all (r : Rule) : r ∈ all := by cases r <;> decide

def isNameStart (c : Char) : Bool := c.isAlpha || c = '_'

def isNamePart (c : Char) : Bool := c.isAlphanum || c = '_'

def isBlank (c : Char) : Bool := c = ' ' || c = '\t' || c = '\x0c' || c = '\r'

def isLineEnd (c : Char) : Bool := c = '\n' || c = '\r'

/-- The lexemes of one character. -/
def symbol? : Char → Option Lexeme
  | '+' => some .plus
  | '-' => some .minus
  | '*' => some .star
  | '/' => some .slash
  | '^' => some .caret
  | '(' => some .leftParen
  | ')' => some .rightParen
  | '=' => some .equals
  | ',' => some .comma
  | ';' => some .semicolon
  | '\n' => some .newLine
  | _ => none

def digitsLength (cs : List Char) : Nat := (cs.takeWhile Char.isDigit).length

def signLength : List Char → Nat
  | '+' :: _ | '-' :: _ => 1
  | _ => 0

/-- An exponent: a mark, an optional sign and at least one digit. -/
def exponentLength : List Char → Nat
  | [] => 0
  | c :: cs =>
    let digits := digitsLength (cs.drop (signLength cs))
    if Decimal.isExponentMark c && 0 < digits then 1 + signLength cs + digits else 0

/-- A point with the digits behind it, of which there may be none. -/
def fractionLength : List Char → Nat
  | '.' :: cs => 1 + digitsLength cs
  | _ => 0

/-- A number that starts with a digit. -/
def numberLength (cs : List Char) : Nat :=
  let whole := digitsLength cs
  let mantissa := whole + fractionLength (cs.drop whole)
  if whole = 0 then 0 else mantissa + exponentLength (cs.drop mantissa)

/-- A number that starts with its point, which then needs a digit behind it. -/
def pointNumberLength (cs : List Char) : Nat :=
  let mantissa := fractionLength cs
  if mantissa ≤ 1 then 0 else mantissa + exponentLength (cs.drop mantissa)

def nameLength : List Char → Nat
  | [] => 0
  | c :: cs => if isNameStart c then 1 + (cs.takeWhile isNamePart).length else 0

/-- Characters up to the end of the first closing mark. -/
def throughClose : List Char → Option Nat
  | [] => none
  | '*' :: '/' :: _ => some 2
  | _ :: cs => (throughClose cs).map (· + 1)

def length : Rule → List Char → Nat
  | number, cs => numberLength cs
  | pointNumber, cs => pointNumberLength cs
  | name, cs => nameLength cs
  | symbol, c :: _ => if (symbol? c).isSome then 1 else 0
  | lineComment, '/' :: '/' :: cs => 2 + (cs.takeWhile (!isLineEnd ·)).length
  | blockComment, '/' :: '*' :: cs => ((throughClose cs).map (2 + ·)).getD 0
  | blank, cs => (cs.takeWhile isBlank).length
  | _, _ => 0

/-- The rule with the longest member at the front of the text. -/
def longest? (cs : List Char) : Option Rule :=
  (all.maxOn? (length · cs)).filter (0 < ·.length cs)

theorem length_le_of_longest? {cs : List Char} {r : Rule} (h : longest? cs = some r) (s : Rule) :
    s.length cs ≤ r.length cs := by
  obtain ⟨found, -⟩ := Option.filter_eq_some_iff.1 h
  simpa [found] using List.le_apply_get_maxOn?_of_mem (f := (length · cs)) (mem_all s)

theorem length_pos_of_longest? {cs : List Char} {r : Rule} (h : longest? cs = some r) :
    0 < r.length cs := by
  simpa using (Option.filter_eq_some_iff.1 h).2

/-- No rule is longest where none has a member. -/
theorem longest?_eq_none_iff {cs : List Char} : longest? cs = none ↔ ∀ r : Rule, r.length cs = 0 := by
  constructor
  · intro none r
    rw [longest?, Option.filter_eq_none_iff] at none
    have isSome := List.isSome_maxOn?_of_mem (f := (length · cs)) (mem_all r)
    have bound := List.le_apply_get_maxOn?_of_mem (f := (length · cs)) (mem_all r)
    have zero := none _ (Option.some_get isSome).symm
    simp only [decide_eq_true_eq] at zero
    omega
  · intro zero
    simp [longest?, zero]

theorem digitsLength_le (cs : List Char) : digitsLength cs ≤ cs.length :=
  (List.takeWhile_sublist _).length_le

theorem exponentLength_le (cs : List Char) : exponentLength cs ≤ cs.length := by
  cases cs with
  | nil => exact Nat.le_refl 0
  | cons c cs =>
    have digits := digitsLength_le (cs.drop (signLength cs))
    rw [List.length_drop] at digits
    rw [exponentLength, List.length_cons]
    split
    next some =>
      simp only [Bool.and_eq_true, decide_eq_true_eq] at some
      omega
    next => omega

theorem fractionLength_le (cs : List Char) : fractionLength cs ≤ cs.length := by
  unfold fractionLength
  split
  next rest =>
    have := digitsLength_le rest
    rw [List.length_cons]
    omega
  next => omega

theorem throughClose_le {cs : List Char} {n : Nat} (h : throughClose cs = some n) :
    n ≤ cs.length := by
  induction cs using throughClose.induct generalizing n with
  | case1 => simp [throughClose] at h
  | case2 rest => simp_all [throughClose]; omega
  | case3 c cs notClose ih =>
    rw [throughClose] at h
    · obtain ⟨m, found, rfl⟩ := Option.map_eq_some_iff.1 h
      have := ih found
      rw [List.length_cons]
      omega
    · exact notClose

theorem numberLength_le (cs : List Char) : numberLength cs ≤ cs.length := by
  have whole := digitsLength_le cs
  have fraction := fractionLength_le (cs.drop (digitsLength cs))
  have exponent := exponentLength_le
    (cs.drop (digitsLength cs + fractionLength (cs.drop (digitsLength cs))))
  rw [List.length_drop] at fraction exponent
  simp only [numberLength]
  split <;> omega

theorem pointNumberLength_le (cs : List Char) : pointNumberLength cs ≤ cs.length := by
  have fraction := fractionLength_le cs
  have exponent := exponentLength_le (cs.drop (fractionLength cs))
  rw [List.length_drop] at exponent
  simp only [pointNumberLength]
  split <;> omega

theorem nameLength_le (cs : List Char) : nameLength cs ≤ cs.length := by
  cases cs with
  | nil => exact Nat.le_refl 0
  | cons c cs =>
    have := (List.takeWhile_sublist isNamePart (l := cs)).length_le
    rw [nameLength, List.length_cons]
    split <;> omega

/-- A member at the front of a text is part of the text. -/
theorem length_le (r : Rule) (cs : List Char) : r.length cs ≤ cs.length := by
  fun_cases length r cs with
  | case1 => exact numberLength_le _
  | case2 => exact pointNumberLength_le _
  | case3 => exact nameLength_le _
  | case4 c cs => simp
  | case5 c cs => simp
  | case6 cs =>
    have := (List.takeWhile_sublist (!isLineEnd ·) (l := cs)).length_le
    simp only [List.length_cons]
    omega
  | case7 cs =>
    cases found : throughClose cs with
    | none => simp
    | some n =>
      have := throughClose_le found
      simp only [Option.map_some, Option.getD_some, List.length_cons]
      omega
  | case8 => exact (List.takeWhile_sublist _).length_le
  | case9 => exact Nat.zero_le _

/-- The lexeme that a member of the rule stands for; comments and blanks stand for none. -/
def lexeme? : Rule → List Char → Option Lexeme
  | number, text | pointNumber, text => some (.number (Decimal.ofLiteral text).toFloat)
  | name, text => some (.name (String.ofList text))
  | symbol, text => text.head?.bind symbol?
  | lineComment, _ | blockComment, _ | blank, _ => none

end Rule
end ScalarScript
