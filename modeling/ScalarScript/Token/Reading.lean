import ScalarScript.SyntaxError
import ScalarScript.Token.Rule

/-!
# Reading tokens from a text

The text is cut from the left into longest members of the lexical rules. A token has the line its
lexeme starts on, which is one more than the number of line ends before it, those inside block
comments included. The first character that starts no lexeme ends the reading.
-/

namespace ScalarScript
namespace Token

/-- The error at a character that starts no lexeme. A point is the beginning of a number. -/
def strayCharacter (c : Char) (line : Nat) : SyntaxError :=
  if c = '.' then .invalidNumber (String.singleton c) line
  else .unexpectedToken (String.singleton c) line

/-- The tokens of a text whose first character is on the given line. -/
def scan (line : Nat) : List Char → Except SyntaxError (List Token)
  | [] => .ok []
  | c :: cs =>
    match Rule.longest? (c :: cs) with
    | none => .error (strayCharacter c line)
    | some rule =>
      let text := c :: cs.take (rule.length (c :: cs) - 1)
      let token := (rule.lexeme? text).map (⟨·, line⟩)
      (scan (line + text.count '\n') (cs.drop (rule.length (c :: cs) - 1))).map
        (token.toList ++ ·)
termination_by cs => cs.length
decreasing_by simp only [List.length_drop, List.length_cons]; omega

theorem scan_of_longest? {line : Nat} {cs : List Char} {rule : Rule}
    (h : Rule.longest? cs = some rule) :
    scan line cs =
      (scan (line + (cs.take (rule.length cs)).count '\n') (cs.drop (rule.length cs))).map
        (((rule.lexeme? (cs.take (rule.length cs))).map (⟨·, line⟩)).toList ++ ·) := by
  have positive := Rule.length_pos_of_longest? h
  cases cs with
  | nil => exact absurd (rule.length_le []) (Nat.not_le_of_lt positive)
  | cons c cs =>
    obtain ⟨n, length⟩ := Nat.exists_eq_add_of_lt positive
    rw [scan, h]
    simp [length]

theorem scan_of_stray {line : Nat} {c : Char} {cs : List Char}
    (h : Rule.longest? (c :: cs) = none) :
    scan line (c :: cs) = .error (strayCharacter c line) := by
  rw [scan, h]

def ofSource (source : String) : Except SyntaxError (List Token) := scan 1 source.toList

end Token
end ScalarScript
