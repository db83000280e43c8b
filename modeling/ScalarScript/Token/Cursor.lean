import ScalarScript.Token.Reading

/-!
# Cursors

A cursor is a place in a text with a count of lines that is kept while the text is read. Two rules
change the count: a line end adds one, and a block comment adds the line ends in it. The count is
looked at behind a lexeme, when the comments in front of it have been counted as well, so a line end
takes its own step back. There is no step back from zero.
-/

namespace ScalarScript

/-- What a lexeme of the rule adds to the count of lines. -/
def Rule.lineEnds : Rule → List Char → Nat
  | symbol, text => if text = ['\n'] then 1 else 0
  | blockComment, text => text.count '\n'
  | _, _ => 0

structure Cursor where
  line : Nat
  rest : List Char

namespace Cursor

def start (source : String) : Cursor := ⟨1, source.toList⟩

/-- The cursor behind the lexeme of the rule. -/
def advance (cur : Cursor) (rule : Rule) : Cursor :=
  ⟨cur.line + rule.lineEnds (cur.rest.take (rule.length cur.rest)),
    cur.rest.drop (rule.length cur.rest)⟩

theorem length_advance_lt {cur : Cursor} {rule : Rule} (h : Rule.longest? cur.rest = some rule) :
    (cur.advance rule).rest.length < cur.rest.length := by
  have positive := Rule.length_pos_of_longest? h
  have bound := rule.length_le cur.rest
  rw [advance, List.length_drop]
  omega

/-- Skips comments and blanks. What comes then is a lexeme, with the cursor behind it, or a
character that starts none. -/
def next? (cur : Cursor) : Option (Except Char Lexeme × Cursor) :=
  match _found : Rule.longest? cur.rest with
  | none => cur.rest.head?.map fun c => (.error c, cur)
  | some rule =>
    match rule.lexeme? (cur.rest.take (rule.length cur.rest)) with
    | some l => some (.ok l, cur.advance rule)
    | none => (cur.advance rule).next?
termination_by cur.rest.length
decreasing_by exact length_advance_lt _found

theorem length_lt_of_next? {cur behind : Cursor} {l : Lexeme}
    (h : cur.next? = some (.ok l, behind)) : behind.rest.length < cur.rest.length := by
  fun_induction next? cur with
  | case1 cur stray =>
    obtain ⟨c, -, heq⟩ := Option.map_eq_some_iff.1 h
    cases heq
  | case2 cur rule found l' lexeme =>
    cases h
    exact length_advance_lt found
  | case3 cur rule found skipped ih => exact Nat.lt_trans (ih h) (length_advance_lt found)

/-- The line of a lexeme, told from the count behind it. -/
def lineOf (l : Lexeme) (count : Nat) : Option Nat :=
  if l = .newLine then
    if count = 0 then none else some (count - 1)
  else some count

/-- The tokens of the rest of the text, or nothing if a step back from zero is due. -/
def tokens (cur : Cursor) : Option (Except SyntaxError (List Token)) :=
  match _found : cur.next? with
  | none => some (.ok [])
  | some (.error c, behind) => some (.error (Token.strayCharacter c behind.line))
  | some (.ok l, behind) => do
    let line ← lineOf l behind.line
    let ts ← tokens behind
    return ts.map (⟨l, line⟩ :: ·)
termination_by cur.rest.length
decreasing_by exact length_lt_of_next? _found

section Equations

variable {cur cur' behind : Cursor}

theorem next?_of_stuck (cur : Cursor) (h : Rule.longest? cur.rest = none) :
    cur.next? = cur.rest.head?.map fun c => (.error c, cur) := by
  rw [next?]
  split <;> simp_all

theorem next?_of_lexeme (cur : Cursor) {rule : Rule} {l : Lexeme}
    (h : Rule.longest? cur.rest = some rule)
    (lexeme : rule.lexeme? (cur.rest.take (rule.length cur.rest)) = some l) :
    cur.next? = some (.ok l, cur.advance rule) := by
  rw [next?]
  split <;> simp_all

theorem next?_of_skipped (cur : Cursor) {rule : Rule} (h : Rule.longest? cur.rest = some rule)
    (skipped : rule.lexeme? (cur.rest.take (rule.length cur.rest)) = none) :
    cur.next? = (cur.advance rule).next? := by
  rw [next?]
  split <;> simp_all

theorem tokens_of_end (h : cur.next? = none) : cur.tokens = some (.ok []) := by
  rw [tokens]
  split <;> simp_all

theorem tokens_of_stray {c : Char} (h : cur.next? = some (.error c, behind)) :
    cur.tokens = some (.error (Token.strayCharacter c behind.line)) := by
  rw [tokens]
  split <;> simp_all

theorem tokens_of_lexeme {l : Lexeme} (h : cur.next? = some (.ok l, behind)) :
    cur.tokens =
      (do
        let line ← lineOf l behind.line
        let ts ← behind.tokens
        return ts.map (⟨l, line⟩ :: ·)) := by
  rw [tokens]
  split <;> simp_all

theorem tokens_congr (h : cur.next? = cur'.next?) : cur.tokens = cur'.tokens := by
  cases found : cur'.next? with
  | none => rw [tokens_of_end found, tokens_of_end (h.trans found)]
  | some p =>
    obtain ⟨c | l, behind⟩ := p
    · rw [tokens_of_stray found, tokens_of_stray (h.trans found)]
    · rw [tokens_of_lexeme found, tokens_of_lexeme (h.trans found)]

end Equations

end Cursor
end ScalarScript
