import ScalarScript.Program.Phrase
import ScalarScript.Token.Reading

/-!
# Reading programs

Statements are separated by semicolons and line ends, any number of them, also before the first
and after the last. A name and an equals sign in front of an expression make an assignment.
-/

namespace ScalarScript
namespace Phrase

def expression (ts : List Token) : Reading Expr ts.length := chain .sum ts

/-- The line of the first token, or zero if there is none. -/
def firstLine (ts : List Token) : Nat := (ts.head?.map Token.line).getD 0

/-- An assignment is only begun where its name and equals sign are seen, so taking these two has no
error of its own: the refusals of another token, or of none, in place of the name are never reached
and are left out. -/
def statement (ts : List Token) : Reading Statement ts.length :=
  match ts with
  | ⟨.name s, line⟩ :: ⟨.equals, _⟩ :: ts => do
    let ⟨e, rest, _⟩ ← expression ts
    return ⟨.assignment s e line, rest, by simp; omega⟩
  | ts => do
    let ⟨e, rest, shorter⟩ ← expression ts
    return ⟨.expression e (firstLine ts), rest, shorter⟩

end Phrase

namespace Program

/-- The statements of a token list; what follows a statement must be a separator. -/
def statements (ts : List Token) : Except SyntaxError Program :=
  match ts with
  | [] => .ok []
  | t :: ts => do
    if t.lexeme.isSeparator then statements ts
    else
      match ← Phrase.statement (t :: ts) with
      | ⟨s, [], _⟩ => return [s]
      | ⟨s, next :: rest, _⟩ =>
        if next.lexeme.isSeparator then return s :: (← statements rest)
        else throw (.trailingToken next.lexeme.text next.line)
termination_by ts.length
decreasing_by all_goals grind

/-- The line of the last token, or one if there is none. -/
def lastLine (ts : List Token) : Nat := (ts.getLast?.map Token.line).getD 1

def ofTokens (ts : List Token) : Except SyntaxError Program :=
  (statements ts).mapError (SyntaxError.placeEnd (lastLine ts))

def ofSource (source : String) : Except SyntaxError Program :=
  Token.ofSource source >>= ofTokens

end Program
end ScalarScript
