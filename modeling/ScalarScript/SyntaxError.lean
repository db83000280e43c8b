/-!
# Syntax errors

What keeps a text from being a program, with the line where it shows. Lines count from one; an
end of input found by a phrase that does not know the whole program has line zero until the
program places it on its last line.
-/

namespace ScalarScript

inductive SyntaxError where
  | unexpectedToken (text : String) (line : Nat)
  | unexpectedEnd (line : Nat)
  | unclosedParen (line : Nat)
  | trailingToken (text : String) (line : Nat)
  | invalidNumber (text : String) (line : Nat)
  deriving DecidableEq, Repr

namespace SyntaxError

def line : SyntaxError → Nat
  | unexpectedToken _ n | unexpectedEnd n | unclosedParen n | trailingToken _ n
  | invalidNumber _ n => n

/-- Gives an end of input without a place the line `n`. -/
def placeEnd (n : Nat) : SyntaxError → SyntaxError
  | unexpectedEnd 0 => unexpectedEnd n
  | e => e

def complaint : SyntaxError → String
  | unexpectedToken text _ => s!"Unexpected token: {text}."
  | unexpectedEnd _ => "Unexpected end of input."
  | unclosedParen _ => "Expected closing parenthesis ')' but none found."
  | trailingToken text _ => s!"Extra tokens after statement. Check your input: {text}"
  | invalidNumber text _ => s!"Invalid number literal '{text}'."

def message (e : SyntaxError) : String := s!"Error on line {e.line}: {e.complaint}"

end SyntaxError
end ScalarScript
