import ScalarScript.Program
import ScalarScript.SyntaxError
import ScalarScript.Token

/-!
# Phrases

A phrase is the longest front of a token list that an expression reaches. Sums and products are
chains that lean to the left, a minus sign binds looser than a power, and the exponent of a power
may have a minus sign of its own. Each reading returns the tokens left over with a proof that
they are fewer, which is what the recursion descends on.
-/

namespace ScalarScript

/-- A value read from the front of a token list, and the rest of the list. -/
structure Phrase (α : Type) (bound : Nat) where
  value : α
  rest : List Token
  shorter : rest.length < bound

/-- The two kinds of left-leaning chains. -/
inductive Level where
  | sum
  | product
  deriving DecidableEq, Repr

namespace Operator

def ofLexeme? : Lexeme → Option Operator
  | .plus => some add
  | .minus => some sub
  | .star => some mul
  | .slash => some div
  | .caret => some pow
  | _ => none

/-- The chain that the operator belongs to; powers form no chain. -/
def level? : Operator → Option Level
  | add | sub => some .sum
  | mul | div => some .product
  | pow => none

end Operator

namespace Level

def operator? (level : Level) (lexeme : Lexeme) : Option Operator :=
  (Operator.ofLexeme? lexeme).filter (·.level? = some level)

/-- Orders the mutual recursion where it takes no token. -/
def height : Level → Nat
  | sum => 5
  | product => 3

end Level

namespace Phrase

abbrev Reading (α : Type) (bound : Nat) := Except SyntaxError (Phrase α bound)

mutual

/-- One or more operands with operators of the level between them. -/
def chain (level : Level) (ts : List Token) : Reading Expr ts.length := do
  let ⟨first, rest, _⟩ ← operand level ts
  let ⟨e, rest', _⟩ ← chainFrom level first rest
  return ⟨e, rest', by omega⟩
termination_by (ts.length, level.height + 1)
decreasing_by all_goals decreasing_with omega

/-- Extends a chain that has been read as `left`. -/
def chainFrom (level : Level) (left : Expr) (ts : List Token) : Reading Expr (ts.length + 1) :=
  match ts with
  | [] => .ok ⟨left, [], by simp⟩
  | t :: ts =>
    match level.operator? t.lexeme with
    | none => .ok ⟨left, t :: ts, by simp⟩
    | some op => do
      let ⟨right, rest, _⟩ ← operand level ts
      let ⟨e, rest', _⟩ ← chainFrom level (.binary op left right t.line) rest
      return ⟨e, rest', by simp; omega⟩
termination_by (ts.length, 0)
decreasing_by all_goals decreasing_with omega

/-- A sum is a chain of products, and a product a chain of signed powers. -/
def operand (level : Level) (ts : List Token) : Reading Expr ts.length :=
  match level with
  | .sum => chain .product ts
  | .product => unary ts
termination_by (ts.length, level.height)
decreasing_by all_goals exact Prod.Lex.right _ (by decide)

/-- A power with any number of minus signs in front. -/
def unary (ts : List Token) : Reading Expr ts.length :=
  match ts with
  | ⟨.minus, line⟩ :: ts => do
    let ⟨e, rest, _⟩ ← unary ts
    return ⟨.negation e line, rest, by simp; omega⟩
  | ts => power ts
termination_by (ts.length, 2)
decreasing_by all_goals decreasing_with omega

/-- A base, and behind a caret its exponent, which may be a power again. -/
def power (ts : List Token) : Reading Expr ts.length := do
  match ← primary ts with
  | ⟨base, [], shorter⟩ => return ⟨base, [], shorter⟩
  | ⟨base, t :: rest, shorter⟩ =>
    if t.lexeme = .caret then
      let ⟨exponent, rest', _⟩ ← unary rest
      return ⟨.binary .pow base exponent t.line, rest', by simp at shorter; omega⟩
    else return ⟨base, t :: rest, shorter⟩
termination_by (ts.length, 1)
decreasing_by all_goals decreasing_with grind

/-- A number, a name, a call, or an expression in parentheses, which leave no node. -/
def primary (ts : List Token) : Reading Expr ts.length :=
  match ts with
  | [] => .error (.unexpectedEnd 0)
  | t :: ts =>
    match t.lexeme with
    | .number x => .ok ⟨.number x t.line, ts, by simp⟩
    | .name s =>
      match ts with
      | ⟨.leftParen, opening⟩ :: ts => do
        let ⟨es, rest, _⟩ ← arguments opening ts
        return ⟨.call s es t.line, rest, by simp; omega⟩
      | ts => .ok ⟨.name s t.line, ts, by simp⟩
    | .leftParen => do
      match ← chain .sum ts with
      | ⟨_, [], _⟩ => throw (.unclosedParen t.line)
      | ⟨e, closing :: rest, shorter⟩ =>
        if closing.lexeme = .rightParen then return ⟨e, rest, by simp at *; omega⟩
        else throw (.unclosedParen t.line)
    | other => .error (.unexpectedToken other.text t.line)
termination_by (ts.length, 0)
decreasing_by all_goals decreasing_with grind

/-- The arguments of a call, up to the parenthesis that closes the one on line `opening`. -/
def arguments (opening : Nat) (ts : List Token) : Reading (List Expr) ts.length :=
  match ts with
  | ⟨.rightParen, _⟩ :: ts => .ok ⟨[], ts, by simp⟩
  | ts => someArguments opening ts
termination_by (ts.length, 8)
decreasing_by all_goals decreasing_with omega

/-- One or more arguments between commas, and the closing parenthesis. -/
def someArguments (opening : Nat) (ts : List Token) : Reading (List Expr) ts.length := do
  match ← chain .sum ts with
  | ⟨_, [], _⟩ => throw (.unexpectedEnd opening)
  | ⟨e, t :: rest, shorter⟩ =>
    match t.lexeme with
    | .comma =>
      let ⟨es, rest', _⟩ ← someArguments opening rest
      return ⟨e :: es, rest', by simp at shorter; omega⟩
    | .rightParen => return ⟨[e], rest, Nat.lt_of_succ_lt shorter⟩
    | _ => throw (.unclosedParen opening)
termination_by (ts.length, 7)
decreasing_by
  · exact Prod.Lex.right _ (by decide)
  · exact Prod.Lex.left _ _ (Nat.lt_of_succ_lt shorter)

end

end Phrase
end ScalarScript
