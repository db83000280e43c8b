/-!
# Programs

A program is a list of statements; a statement assigns the value of an expression to a name or
states an expression alone. Every node keeps the line that a message or an event names for it.
-/

namespace ScalarScript

inductive Operator where
  | add
  | sub
  | mul
  | div
  | pow
  deriving DecidableEq, Repr

namespace Operator

def symbol : Operator → String
  | add => "+"
  | sub => "-"
  | mul => "*"
  | div => "/"
  | pow => "^"

end Operator

inductive Expr where
  | number (value : Float) (line : Nat)
  | name (text : String) (line : Nat)
  | negation (operand : Expr) (line : Nat)
  | binary (op : Operator) (left right : Expr) (line : Nat)
  | call (function : String) (arguments : List Expr) (line : Nat)

namespace Expr

def line : Expr → Nat
  | number _ n | name _ n | negation _ n | binary _ _ _ n | call _ _ n => n

end Expr

inductive Statement where
  | assignment (name : String) (value : Expr) (line : Nat)
  | expression (value : Expr) (line : Nat)

abbrev Program := List Statement

end ScalarScript
