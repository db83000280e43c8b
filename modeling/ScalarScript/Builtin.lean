import ScalarScript.Value

/-!
# Built-in functions

A call finds its function by name in a fixed table, and the table gives the number of arguments.
Each function also checks its own arguments, so it can be called directly: a wrong number of
arguments comes before an error among them, and the first error among them is the result.
-/

namespace ScalarScript
namespace Builtin

def oneNumber (function : String) : List Value → Except EvalError Float
  | [x] => x.asNumber
  | args => .error (.arity function 1 args.length)

def twoNumbers (function : String) : List Value → Except EvalError (Float × Float)
  | [x, y] => do return (← x.asNumber, ← y.asNumber)
  | args => .error (.arity function 2 args.length)

/-- A function of one number that is defined everywhere. -/
def real (function : String) (f : Float → Float) (args : List Value) : Except EvalError Value := do
  return .number (f (← oneNumber function args))

def negativeInfinity : Float := -Binary64.ofCode Binary64.infinity

/-- A logarithm: both zeros give minus infinity, and negative numbers are outside its domain. -/
def logarithm (function : String) (f : Float → Float) (args : List Value) :
    Except EvalError Value := do
  let x ← oneNumber function args
  if x == 0 then return .number negativeInfinity
  else if x < 0 then throw (.negativeArgument function)
  else return .number (f x)

/-- Minus zero is not negative and is its own square root. -/
def squareRoot (args : List Value) : Except EvalError Value := do
  let x ← oneNumber "sqrt" args
  if x < 0 then throw (.negativeArgument "sqrt")
  else return .number x.sqrt

/-- The smaller number; what is not a number gives way to what is. -/
def lesser (x y : Float) : Float :=
  if x.isNaN then y else if y.isNaN then x else if y < x then y else x

/-- The larger number; what is not a number gives way to what is. -/
def greater (x y : Float) : Float :=
  if x.isNaN then y else if y.isNaN then x else if x < y then y else x

/-- The lesser of two numbers under the name `min`, the greater under any other name. -/
def extremum (function : String) (args : List Value) : Except EvalError Value := do
  let (x, y) ← twoNumbers function args
  return .number (if function = "min" then lesser x y else greater x y)

def power (args : List Value) : Except EvalError Value := do
  let (base, exponent) ← twoNumbers "pow" args
  return .number (base.pow exponent)

end Builtin

inductive Builtin where
  | log
  | log2
  | log10
  | exp
  | sqrt
  | abs
  | floor
  | ceil
  | round
  | min
  | max
  | pow
  deriving DecidableEq, Repr

namespace Builtin

def all : List Builtin := [log, log2, log10, exp, sqrt, abs, floor, ceil, round, min, max, pow]

theorem mem_all (f : Builtin) : f ∈ all := by cases f <;> decide

def name : Builtin → String
  | log => "log"
  | log2 => "log2"
  | log10 => "log10"
  | exp => "exp"
  | sqrt => "sqrt"
  | abs => "abs"
  | floor => "floor"
  | ceil => "ceil"
  | round => "round"
  | min => "min"
  | max => "max"
  | pow => "pow"

def arity : Builtin → Nat
  | min | max | pow => 2
  | _ => 1

/-- The function itself, with its own check of the arguments. -/
def handle : Builtin → List Value → Except EvalError Value
  | log => logarithm "log" Float.log
  | log2 => logarithm "log2" Float.log2
  | log10 => logarithm "log10" Float.log10
  | exp => real "exp" Float.exp
  | sqrt => squareRoot
  | abs => real "abs" Float.abs
  | floor => real "floor" Float.floor
  | ceil => real "ceil" Float.ceil
  | round => real "round" Float.round
  | min => extremum "min"
  | max => extremum "max"
  | pow => power

def ofName? (name : String) : Option Builtin := all.find? (·.name = name)

theorem ofName?_name (f : Builtin) : ofName? f.name = some f := by cases f <;> rfl

def names : List String := all.map name

def isName (name : String) : Bool := (ofName? name).isSome

/-- A call by name. -/
def call (name : String) (args : List Value) : Except EvalError Value :=
  match ofName? name with
  | none => .error (.unknownFunction name)
  | some f =>
    if args.length = f.arity then f.handle args
    else .error (.arity name f.arity args.length)

end Builtin
end ScalarScript
