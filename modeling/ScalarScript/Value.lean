import ScalarScript.Decimal.Style

/-!
# Values

A value is a number or an error. Errors are values so that a failed result can be kept and bound
like any other; its message is free text, because a caller may bind errors of its own.
-/

namespace ScalarScript

inductive ErrorKind where
  | domain
  | unbound
  | unknownFunction
  | arity
  | emptyProgram
  deriving DecidableEq, Repr

namespace ErrorKind

def all : List ErrorKind := [domain, unbound, unknownFunction, arity, emptyProgram]

def name : ErrorKind → String
  | domain => "DomainError"
  | unbound => "UnboundError"
  | unknownFunction => "UnknownFunctionError"
  | arity => "ArityError"
  | emptyProgram => "EmptyProgram"

end ErrorKind

structure EvalError where
  kind : ErrorKind
  message : String
  deriving DecidableEq, Repr

namespace EvalError

def negativeArgument (function : String) : EvalError :=
  ⟨.domain, s!"{function} of negative number"⟩

def unbound (name : String) : EvalError := ⟨.unbound, s!"{name} is not defined"⟩

def unknownFunction (name : String) : EvalError := ⟨.unknownFunction, s!"{name} is not a function"⟩

def arity (function : String) (expected found : Nat) : EvalError :=
  let plural := if expected = 1 then "" else "s"
  ⟨.arity, s!"{function} expects {expected} argument{plural}, got {found}"⟩

def emptyProgram : EvalError := ⟨.emptyProgram, "program has no statements"⟩

def text (e : EvalError) : String := s!"{e.kind.name}: {e.message}"

end EvalError

/-- A `Float` has one NaN, so a value does not record the sign or the payload of a NaN. -/
inductive Value where
  | number (x : Float)
  | error (e : EvalError)
  deriving DecidableEq

namespace Value

/-- Equality as numbers compare: the two zeros are equal, and nothing equals what is not a number.
By contrast `=` compares numbers bit by bit. -/
def equals : Value → Value → Bool
  | number x, number y => x == y
  | error e, error f => e = f
  | _, _ => false

def isError : Value → Bool
  | number _ => false
  | error _ => true

def kind? : Value → Option ErrorKind
  | number _ => none
  | error e => some e.kind

def number? : Value → Option Float
  | number x => some x
  | error _ => none

def asNumber : Value → Except EvalError Float
  | number x => .ok x
  | error e => .error e

/-- An error value as a failure. -/
def toExcept : Value → Except EvalError Value
  | number x => .ok (number x)
  | error e => .error e

/-- A failure as an error value. -/
def ofExcept : Except EvalError Value → Value
  | .ok v => v
  | .error e => error e

@[simp] theorem ofExcept_toExcept (v : Value) : ofExcept v.toExcept = v := by cases v <;> rfl

def text : Value → String
  | number x => NumberStyle.plain.write x
  | error e => e.text

end Value
end ScalarScript
