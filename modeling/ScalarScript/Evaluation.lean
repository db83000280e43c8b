import ScalarScript.Builtin
import ScalarScript.Environment
import ScalarScript.Logged

/-!
# Evaluation

Operands and arguments are evaluated from left to right and the first error ends the run. A
statement yields the value of its expression, and an assignment binds it for the statements
behind it; the value of a program is that of its last statement. The logged evaluator is the only
one: `eval` is its outcome, and its equations say what evaluation means without the events.
-/

namespace ScalarScript
namespace Operator

def apply : Operator → Float → Float → Float
  | add, x, y => x + y
  | sub, x, y => x - y
  | mul, x, y => x * y
  | div, x, y => x / y
  | pow, x, y => x.pow y

/-- An error on the left comes before one on the right. -/
def applyValues (op : Operator) (left right : Value) : Except EvalError Value := do
  let x ← left.asNumber
  let y ← right.asNumber
  return .number (op.apply x y)

end Operator

namespace Expr

mutual

def logged (env : Environment) : Expr → Logged Value
  | .number x line => do
    .report (.enter line)
    return .number x
  | .name s line => do
    .report (.enter line)
    .ofExcept (env.lookup s >>= Value.toExcept)
  | .negation e line => do
    .report (.enter line)
    let v ← logged env e
    let x ← .ofExcept v.asNumber
    .report (.negation x)
    return .number (-x)
  | .binary op l r line => do
    .report (.enter line)
    let x ← logged env l
    let y ← logged env r
    .report (.operands x op y)
    .ofExcept (op.applyValues x y)
  | .call f es line => do
    .report (.enter line)
    let vs ← loggedAll env es
    .report (.call f vs.length line)
    .ofExcept (Builtin.call f vs)

def loggedAll (env : Environment) : List Expr → Logged (List Value)
  | [] => return []
  | e :: es => do
    let v ← logged env e
    let vs ← loggedAll env es
    return v :: vs

end

/-- As a `Float` has one NaN, results that are NaN are not told apart by their signs or payloads. -/
def eval (env : Environment) (e : Expr) : Except EvalError Value := (logged env e).outcome

def evalAll (env : Environment) (es : List Expr) : Except EvalError (List Value) :=
  (loggedAll env es).outcome

section Equations

variable (env : Environment)

@[simp] theorem eval_number (x : Float) (line : Nat) :
    eval env (.number x line) = .ok (.number x) := rfl

@[simp] theorem eval_name (s : String) (line : Nat) :
    eval env (.name s line) = env.lookup s >>= Value.toExcept := by
  simp only [eval, logged, Logged.outcome_bind]
  rfl

@[simp] theorem eval_negation (e : Expr) (line : Nat) :
    eval env (.negation e line) =
      (do
        let v ← eval env e
        let x ← v.asNumber
        return .number (-x)) := by
  simp only [eval, logged, Logged.outcome_bind]
  rfl

@[simp] theorem eval_binary (op : Operator) (l r : Expr) (line : Nat) :
    eval env (.binary op l r line) =
      (do
        let x ← eval env l
        let y ← eval env r
        op.applyValues x y) := by
  simp only [eval, logged, Logged.outcome_bind]
  rfl

@[simp] theorem eval_call (f : String) (es : List Expr) (line : Nat) :
    eval env (.call f es line) = evalAll env es >>= Builtin.call f := by
  simp only [eval, evalAll, logged, Logged.outcome_bind]
  rfl

@[simp] theorem evalAll_nil : evalAll env [] = .ok [] := rfl

@[simp] theorem evalAll_cons (e : Expr) (es : List Expr) :
    evalAll env (e :: es) =
      (do
        let v ← eval env e
        let vs ← evalAll env es
        return v :: vs) := by
  simp only [eval, evalAll, loggedAll, Logged.outcome_bind]
  rfl

end Equations

end Expr

namespace Statement

/-- The value of a statement, and the environment for the statements behind it. -/
def logged (env : Environment) : Statement → Logged (Value × Environment)
  | .assignment name e line => do
    let v ← e.logged env
    .report (.binding name v line)
    return (v, env.bind name v)
  | .expression e _ => do
    let v ← e.logged env
    return (v, env)

end Statement

namespace Program

/-- Runs statements in order. Without a statement there is no value. -/
def loggedStatements (env : Environment) : Program → Logged (Value × Environment)
  | [] => .ofExcept (.error .emptyProgram)
  | [s] => s.logged env
  | s :: next :: rest => do
    let (_, env') ← s.logged env
    loggedStatements env' (next :: rest)

def evalStatements (env : Environment) (p : Program) : Except EvalError (Value × Environment) :=
  (loggedStatements env p).outcome

/-- The value of a program in an environment, which stays as it is. -/
def value (env : Environment) (p : Program) : Value :=
  Value.ofExcept ((evalStatements env p).map Prod.fst)

/-- The events of a whole run; a failure is reported at the end. -/
def events (env : Environment) (p : Program) : List Event :=
  let run := loggedStatements env p
  match run.outcome with
  | .ok _ => run.events
  | .error e => run.events ++ [.failure e]

/-- The log of a whole run as far as the verbosity shows it. -/
def log (verbosity : Verbosity) (env : Environment) (p : Program) : List String :=
  ((events env p).filter (·.isShown verbosity)).map (Event.logLine p.length)

end Program
end ScalarScript
