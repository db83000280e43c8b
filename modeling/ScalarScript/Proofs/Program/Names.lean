import ScalarScript.Proofs.Program.Runs

/-!
# Names that a program reads, assigns and calls

The name of a called function is not read: functions are found in their table and never among the
variables. A statement assigns at most one name, after its expression has been evaluated. So a
program needs a name from outside if some statement reads it and no earlier one assigns it.
-/

namespace ScalarScript

namespace Expr

mutual

/-- The names whose values are read, from left to right. -/
def names : Expr → List String
  | .number _ _ => []
  | .name s _ => [s]
  | .negation e _ => e.names
  | .binary _ l r _ => l.names ++ r.names
  | .call _ es _ => namesAll es

def namesAll : List Expr → List String
  | [] => []
  | e :: es => e.names ++ namesAll es

end

mutual

/-- The called functions, each with the number of its arguments. -/
def calls : Expr → List (String × Nat)
  | .number _ _ | .name _ _ => []
  | .negation e _ => e.calls
  | .binary _ l r _ => l.calls ++ r.calls
  | .call f es _ => (f, es.length) :: callsAll es

def callsAll : List Expr → List (String × Nat)
  | [] => []
  | e :: es => e.calls ++ callsAll es

end

end Expr

namespace Statement

def expr : Statement → Expr
  | .assignment _ e _ | .expression e _ => e

/-- The name that is assigned. -/
def target? : Statement → Option String
  | .assignment x _ _ => some x
  | .expression _ _ => none

/-- The environment for the statements behind one whose value is `v`. -/
def after (s : Statement) (env : Environment) (v : Value) : Environment :=
  match s.target? with
  | some x => env.bind x v
  | none => env

variable (s : Statement) (env : Environment)

/-- Assignments and expressions differ only in the environment they leave. -/
theorem eval_eq :
    s.eval env =
      (do
        let v ← s.expr.eval env
        return (v, s.after env v)) := by
  cases s with
  | assignment x e n => exact eval_assignment env x e n
  | expression e n => exact eval_expression env e n

theorem find?_after (v : Value) (x : String) :
    (s.after env v).find? x = if s.target? = some x then some v else env.find? x := by
  cases s with
  | assignment y e n =>
    show (env.bind y v).find? x = _
    rw [Environment.find?_bind]
    simp only [target?, Option.some.injEq, eq_comm]
  | expression e n => rfl

end Statement

namespace Program

/-- Some statement reads the name and none before it assigns it. -/
def Needs (p : Program) (x : String) : Prop :=
  ∃ before s rest, p = before ++ s :: rest ∧ x ∈ s.expr.names ∧ ∀ t ∈ before, t.target? ≠ some x

/-- Some statement calls the function with that many arguments. -/
def Calls (p : Program) (f : String) (n : Nat) : Prop := ∃ s ∈ p, (f, n) ∈ s.expr.calls

variable {s : Statement} {p : Program} {x : String}

theorem not_needs_nil : ¬ Needs [] x := by
  rintro ⟨before, s, rest, hp, -⟩
  simp at hp

theorem needs_cons :
    Needs (s :: p) x ↔ x ∈ s.expr.names ∨ s.target? ≠ some x ∧ Needs p x := by
  constructor
  · rintro ⟨_ | ⟨t, before⟩, u, rest, hp, hx, hbefore⟩
    · obtain ⟨rfl, -⟩ := List.cons.inj hp
      exact Or.inl hx
    · obtain ⟨rfl, rfl⟩ := List.cons.inj hp
      obtain ⟨ht, hrest⟩ := List.forall_mem_cons.mp hbefore
      exact Or.inr ⟨ht, before, u, rest, rfl, hx, hrest⟩
  · rintro (hx | ⟨hs, before, u, rest, rfl, hx, hbefore⟩)
    · exact ⟨[], s, p, rfl, hx, by simp⟩
    · exact ⟨s :: before, u, rest, rfl, hx, List.forall_mem_cons.mpr ⟨hs, hbefore⟩⟩

theorem calls_cons {f : String} {n : Nat} :
    Calls (s :: p) f n ↔ (f, n) ∈ s.expr.calls ∨ Calls p f n := by
  simp [Calls]

/-- A run by values: the environment left by a statement is where the rest runs. -/
theorem evalStatements_cons_eq (env : Environment) (s : Statement) {p : Program} (hp : p ≠ []) :
    evalStatements env (s :: p) =
      (do
        let v ← s.expr.eval env
        evalStatements (s.after env v) p) := by
  rw [evalStatements_cons env s hp, s.eval_eq, bind_assoc]
  rfl

/-- The value of the last statement, or the error that ended the run. -/
def result (env : Environment) (p : Program) : Except EvalError Value :=
  (evalStatements env p).map Prod.fst

theorem value_eq_ofExcept (env : Environment) (p : Program) :
    value env p = Value.ofExcept (result env p) := rfl

theorem result_single (env : Environment) (s : Statement) : result env [s] = s.expr.eval env := by
  rw [result, evalStatements_single, s.eval_eq]
  cases s.expr.eval env <;> rfl

theorem value_single (env : Environment) (s : Statement) :
    value env [s] = Value.ofExcept (s.expr.eval env) := by
  rw [value_eq_ofExcept, result_single]

theorem result_cons (env : Environment) (s : Statement) {p : Program} (hp : p ≠ []) :
    result env (s :: p) =
      (do
        let v ← s.expr.eval env
        result (s.after env v) p) := by
  rw [result, evalStatements_cons_eq env s hp]
  cases s.expr.eval env <;> rfl

theorem value_cons_ok {env : Environment} {s : Statement} {v : Value} (h : s.expr.eval env = .ok v)
    {p : Program} (hp : p ≠ []) : value env (s :: p) = value (s.after env v) p := by
  rw [value_eq_ofExcept, result_cons env s hp, h]
  rfl

end Program
end ScalarScript
