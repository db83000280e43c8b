import ScalarScript.Proofs.Program.Lines

/-!
# Runs of programs

The equations of a run without its events: a statement yields a value and the environment for the
statements behind it, and a program runs its statements one after the other. So a program in two
parts runs the first part and then, in the environment that it leaves, the second. Only the first
part may be empty, since then it leaves the environment as it is.
-/

namespace ScalarScript

/-- The value of a statement, and the environment for the statements behind it. -/
def Statement.eval (env : Environment) (s : Statement) : Except EvalError (Value × Environment) :=
  (s.logged env).outcome

namespace Statement

variable (env : Environment)

theorem eval_assignment (x : String) (e : Expr) (n : Nat) :
    eval env (.assignment x e n) =
      (do
        let v ← e.eval env
        return (v, env.bind x v)) := by
  simp only [eval, logged, Logged.outcome_bind]
  rfl

theorem eval_expression (e : Expr) (n : Nat) :
    eval env (.expression e n) =
      (do
        let v ← e.eval env
        return (v, env)) := by
  simp only [eval, logged, Logged.outcome_bind]
  rfl

theorem eval_mapLines (f : Nat → Nat) (s : Statement) : (s.mapLines f).eval env = s.eval env := by
  cases s with
  | assignment x e n => rw [mapLines, eval_assignment, eval_assignment, Expr.eval_mapLines]
  | expression e n => rw [mapLines, eval_expression, eval_expression, Expr.eval_mapLines]

end Statement

namespace Program

variable (env : Environment)

theorem value_of_evalStatements {env : Environment} {p : Program} {r : Value × Environment}
    (h : evalStatements env p = .ok r) : value env p = r.1 := by
  rw [value, h]
  rfl

theorem value_of_evalStatements_error {env : Environment} {p : Program} {e : EvalError}
    (h : evalStatements env p = .error e) : value env p = .error e := by
  rw [value, h]
  rfl

theorem evalStatements_single (s : Statement) : evalStatements env [s] = s.eval env := rfl

theorem evalStatements_cons (s : Statement) {p : Program} (hp : p ≠ []) :
    evalStatements env (s :: p) =
      (do
        let (_, env') ← s.eval env
        evalStatements env' p) := by
  cases p with
  | nil => exact absurd rfl hp
  | cons next rest =>
    simp only [evalStatements, loggedStatements, Logged.outcome_bind]
    rfl

theorem evalStatements_mapLines (f : Nat → Nat) (p : Program) :
    evalStatements env (p.mapLines f) = evalStatements env p := by
  induction p generalizing env with
  | nil => rfl
  | cons s p ih =>
    show evalStatements env (s.mapLines f :: mapLines f p) = _
    by_cases hp : p = []
    · subst hp
      show evalStatements env [s.mapLines f] = evalStatements env [s]
      rw [evalStatements_single, evalStatements_single, s.eval_mapLines]
    · have hp' : mapLines f p ≠ [] := by simpa [mapLines] using hp
      rw [evalStatements_cons env _ hp', evalStatements_cons env s hp, s.eval_mapLines]
      simp only [ih]

/-- The environment that statements leave, or the error of the first one that fails. No statement is
needed for it. -/
def reached (env : Environment) : Program → Except EvalError Environment
  | [] => .ok env
  | s :: p => do
    let (_, env') ← s.eval env
    reached env' p

theorem reached_append (p q : Program) :
    reached env (p ++ q) =
      (do
        let env' ← reached env p
        reached env' q) := by
  induction p generalizing env with
  | nil => rfl
  | cons s p ih =>
    rw [List.cons_append, reached, reached, bind_assoc]
    apply bind_congr
    intro r
    exact ih r.2

theorem reached_eq {p : Program} (hp : p ≠ []) :
    reached env p = (evalStatements env p).map Prod.snd := by
  induction p generalizing env with
  | nil => exact absurd rfl hp
  | cons s p ih =>
    rw [reached]
    by_cases hp' : p = []
    · subst hp'
      rw [evalStatements_single]
      cases s.eval env <;> rfl
    · rw [evalStatements_cons env s hp']
      cases s.eval env with
      | error e => rfl
      | ok r => exact ih r.2 hp'

/-- The last statements run in the environment that the ones before them leave. -/
theorem evalStatements_append_reached (p : Program) {q : Program} (hq : q ≠ []) :
    evalStatements env (p ++ q) =
      (do
        let env' ← reached env p
        evalStatements env' q) := by
  induction p generalizing env with
  | nil => rfl
  | cons s p ih =>
    rw [List.cons_append, evalStatements_cons env s (by simp [hq]), reached, bind_assoc]
    apply bind_congr
    intro r
    exact ih r.2

/-- A program in two parts runs one after the other. -/
theorem evalStatements_append {p q : Program} (hp : p ≠ []) (hq : q ≠ []) :
    evalStatements env (p ++ q) =
      (do
        let (_, env') ← evalStatements env p
        evalStatements env' q) := by
  rw [evalStatements_append_reached env p hq, reached_eq env hp]
  cases evalStatements env p <;> rfl

end Program
end ScalarScript
