import ScalarScript.Proofs.Program.Dependence
import ScalarScript.Proofs.Program.Visits

/-!
# Commuting assignments

Two assignments can be made in either order if neither reads the name that the other one assigns and
the names differ. The environments behind them are not the same, as their newest bindings stand in
another order, but every lookup has the same answer in both. No statement can tell such environments
apart: it has the same value in both, or the same error, and leaves environments of the same kind.
-/

namespace ScalarScript

namespace Environment

/-- All lookups have the same answers. -/
def Alike (env env' : Environment) : Prop := ∀ x, env.lookup x = env'.lookup x

variable {env env' : Environment}

theorem lookup_eq_iff {x : String} : env.lookup x = env'.lookup x ↔ env.find? x = env'.find? x := by
  unfold lookup
  constructor
  · intro h
    cases hx : env.find? x <;> cases hx' : env'.find? x <;> simp_all
  · intro h
    rw [h]

theorem alike_iff : env.Alike env' ↔ ∀ x, env.find? x = env'.find? x :=
  forall_congr' fun _ => lookup_eq_iff

theorem bind_comm {x y : String} (h : x ≠ y) (v w : Value) :
    ((env.bind x v).bind y w).Alike ((env.bind y w).bind x v) := by
  rw [alike_iff]
  intro z
  simp only [find?_bind]
  by_cases hy : z = y
  · subst hy
    rw [if_pos rfl, if_neg h.symm, if_pos rfl]
  · rw [if_neg hy, if_neg hy]

theorem Alike.after (h : env.Alike env') (s : Statement) (v : Value) :
    (s.after env v).Alike (s.after env' v) := by
  rw [alike_iff] at h ⊢
  intro x
  rw [s.find?_after, s.find?_after, h x]

end Environment

namespace Expr

variable {env env' : Environment}

theorem eval_alike (h : env.Alike env') (e : Expr) : e.eval env = e.eval env' :=
  e.eval_congr fun x _ => Environment.alike_iff.mp h x

end Expr

namespace Program

/-- Two runs that no lookup tells apart: they have the same value and lead to environments that are
alike, or they have the same error. -/
inductive SameEnd : Except EvalError (Value × Environment) →
    Except EvalError (Value × Environment) → Prop
  | ok {v env env'} : env.Alike env' → SameEnd (.ok (v, env)) (.ok (v, env'))
  | error {e} : SameEnd (.error e) (.error e)

variable {env env' : Environment}

/-- Each statement leaves two environments that are alike again. -/
theorem sameEnd_evalStatements (h : env.Alike env') (p : Program) :
    SameEnd (evalStatements env p) (evalStatements env' p) := by
  induction p generalizing env env' with
  | nil => exact .error
  | cons s p ih =>
    have hs := s.expr.eval_alike h
    by_cases hp : p = []
    · subst hp
      rw [evalStatements_single, evalStatements_single, s.eval_eq, s.eval_eq, hs]
      cases s.expr.eval env' with
      | error e => exact .error
      | ok v => exact .ok (h.after s v)
    · rw [evalStatements_cons_eq env s hp, evalStatements_cons_eq env' s hp, hs]
      cases s.expr.eval env' with
      | error e => exact .error
      | ok v => exact ih (h.after s v)

/-- An assignment does not change the value of a second one that does not read its name. -/
theorem reached_assignments {x : String} {e₂ : Expr} (hx : x ∉ e₂.names) (env : Environment)
    (y : String) (e₁ : Expr) (n m : Nat) :
    reached env [.assignment x e₁ n, .assignment y e₂ m] =
      (do
        let v ← e₁.eval env
        let w ← e₂.eval env
        return (env.bind x v).bind y w) := by
  rw [reached, Statement.eval_assignment]
  cases e₁.eval env with
  | error e => rfl
  | ok v =>
    show reached (env.bind x v) [.assignment y e₂ m] = _
    rw [reached, Statement.eval_assignment, Expr.eval_bind_of_not_mem hx]
    cases e₂.eval env <;> rfl

/-- Two assignments to different names, neither of which reads the name of the other, can be made in
either order unless both fail, when the first one has a say in the error. -/
theorem assignments_commute (env : Environment) (p : Program) {q : Program} (hq : q ≠ [])
    {x y : String} (hxy : x ≠ y) {e₁ e₂ : Expr} (hy : y ∉ e₁.names) (hx : x ∉ e₂.names)
    (hvalue : ∀ env', reached env p = .ok env' → e₁.HasValue env' ∨ e₂.HasValue env')
    (n m : Nat) :
    SameEnd (evalStatements env (p ++ [.assignment x e₁ n, .assignment y e₂ m] ++ q))
      (evalStatements env (p ++ [.assignment y e₂ m, .assignment x e₁ n] ++ q)) := by
  rw [evalStatements_append_reached env _ hq, evalStatements_append_reached env _ hq,
    reached_append, reached_append]
  cases hp : reached env p with
  | error e => exact .error
  | ok env' =>
    show SameEnd (reached env' _ >>= _) (reached env' _ >>= _)
    rw [reached_assignments hx, reached_assignments hy]
    cases h₁ : e₁.eval env' with
    | ok v =>
      cases h₂ : e₂.eval env' with
      | ok w => exact sameEnd_evalStatements (Environment.bind_comm hxy v w) q
      | error e => exact .error
    | error e =>
      rcases hvalue env' hp with ⟨v, hv⟩ | ⟨w, hw⟩
      · cases h₁.symm.trans hv
      · rw [hw]
        exact .error

/-- In `a = 1; x = a; y = -a; x = x / y` the two assignments in the middle commute. -/
theorem assignments_commute_in_script :
    SameEnd
      (evalStatements .empty
        [.assignment "a" (.number 1 1) 1, .assignment "x" (.name "a" 2) 2,
          .assignment "y" (.negation (.name "a" 3) 3) 3,
          .assignment "x" (.binary .div (.name "x" 4) (.name "y" 4) 4) 4])
      (evalStatements .empty
        [.assignment "a" (.number 1 1) 1, .assignment "y" (.negation (.name "a" 3) 3) 3,
          .assignment "x" (.name "a" 2) 2,
          .assignment "x" (.binary .div (.name "x" 4) (.name "y" 4) 4) 4]) := by
  apply assignments_commute .empty [.assignment "a" (.number 1 1) 1] (List.cons_ne_nil _ _)
  · decide
  · simp [Expr.names]
  · simp [Expr.names]
  · intro env' h
    cases h
    exact Or.inl ⟨.number 1, rfl⟩

end Program
end ScalarScript
