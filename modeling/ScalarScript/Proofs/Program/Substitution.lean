import ScalarScript.Proofs.Program.Closed
import ScalarScript.Proofs.Program.Dependence

/-!
# Substitution

An expression may stand wherever a name is read that has been assigned its value. It is evaluated
there again, each time in the environment in front of the assignment, so the name may occur in it
and means an older binding then. A function of the same name is not replaced, as functions are not
read from the environment.
-/

namespace ScalarScript

namespace Expr

mutual

/-- The expression with `e` at each place where the name `x` is read. -/
def subst (x : String) (e : Expr) : Expr → Expr
  | .number y n => .number y n
  | .name s n => if s = x then e else .name s n
  | .negation b n => .negation (subst x e b) n
  | .binary op l r n => .binary op (subst x e l) (subst x e r) n
  | .call f es n => .call f (substAll x e es) n

def substAll (x : String) (e : Expr) : List Expr → List Expr
  | [] => []
  | b :: bs => subst x e b :: substAll x e bs

end

variable {env : Environment} {x : String} {e : Expr} {v : Value}

theorem eval_name_bind_self (hv : v.IsNumber) (n : Nat) :
    eval (env.bind x v) (.name x n) = .ok v := by
  obtain ⟨y, rfl⟩ := hv
  rw [eval_name, Environment.lookup, Environment.find?_bind, if_pos rfl]
  rfl

mutual

/-- A binding is as good as its expression, which is evaluated without it: an `x` in the expression
means an older one. -/
theorem eval_subst (h : e.eval env = .ok v) :
    ∀ b : Expr, (subst x e b).eval env = b.eval (env.bind x v)
  | .number y n => rfl
  | .name s n => by
    rw [subst]
    by_cases hs : s = x
    · subst hs
      rw [if_pos rfl, h, eval_name_bind_self (isNumber_of_eval h)]
    · rw [if_neg hs, eval_bind_of_not_mem]
      exact fun hx => hs (List.mem_singleton.mp hx).symm
  | .negation b n => by
    rw [subst, eval_negation, eval_negation, eval_subst h b]
  | .binary op l r n => by
    rw [subst, eval_binary, eval_binary, eval_subst h l, eval_subst h r]
  | .call f es n => by
    rw [subst, eval_call, eval_call, evalAll_subst h es]

theorem evalAll_subst (h : e.eval env = .ok v) :
    ∀ bs : List Expr, evalAll env (substAll x e bs) = evalAll (env.bind x v) bs
  | [] => rfl
  | b :: bs => by
    rw [substAll, evalAll_cons, evalAll_cons, eval_subst h b, evalAll_subst h bs]

end

end Expr

namespace Program

variable {env : Environment} {e : Expr} {v : Value}

/-- A name that is bound to the value of an expression means the same as the expression where the
binding is not yet made; what fails with the one fails with the other, and in the same way. So the
assignment may be left out. -/
theorem value_of_inlined (h : e.eval env = .ok v) (x : String) :
    (∀ body : Expr, body.eval (env.bind x v) = (Expr.subst x e body).eval env) ∧
      ∀ (body : Expr) (n m k : Nat),
        value env [.assignment x e n, .expression body m] =
          value env [.expression (Expr.subst x e body) k] := by
  refine ⟨fun body => (Expr.eval_subst h body).symm, ?_⟩
  intro body n m k
  have he : (Statement.assignment x e n).expr.eval env = .ok v := h
  rw [value_cons_ok he (List.cons_ne_nil _ _), value_single, value_single]
  exact congrArg Value.ofExcept (Expr.eval_subst h body).symm

/-- In `log = -log; abs(log) * log(log)` the name is replaced, where it is read, by an expression
that reads the older binding, and the function of the same name stays. -/
theorem value_of_inlined_log :
    value ⟨[("log", .number 2)]⟩
        [.assignment "log" (.negation (.name "log" 1) 1) 1,
          .expression (.binary .mul (.call "abs" [.name "log" 2] 2)
            (.call "log" [.name "log" 2] 2) 2) 2] =
      value ⟨[("log", .number 2)]⟩
        [.expression (.binary .mul (.call "abs" [.negation (.name "log" 1) 1] 2)
          (.call "log" [.negation (.name "log" 1) 1] 2) 2) 3] := by
  have h : Expr.eval ⟨[("log", .number 2)]⟩ (.negation (.name "log" 1) 1) = .ok (.number (-2)) :=
    rfl
  exact (value_of_inlined h "log").2 _ 1 2 3

end Program
end ScalarScript
