import ScalarScript.Proofs.Program.Visits

/-!
# Evaluation contexts

An evaluation context is an expression with a hole at any depth, such that the evaluation gets to
the hole: whatever is evaluated in front of it has a value. If what stands in the hole fails, then
so does the whole expression, and the program in which it is the next one to be evaluated, with the
very same error. What comes behind the hole has no say in this, be it an operand or an argument that
would fail as well, a function that does not exist or has another number of arguments, or the
statements behind.

Each step outwards is from an operand to its node, so one lemma about operands serves them all.
-/

namespace ScalarScript

namespace Expr

/-- An expression with a hole. -/
inductive Context where
  | hole
  | negation (inner : Context) (line : Nat)
  | left (op : Operator) (inner : Context) (right : Expr) (line : Nat)
  | right (op : Operator) (left : Expr) (inner : Context) (line : Nat)
  | argument (function : String) (before : List Expr) (inner : Context) (after : List Expr)
    (line : Nat)

namespace Context

def fill (x : Expr) : Context → Expr
  | hole => x
  | negation c n => .negation (c.fill x) n
  | left op c r n => .binary op (c.fill x) r n
  | right op l c n => .binary op l (c.fill x) n
  | argument f before c after n => .call f (before ++ c.fill x :: after) n

/-- All that is evaluated in front of the hole has a value. -/
def Reached (env : Environment) : Context → Prop
  | hole => True
  | negation c _ => c.Reached env
  | left _ c _ _ => c.Reached env
  | right _ l c _ => l.HasValue env ∧ c.Reached env
  | argument _ before c _ _ => (∀ y ∈ before, y.HasValue env) ∧ c.Reached env

end Context

variable {env : Environment} {err : EvalError}

/-- The first one of some expressions that fails decides how they fail. -/
theorem evalAll_of_first_error {before : List Expr} {x : Expr}
    (hbefore : ∀ y ∈ before, y.HasValue env) (hx : x.eval env = .error err) (after : List Expr) :
    evalAll env (before ++ x :: after) = .error err := by
  induction before with
  | nil =>
    rw [List.nil_append, evalAll_cons, hx]
    rfl
  | cons y before ih =>
    obtain ⟨⟨v, hv⟩, hrest⟩ := List.forall_mem_cons.mp hbefore
    rw [List.cons_append, evalAll_cons, hv, ih hrest]
    rfl

theorem eval_of_operand_error (before : List Expr) {n x : Expr} {after : List Expr}
    (hn : n.operands = before ++ x :: after) (hbefore : ∀ y ∈ before, y.HasValue env)
    (hx : x.eval env = .error err) : n.eval env = .error err := by
  apply eval_eq_error
  rw [hn]
  exact evalAll_of_first_error hbefore hx after

theorem eval_fill_of_error {c : Context} {x : Expr} (hc : c.Reached env)
    (hx : x.eval env = .error err) : (c.fill x).eval env = .error err := by
  induction c with
  | hole => exact hx
  | negation c n ih => exact eval_of_operand_error [] rfl (by simp) (ih hc)
  | left op c r n ih => exact eval_of_operand_error [] rfl (by simp) (ih hc)
  | right op l c n ih =>
    obtain ⟨hl, hc⟩ := hc
    exact eval_of_operand_error [l] rfl (by simpa using hl) (ih hc)
  | argument f before c after n ih =>
    obtain ⟨hbefore, hc⟩ := hc
    exact eval_of_operand_error before rfl hbefore (ih hc)

end Expr

namespace Program

/-- The first statement that fails ends the run. -/
theorem evalStatements_of_first_error {env₀ env : Environment} {p : Program} {s : Statement}
    {err : EvalError} (hp : reached env₀ p = .ok env) (hs : s.expr.eval env = .error err)
    (q : Program) : evalStatements env₀ (p ++ s :: q) = .error err := by
  rw [evalStatements_append_reached env₀ p (List.cons_ne_nil s q), hp]
  exact evalStatements_of_values_error (values_cons_error hs)

/-- An error goes out through every context that is evaluated up to its hole and becomes the value
of the program, whatever comes behind the hole in the context and behind its statement. -/
theorem value_of_first_error {env : Environment} {x : Expr} {err : EvalError} {c : Expr.Context}
    (hx : x.eval env = .error err) (hc : c.Reached env) :
    (c.fill x).eval env = .error err ∧
      ∀ (env₀ : Environment) (p q : Program) (s : Statement), reached env₀ p = .ok env →
        s.expr = c.fill x → value env₀ (p ++ s :: q) = .error err := by
  have hfill := Expr.eval_fill_of_error hc hx
  refine ⟨hfill, ?_⟩
  intro env₀ p q s hp hs
  apply value_of_evalStatements_error
  exact evalStatements_of_first_error hp (by rw [hs, hfill]) q

/-- In `a = 1; b = f(a, -(a * z), log())` the unbound `z` comes before the missing argument and the
unknown function, and before the statement behind. -/
theorem value_of_first_error_in_argument :
    value .empty
      [.assignment "a" (.number 1 1) 1,
        .assignment "b" (.call "f" [.name "a" 2,
          .negation (.binary .mul (.name "a" 2) (.name "z" 2) 2) 2, .call "log" [] 2] 2) 2,
        .expression (.call "g" [] 3) 3] =
      .error (.unbound "z") := by
  have hz : Expr.eval ⟨[("a", .number 1)]⟩ (.name "z" 2) = .error (.unbound "z") := rfl
  have ha : Expr.HasValue ⟨[("a", .number 1)]⟩ (.name "a" 2) := ⟨.number 1, rfl⟩
  have hc : Expr.Context.Reached ⟨[("a", .number 1)]⟩
      (.argument "f" [.name "a" 2] (.negation (.right .mul (.name "a" 2) .hole 2) 2)
        [.call "log" [] 2] 2) :=
    ⟨List.forall_mem_singleton.mpr ha, ha, trivial⟩
  exact (value_of_first_error hz hc).2 .empty [.assignment "a" (.number 1 1) 1] _ _ rfl rfl

end Program
end ScalarScript
