import ScalarScript.Proofs.Program.Closed
import ScalarScript.Proofs.Program.Extension

/-!
# Success means a number

An error can be a value, as a caller may bind one, but no computation that succeeds has one as its
value: each ends with a step that makes a number or fails with the error that it was given. So an
assignment only ever binds a number, and a program has an error as its value exactly if its run has
failed with this error.
-/

namespace ScalarScript

/-- The value is a number, if there is one. -/
def YieldsNumber (r : Except EvalError Value) : Prop := ∀ v, r = .ok v → v.IsNumber

theorem yieldsNumber_number (x : Float) : YieldsNumber (.ok (.number x)) := by
  rintro v ⟨⟩
  exact ⟨x, rfl⟩

theorem yieldsNumber_error (e : EvalError) : YieldsNumber (.error e) := by
  rintro v ⟨⟩

/-- Only the last step of a computation matters. -/
theorem YieldsNumber.of_bind {α : Type} (x : Except EvalError α) {k : α → Except EvalError Value}
    (h : ∀ a, YieldsNumber (k a)) : YieldsNumber (x >>= k) := by
  cases x with
  | error e => exact yieldsNumber_error e
  | ok a => exact h a

namespace Builtin

theorem real_yieldsNumber (f : String) (g : Float → Float) (args : List Value) :
    YieldsNumber (real f g args) :=
  .of_bind _ fun x => yieldsNumber_number (g x)

theorem logarithm_yieldsNumber (f : String) (g : Float → Float) (args : List Value) :
    YieldsNumber (logarithm f g args) := by
  apply YieldsNumber.of_bind
  intro x
  split_ifs
  · exact yieldsNumber_number _
  · exact yieldsNumber_error _
  · exact yieldsNumber_number _

theorem squareRoot_yieldsNumber (args : List Value) : YieldsNumber (squareRoot args) := by
  apply YieldsNumber.of_bind
  intro x
  split_ifs
  · exact yieldsNumber_error _
  · exact yieldsNumber_number _

theorem extremum_yieldsNumber (f : String) (args : List Value) :
    YieldsNumber (extremum f args) :=
  .of_bind _ fun _ => yieldsNumber_number _

theorem power_yieldsNumber (args : List Value) : YieldsNumber (power args) :=
  .of_bind _ fun _ => yieldsNumber_number _

theorem handle_yieldsNumber (b : Builtin) (args : List Value) : YieldsNumber (b.handle args) := by
  cases b with
  | log | log2 | log10 => exact logarithm_yieldsNumber _ _ args
  | sqrt => exact squareRoot_yieldsNumber args
  | exp | abs | floor | ceil | round => exact real_yieldsNumber _ _ args
  | min | max => exact extremum_yieldsNumber _ args
  | pow => exact power_yieldsNumber args

theorem call_yieldsNumber (f : String) (args : List Value) : YieldsNumber (call f args) := by
  unfold call
  split
  · exact yieldsNumber_error _
  · split
    · exact handle_yieldsNumber _ args
    · exact yieldsNumber_error _

end Builtin

theorem Operator.applyValues_yieldsNumber (op : Operator) (l r : Value) :
    YieldsNumber (op.applyValues l r) :=
  .of_bind _ fun _ => .of_bind _ fun _ => yieldsNumber_number _

namespace Environment

/-- All visible bindings are numbers. -/
def Numeric (env : Environment) : Prop := ∀ x v, env.lookup x = .ok v → v.IsNumber

variable {env : Environment}

theorem Numeric.bind (h : env.Numeric) (x : String) {v : Value} (hv : v.IsNumber) :
    (env.bind x v).Numeric := by
  intro y w hw
  rw [lookup, find?_bind] at hw
  by_cases hy : y = x
  · rw [if_pos hy] at hw
    cases hw
    exact hv
  · rw [if_neg hy] at hw
    exact h y w hw

theorem Numeric.bindAll {bs : List (String × Value)} (h : env.Numeric)
    (hbs : ∀ b ∈ bs, b.2.IsNumber) : (env.bindAll bs).Numeric := by
  induction bs generalizing env with
  | nil => exact h
  | cons b bs ih =>
    obtain ⟨hb, hrest⟩ := List.forall_mem_cons.mp hbs
    exact ih (h.bind b.1 hb) hrest

end Environment

namespace Statement

/-- A statement has the value of its expression, so a number, and binds nothing else. -/
theorem eval_eq_ok {env env' : Environment} {s : Statement} {v : Value}
    (h : s.eval env = .ok (v, env')) : v.IsNumber ∧ env' = s.after env v := by
  rw [s.eval_eq] at h
  obtain ⟨w, hw, hafter⟩ := Except.bind_eq_ok h
  cases hafter
  exact ⟨Expr.isNumber_of_eval hw, rfl⟩

end Statement

namespace Program

variable {env env' : Environment} {p : Program} {v : Value} {vs : List Value}

theorem isNumber_of_mem_values (h : values env p = .ok vs) : ∀ v ∈ vs, v.IsNumber := by
  induction p generalizing env vs with
  | nil =>
    cases h
    simp
  | cons s p ih =>
    obtain ⟨v, ws, hv, hws, rfl⟩ := values_cons_eq_ok h
    exact List.forall_mem_cons.mpr ⟨Expr.isNumber_of_eval hv, ih hws⟩

theorem isNumber_of_mem_assigned (h : values env p = .ok vs) :
    ∀ b ∈ assigned p vs, b.2.IsNumber := by
  intro b hb
  obtain ⟨⟨s, v⟩, hmem, hs⟩ := List.mem_filterMap.mp hb
  obtain ⟨x, -, rfl⟩ := Option.map_eq_some_iff.mp hs
  exact isNumber_of_mem_values h v (List.of_mem_zip hmem).2

/-- Whatever the environment binds, a computation that succeeds has a number as its value: an
expression, an operator and a function applied to values, a statement, and a program. So a run binds
only numbers and keeps an environment of numbers one, and the value of a program is an error exactly
if its run ends with this error. -/
theorem success_is_number :
    (∀ (env : Environment) (e : Expr) (v : Value), e.eval env = .ok v → v.IsNumber) ∧
    (∀ (op : Operator) (l r v : Value), op.applyValues l r = .ok v → v.IsNumber) ∧
    (∀ (f : String) (args : List Value) (v : Value), Builtin.call f args = .ok v → v.IsNumber) ∧
    (∀ (env : Environment) (s : Statement) (v : Value) (env' : Environment),
      s.eval env = .ok (v, env') → v.IsNumber ∧ env' = s.after env v) ∧
    (∀ (env : Environment) (p : Program) (v : Value) (env' : Environment),
      evalStatements env p = .ok (v, env') →
        v.IsNumber ∧
        (∃ bs, env' = env.bindAll bs ∧ bs.map Prod.fst = p.targets ∧ ∀ b ∈ bs, b.2.IsNumber) ∧
        (env.Numeric → env'.Numeric)) ∧
    ∀ (env : Environment) (p : Program) (e : EvalError),
      value env p = .error e ↔ evalStatements env p = .error e := by
  refine ⟨fun _ _ _ => Expr.isNumber_of_eval, fun op l r => op.applyValues_yieldsNumber l r,
    Builtin.call_yieldsNumber, fun _ _ _ _ => Statement.eval_eq_ok, ?_, ?_⟩
  · intro env p v env' h
    obtain ⟨vs, hvs, rfl⟩ := values_of_reached (reached_of_evalStatements h)
    have hnumbers := isNumber_of_mem_assigned hvs
    exact ⟨isNumber_of_evalStatements h,
      ⟨_, rfl, map_fst_assigned (length_of_values hvs), hnumbers⟩, fun henv => henv.bindAll hnumbers⟩
  · intro env p e
    constructor
    · intro h
      cases hrun : evalStatements env p with
      | error e' =>
        rw [value_of_evalStatements_error hrun] at h
        cases h
        rfl
      | ok r =>
        obtain ⟨x, hx⟩ := isNumber_of_evalStatements hrun
        rw [value_of_evalStatements hrun, hx] at h
        cases h
    · exact value_of_evalStatements_error

/-- With an error bound to `z`, the statements `x = 1; y = x` bind numbers and `z` alone fails. -/
theorem success_is_number_beside_error :
    (∃ env', evalStatements ⟨[("z", .error .emptyProgram)]⟩
        [.assignment "x" (.number 1 1) 1, .assignment "y" (.name "x" 1) 1] =
          .ok (.number 1, env') ∧
      ∃ bs, env' = Environment.bindAll ⟨[("z", .error .emptyProgram)]⟩ bs ∧
        bs.map Prod.fst = ["x", "y"] ∧ ∀ b ∈ bs, b.2.IsNumber) ∧
    evalStatements ⟨[("z", .error .emptyProgram)]⟩ [.expression (.name "z" 1) 1] =
      .error .emptyProgram := by
  obtain ⟨-, -, -, -, hruns, herrors⟩ := success_is_number
  refine ⟨⟨_, rfl, ?_⟩, (herrors _ _ _).mp rfl⟩
  exact (hruns ⟨[("z", .error .emptyProgram)]⟩
    [.assignment "x" (.number 1 1) 1, .assignment "y" (.name "x" 1) 1] _ _ rfl).2.1

end Program
end ScalarScript
