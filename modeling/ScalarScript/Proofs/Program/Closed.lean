import Mathlib.Data.List.Basic
import ScalarScript.Proofs.Program.Names

/-!
# Closed programs

A program is closed in an environment if each name that it needs is bound to a number there and each
of its calls fits a function of the table. The evaluation of a closed program can only fail where a
logarithm or a square root is applied to a negative number. Since every part of a program is
evaluated unless an earlier one has failed, a program that is not closed always fails.
-/

namespace ScalarScript

def Value.IsNumber (v : Value) : Prop := ∃ x, v = .number x

/-- The newest binding of the name is a number. -/
def Environment.HasNumber (env : Environment) (x : String) : Prop :=
  ∃ v, env.find? x = some (.number v)

namespace Builtin

/-- The table has a function of this name with that many arguments. -/
def Takes (f : String) (n : Nat) : Prop := ∃ b : Builtin, b.name = f ∧ b.arity = n

/-- The functions that are not defined for negative numbers. -/
def partialNames : List String := ["log", "log2", "log10", "sqrt"]

end Builtin

/-- The result of a part of a program: it is good or an argument is outside the domain of a called
function, unless the part is not closed and has failed. -/
inductive Verdict {α : Type} (closed : Prop) (called : String → Prop) (good : α → Prop) :
    Except EvalError α → Prop
  | good {a : α} : closed → good a → Verdict closed called good (.ok a)
  | domain {f : String} : f ∈ Builtin.partialNames → called f →
      Verdict closed called good (.error (.negativeArgument f))
  | failure {e : EvalError} : ¬ closed → Verdict closed called good (.error e)

namespace Verdict

variable {α β : Type} {closed closed' : Prop} {called called' : String → Prop}
variable {good : α → Prop} {good' : β → Prop} {r : Except EvalError α}

theorem imp (hr : Verdict closed called good r) (hc : closed' ↔ closed)
    (hf : ∀ f, called f → called' f) : Verdict closed' called' good r := by
  cases hr with
  | good hclosed ha => exact .good (hc.mpr hclosed) ha
  | domain hpartial hcalled => exact .domain hpartial (hf _ hcalled)
  | failure hclosed => exact .failure (mt hc.mp hclosed)

/-- Both parts are evaluated unless the first one fails. -/
theorem bind {k : α → Except EvalError β} (hr : Verdict closed called good r)
    (hk : closed → ∀ a, good a → Verdict closed' called' good' (k a)) :
    Verdict (closed ∧ closed') (fun f => called f ∨ called' f) good' (r >>= k) := by
  cases hr with
  | @good a hclosed ha =>
    show Verdict _ _ _ (k a)
    exact (hk hclosed a ha).imp (and_iff_right hclosed) fun _ => Or.inr
  | domain hpartial hcalled => exact .domain hpartial (Or.inl hcalled)
  | failure hclosed => exact .failure (fun h => hclosed h.1)

theorem bind_ok {k : α → Except EvalError β} (hr : Verdict closed called good r)
    (hk : ∀ a, good a → ∃ b, k a = .ok b ∧ good' b) :
    Verdict closed called good' (r >>= k) := by
  cases hr with
  | @good a hclosed ha =>
    obtain ⟨b, hb, hgood⟩ := hk a ha
    show Verdict _ _ _ (k a)
    rw [hb]
    exact .good hclosed hgood
  | domain hpartial hcalled => exact .domain hpartial hcalled
  | failure hclosed => exact .failure hclosed

end Verdict

namespace Builtin

theorem logarithm_verdict {f : String} (hf : f ∈ partialNames) (g : Float → Float) (x : Float) :
    Verdict True (· = f) Value.IsNumber (logarithm f g [.number x]) := by
  show Verdict _ _ _ (if x == 0 then _ else if x < 0 then _ else _)
  split
  · exact .good trivial ⟨_, rfl⟩
  · split
    · exact .domain hf rfl
    · exact .good trivial ⟨_, rfl⟩

theorem squareRoot_verdict (x : Float) :
    Verdict True (· = "sqrt") Value.IsNumber (squareRoot [.number x]) := by
  show Verdict _ _ _ (if x < 0 then _ else _)
  split
  · exact .domain (by decide) rfl
  · exact .good trivial ⟨_, rfl⟩

theorem handle_verdict (b : Builtin) {xs : List Float} (hxs : xs.length = b.arity) :
    Verdict True (· = b.name) Value.IsNumber (b.handle (xs.map .number)) := by
  cases b with
  | log | log2 | log10 =>
    obtain ⟨x, rfl⟩ := List.length_eq_one_iff.mp hxs
    exact logarithm_verdict (by decide) _ x
  | sqrt =>
    obtain ⟨x, rfl⟩ := List.length_eq_one_iff.mp hxs
    exact squareRoot_verdict x
  | exp | abs | floor | ceil | round =>
    obtain ⟨x, rfl⟩ := List.length_eq_one_iff.mp hxs
    exact .good trivial ⟨_, rfl⟩
  | min | max | pow =>
    obtain ⟨x, y, rfl⟩ := List.length_eq_two.mp hxs
    exact .good trivial ⟨_, rfl⟩

theorem ofName?_eq_some_iff {f : String} {b : Builtin} : ofName? f = some b ↔ b.name = f := by
  constructor
  · intro h
    simpa using List.find?_some h
  · rintro rfl
    exact ofName?_name b

theorem call_verdict (f : String) (xs : List Float) :
    Verdict (Takes f xs.length) (· = f) Value.IsNumber (call f (xs.map .number)) := by
  unfold call
  split
  next hnone =>
    refine .failure ?_
    rintro ⟨b, hb, -⟩
    simp [ofName?_eq_some_iff.mpr hb] at hnone
  next b hsome =>
    obtain rfl := ofName?_eq_some_iff.mp hsome
    rw [List.length_map]
    split
    next hlength =>
      exact (b.handle_verdict hlength).imp ⟨fun _ => trivial, fun _ => ⟨b, rfl, hlength.symm⟩⟩
        fun _ => id
    next hlength =>
      refine .failure ?_
      rintro ⟨b', hname, harity⟩
      have hb : some b = some b' := by rw [← ofName?_name b, ← hname, ofName?_name]
      obtain rfl := Option.some.inj hb
      exact hlength harity.symm

end Builtin

/-- The names are bound to numbers and the calls fit functions of the table. -/
def Environment.Supports (env : Environment) (names : List String) (calls : List (String × Nat)) :
    Prop :=
  (∀ x ∈ names, env.HasNumber x) ∧ ∀ f n, (f, n) ∈ calls → Builtin.Takes f n

namespace Environment

variable {env : Environment} {names names' : List String} {calls calls' : List (String × Nat)}

theorem supports_nil : env.Supports [] [] := by simp [Supports]

theorem supports_append :
    env.Supports (names ++ names') (calls ++ calls') ↔
      env.Supports names calls ∧ env.Supports names' calls' := by
  unfold Supports
  simp only [List.mem_append, or_imp, forall_and]
  exact and_and_and_comm

theorem supports_call {f : String} {n : Nat} :
    env.Supports names ((f, n) :: calls) ↔ env.Supports names calls ∧ Builtin.Takes f n := by
  unfold Supports
  simp only [List.mem_cons, Prod.mk.injEq, or_imp, forall_and, and_imp, forall_eq_apply_imp_iff,
    forall_eq]
  exact and_left_comm.trans and_comm

end Environment

/-- Two parts in a row read the names and make the calls of both. -/
theorem Verdict.append {α β : Type} {env : Environment} {names names' : List String}
    {calls calls' : List (String × Nat)} {good : α → Prop} {good' : β → Prop}
    {r : Except EvalError α} {k : α → Except EvalError β}
    (hr : Verdict (env.Supports names calls) (fun f => ∃ n, (f, n) ∈ calls) good r)
    (hk : ∀ a, good a →
      Verdict (env.Supports names' calls') (fun f => ∃ n, (f, n) ∈ calls') good' (k a)) :
    Verdict (env.Supports (names ++ names') (calls ++ calls'))
      (fun f => ∃ n, (f, n) ∈ calls ++ calls') good' (r >>= k) := by
  apply (hr.bind fun _ => hk).imp Environment.supports_append
  rintro f (⟨n, hn⟩ | ⟨n, hn⟩)
  · exact ⟨n, List.mem_append_left _ hn⟩
  · exact ⟨n, List.mem_append_right _ hn⟩

namespace Expr

variable (env : Environment)

theorem name_verdict (s : String) (line : Nat) (called : String → Prop) :
    Verdict (env.Supports [s] []) called Value.IsNumber (eval env (.name s line)) := by
  have hclosed : env.Supports [s] [] ↔ env.HasNumber s := by simp [Environment.Supports]
  rw [eval_name, Environment.lookup, hclosed]
  cases hs : env.find? s with
  | none =>
    refine .failure ?_
    rintro ⟨x, hx⟩
    simp [hs] at hx
  | some v =>
    cases v with
    | number x => exact .good ⟨x, hs⟩ ⟨x, rfl⟩
    | error e =>
      refine .failure ?_
      rintro ⟨x, hx⟩
      simp [hs] at hx

mutual

theorem eval_verdict : ∀ e : Expr,
    Verdict (env.Supports e.names e.calls) (fun f => ∃ n, (f, n) ∈ e.calls) Value.IsNumber
      (e.eval env)
  | .number x n => .good Environment.supports_nil ⟨x, rfl⟩
  | .name s n => name_verdict env s n _
  | .negation e n => by
    rw [eval_negation]
    apply (eval_verdict e).bind_ok
    rintro _ ⟨x, rfl⟩
    exact ⟨_, rfl, _, rfl⟩
  | .binary op l r n => by
    rw [eval_binary]
    apply (eval_verdict l).append
    rintro _ ⟨x, rfl⟩
    apply (eval_verdict r).bind_ok
    rintro _ ⟨y, rfl⟩
    exact ⟨_, rfl, _, rfl⟩
  | .call f es n => by
    rw [eval_call]
    have hcall : ∀ vs, (∃ xs : List Float, vs = xs.map .number ∧ xs.length = es.length) →
        Verdict (Builtin.Takes f es.length) (· = f) Value.IsNumber (Builtin.call f vs) := by
      rintro _ ⟨xs, rfl, hlength⟩
      rw [← hlength]
      exact Builtin.call_verdict f xs
    apply ((evalAll_verdict es).bind fun _ => hcall).imp Environment.supports_call
    rintro g (⟨m, hm⟩ | rfl)
    · exact ⟨m, List.mem_cons_of_mem _ hm⟩
    · exact ⟨_, List.mem_cons_self⟩

theorem evalAll_verdict : ∀ es : List Expr,
    Verdict (env.Supports (namesAll es) (callsAll es)) (fun f => ∃ n, (f, n) ∈ callsAll es)
      (fun vs => ∃ xs : List Float, vs = xs.map .number ∧ xs.length = es.length) (evalAll env es)
  | [] => .good Environment.supports_nil ⟨[], rfl, rfl⟩
  | e :: es => by
    rw [evalAll_cons]
    apply (eval_verdict e).append
    rintro _ ⟨x, rfl⟩
    apply (evalAll_verdict es).bind_ok
    rintro _ ⟨xs, rfl, hlength⟩
    exact ⟨_, rfl, x :: xs, rfl, by rw [List.length_cons, hlength, List.length_cons]⟩

end

variable {env}

theorem isNumber_of_eval {e : Expr} {v : Value} (h : e.eval env = .ok v) : v.IsNumber := by
  have hverdict := eval_verdict env e
  rw [h] at hverdict
  cases hverdict with
  | good _ hnumber => exact hnumber

end Expr

namespace Program

/-- There is a statement, every name needed from outside is bound to a number, and each call fits a
function of the table. -/
structure Closed (env : Environment) (p : Program) : Prop where
  nonempty : p ≠ []
  names : ∀ x, p.Needs x → env.HasNumber x
  calls : ∀ f n, p.Calls f n → Builtin.Takes f n

variable {env : Environment} {s : Statement} {p : Program}

theorem hasNumber_after {v : Value} (hv : v.IsNumber) (x : String) :
    (s.after env v).HasNumber x ↔ s.target? = some x ∨ env.HasNumber x := by
  obtain ⟨y, rfl⟩ := hv
  unfold Environment.HasNumber
  rw [s.find?_after]
  by_cases hs : s.target? = some x <;> simp [hs]

theorem Closed.supports (h : Closed env (s :: p)) :
    env.Supports s.expr.names s.expr.calls :=
  ⟨fun x hx => h.names x (needs_cons.mpr (Or.inl hx)),
    fun f n hf => h.calls f n (calls_cons.mpr (Or.inl hf))⟩

theorem closed_single : Closed env [s] ↔ env.Supports s.expr.names s.expr.calls := by
  constructor
  · exact Closed.supports
  · rintro ⟨hnames, hcalls⟩
    refine ⟨by simp, ?_, ?_⟩
    · intro x hx
      exact hnames x ((needs_cons.mp hx).resolve_right fun h => not_needs_nil h.2)
    · intro f n hf
      exact hcalls f n ((calls_cons.mp hf).resolve_right fun h => by simp [Calls] at h)

/-- The statements behind one with a number may read the name that it assigns. -/
theorem closed_cons {v : Value} (hv : v.IsNumber) (hp : p ≠ []) :
    Closed env (s :: p) ↔
      env.Supports s.expr.names s.expr.calls ∧ Closed (s.after env v) p := by
  constructor
  · intro h
    refine ⟨h.supports, hp, ?_, ?_⟩
    · intro x hx
      rw [hasNumber_after hv]
      by_cases hs : s.target? = some x
      · exact Or.inl hs
      · exact Or.inr (h.names x (needs_cons.mpr (Or.inr ⟨hs, hx⟩)))
    · intro f n hf
      exact h.calls f n (calls_cons.mpr (Or.inr hf))
  · rintro ⟨⟨hnames, hcalls⟩, hrest⟩
    refine ⟨by simp, ?_, ?_⟩
    · intro x hx
      rcases needs_cons.mp hx with hx | ⟨hs, hx⟩
      · exact hnames x hx
      · exact ((hasNumber_after hv x).mp (hrest.names x hx)).resolve_left hs
    · intro f n hf
      rcases calls_cons.mp hf with hf | hf
      · exact hcalls f n hf
      · exact hrest.calls f n hf

theorem result_verdict (env : Environment) (p : Program) :
    Verdict (p.Closed env) (fun f => ∃ n, p.Calls f n) Value.IsNumber (p.result env) := by
  induction p generalizing env with
  | nil => exact .failure fun h => h.nonempty rfl
  | cons s p ih =>
    have hs := s.expr.eval_verdict env
    by_cases hp : p = []
    · subst hp
      rw [result_single]
      apply hs.imp closed_single
      rintro f ⟨n, hn⟩
      exact ⟨n, calls_cons.mpr (Or.inl hn)⟩
    · rw [result_cons env s hp]
      have hrest : env.Supports s.expr.names s.expr.calls → ∀ v : Value, v.IsNumber →
          Verdict (Closed env (s :: p)) (fun f => ∃ n, Calls p f n) Value.IsNumber
            (result (s.after env v) p) := by
        intro hsupports v hv
        have hclosed := (closed_cons hv hp).trans (and_iff_right hsupports)
        exact (ih (s.after env v)).imp hclosed fun _ => id
      apply (hs.bind hrest).imp (and_iff_right_of_imp Closed.supports).symm
      rintro f (⟨n, hn⟩ | ⟨n, hn⟩)
      · exact ⟨n, calls_cons.mpr (Or.inl hn)⟩
      · exact ⟨n, calls_cons.mpr (Or.inr hn)⟩

theorem isNumber_of_evalStatements {r : Value × Environment}
    (h : evalStatements env p = .ok r) : r.1.IsNumber := by
  have hverdict := result_verdict env p
  rw [result, h] at hverdict
  cases hverdict with
  | good _ hnumber => exact hnumber

/-- The value of a closed program is a number, unless a called function is not defined for a negative
number; the value of any other program is an error. -/
theorem value_decided_by_closed (env : Environment) (p : Program) :
    (p.Closed env →
      (∃ x, p.value env = .number x) ∨
        ∃ f ∈ ["log", "log2", "log10", "sqrt"], (∃ n, p.Calls f n) ∧
          p.value env = .error ⟨.domain, f ++ " of negative number"⟩) ∧
    (p.Closed env → (∀ f ∈ ["log", "log2", "log10", "sqrt"], ∀ n, ¬ p.Calls f n) →
      ∃ x, p.value env = .number x) ∧
    (¬ p.Closed env → ∃ e, p.value env = .error e) := by
  rw [value_eq_ofExcept]
  have hverdict := result_verdict env p
  generalize result env p = r at hverdict ⊢
  cases hverdict with
  | good hclosed hv =>
    obtain ⟨x, rfl⟩ := hv
    exact ⟨fun _ => Or.inl ⟨x, rfl⟩, fun _ _ => ⟨x, rfl⟩, fun h => absurd hclosed h⟩
  | @domain f hpartial hcalled =>
    obtain ⟨n, hn⟩ := hcalled
    refine ⟨fun _ => Or.inr ⟨f, hpartial, ⟨n, hn⟩, rfl⟩, ?_, fun _ => ⟨_, rfl⟩⟩
    intro _ hnone
    exact absurd hn (hnone f hpartial n)
  | failure hclosed =>
    exact ⟨fun h => absurd h hclosed, fun h => absurd h hclosed, fun _ => ⟨_, rfl⟩⟩

/-- With a number `x` and an error `z`, both `log(x)` and `max(x, 2)` are closed, and `z` is not. -/
theorem value_of_log_decided :
    ((∃ v, value ⟨[("x", .number 1), ("z", .error .emptyProgram)]⟩
          [.expression (.call "log" [.name "x" 1] 1) 1] = .number v) ∨
      value ⟨[("x", .number 1), ("z", .error .emptyProgram)]⟩
          [.expression (.call "log" [.name "x" 1] 1) 1] =
        .error ⟨.domain, "log of negative number"⟩) ∧
    (∃ v, value ⟨[("x", .number 1), ("z", .error .emptyProgram)]⟩
        [.expression (.call "max" [.name "x" 1, .number 2 1] 1) 1] = .number v) ∧
    ∃ e, value ⟨[("x", .number 1), ("z", .error .emptyProgram)]⟩ [.expression (.name "z" 1) 1] =
      .error e := by
  have hsupports : ∀ b : Builtin,
      Environment.Supports ⟨[("x", .number 1), ("z", .error .emptyProgram)]⟩ ["x"]
        [(b.name, b.arity)] := by
    intro b
    refine ⟨?_, ?_⟩
    · intro x hx
      obtain rfl := List.mem_singleton.mp hx
      exact ⟨1, rfl⟩
    · intro f n hf
      obtain ⟨rfl, rfl⟩ := Prod.mk.inj (List.mem_singleton.mp hf)
      exact ⟨b, rfl, rfl⟩
  have hcalls : ∀ {es : List Expr} {f g : String} {n : Nat},
      Calls [.expression (.call f es 1) 1] g n → Expr.callsAll es = [] → g = f := by
    rintro es f g n ⟨s, hs, hg⟩ hes
    obtain rfl := List.mem_singleton.mp hs
    simp only [Statement.expr, Expr.calls, hes] at hg
    exact (Prod.mk.inj (List.mem_singleton.mp hg)).1
  refine ⟨?_, ?_, ?_⟩
  · have hclosed : Closed ⟨[("x", .number 1), ("z", .error .emptyProgram)]⟩
        [.expression (.call "log" [.name "x" 1] 1) 1] := closed_single.mpr (hsupports .log)
    rcases (value_decided_by_closed _ _).1 hclosed with hnumber | ⟨f, -, ⟨n, hf⟩, hvalue⟩
    · exact Or.inl hnumber
    · obtain rfl := hcalls hf rfl
      exact Or.inr hvalue
  · refine (value_decided_by_closed _ _).2.1 (closed_single.mpr (hsupports .max)) ?_
    intro f hf n hmax
    obtain rfl := hcalls hmax rfl
    exact absurd hf (by decide)
  · refine (value_decided_by_closed _ _).2.2 ?_
    intro h
    obtain ⟨v, hv⟩ := h.names "z" (needs_cons.mpr (Or.inl (List.mem_singleton_self _)))
    cases hv

end Program
end ScalarScript
