import ScalarScript.Proofs.Outcome
import ScalarScript.Proofs.Program.Closed

/-!
# Calls by name

The table and the functions check the number of arguments each on their own, and both checks agree:
a call by a name of the table is the function itself, applied to the arguments. Each function takes
its arguments apart first, so a wrong number of them comes before an error among them, and the first
error among them before anything that the function does. Such an error is passed on as it is, also
if it says that the function is not known.
-/

namespace ScalarScript
namespace Builtin

theorem mem_names_iff {name : String} : name ∈ names ↔ ∃ f : Builtin, f.name = name := by
  simp [names, mem_all]

theorem ofName?_eq_none_iff {name : String} : ofName? name = none ↔ name ∉ names := by
  simp [ofName?, mem_names_iff, mem_all]

theorem isName_eq_false_iff {name : String} : isName name = false ↔ name ∉ names := by
  rw [← ofName?_eq_none_iff, isName, Option.isSome_eq_false_iff, Option.isNone_iff_eq_none]

/-- Values are numbers up to the first error. -/
theorem numbers_or_error (args : List Value) :
    (∃ xs : List Float, args = xs.map .number) ∨
      ∃ (xs : List Float) (e : EvalError) (rest : List Value),
        args = xs.map .number ++ .error e :: rest := by
  induction args with
  | nil => exact Or.inl ⟨[], rfl⟩
  | cons v args ih =>
    cases v with
    | error e => exact Or.inr ⟨[], e, args, rfl⟩
    | number x =>
      rcases ih with ⟨xs, rfl⟩ | ⟨xs, e, rest, rfl⟩
      · exact Or.inl ⟨x :: xs, rfl⟩
      · exact Or.inr ⟨x :: xs, e, rest, rfl⟩

theorem oneNumber_of_length_ne {f : String} {args : List Value} (h : args.length ≠ 1) :
    oneNumber f args = .error (.arity f 1 args.length) := by
  unfold oneNumber
  split
  · exact absurd rfl h
  · rfl

theorem twoNumbers_of_length_ne {f : String} {args : List Value} (h : args.length ≠ 2) :
    twoNumbers f args = .error (.arity f 2 args.length) := by
  unfold twoNumbers
  split
  · exact absurd rfl h
  · rfl

variable {xs : List Float} {e : EvalError} {rest : List Value}

theorem oneNumber_of_error {f : String}
    (h : (xs.map Value.number ++ .error e :: rest).length = 1) :
    oneNumber f (xs.map .number ++ .error e :: rest) = .error e := by
  match xs, rest with
  | [], [] => rfl
  | [], _ :: _ => simp at h
  | _ :: _, _ => simp at h

theorem twoNumbers_of_error {f : String}
    (h : (xs.map Value.number ++ .error e :: rest).length = 2) :
    twoNumbers f (xs.map .number ++ .error e :: rest) = .error e := by
  match xs, rest with
  | [], [_] => rfl
  | [_], [] => rfl
  | [], [] | [], _ :: _ :: _ => simp at h
  | [_], _ :: _ => simp at h
  | _ :: _ :: _, _ => simp at h

/-- A function takes its arguments apart before it does anything else. -/
theorem handle_eq_bind (f : Builtin) :
    (f.arity = 1 ∧ ∃ k, ∀ args, f.handle args = oneNumber f.name args >>= k) ∨
      (f.arity = 2 ∧ ∃ k, ∀ args, f.handle args = twoNumbers f.name args >>= k) := by
  cases f with
  | log | log2 | log10 | exp | sqrt | abs | floor | ceil | round =>
    exact Or.inl ⟨rfl, _, fun _ => rfl⟩
  | min | max | pow => exact Or.inr ⟨rfl, _, fun _ => rfl⟩

theorem handle_of_length_ne (f : Builtin) {args : List Value} (h : args.length ≠ f.arity) :
    f.handle args = .error (.arity f.name f.arity args.length) := by
  rcases f.handle_eq_bind with ⟨harity, k, hk⟩ | ⟨harity, k, hk⟩
  · rw [harity] at h ⊢
    rw [hk, oneNumber_of_length_ne h, Except.error_bind]
  · rw [harity] at h ⊢
    rw [hk, twoNumbers_of_length_ne h, Except.error_bind]

theorem handle_of_error (f : Builtin)
    (h : (xs.map Value.number ++ .error e :: rest).length = f.arity) :
    f.handle (xs.map .number ++ .error e :: rest) = .error e := by
  rcases f.handle_eq_bind with ⟨harity, k, hk⟩ | ⟨harity, k, hk⟩
  · rw [hk, oneNumber_of_error (h.trans harity), Except.error_bind]
  · rw [hk, twoNumbers_of_error (h.trans harity), Except.error_bind]

theorem call_name (f : Builtin) (args : List Value) : call f.name args = f.handle args := by
  simp only [call, ofName?_name]
  split_ifs with h
  · rfl
  · exact (f.handle_of_length_ne h).symm

/-- A function that makes an error of its own blames the domain. -/
theorem exists_error_of_handle_eq_unknown {f : Builtin} {args : List Value} {name : String}
    (h : f.handle args = .error (.unknownFunction name)) :
    args.length = f.arity ∧
      ∃ (xs : List Float) (rest : List Value),
        args = xs.map .number ++ .error (.unknownFunction name) :: rest := by
  by_cases hlength : args.length = f.arity
  · refine ⟨hlength, ?_⟩
    rcases numbers_or_error args with ⟨xs, rfl⟩ | ⟨xs, e, rest, rfl⟩
    · have hverdict := f.handle_verdict (by simpa using hlength)
      rw [h] at hverdict
      generalize hr : Except.error (EvalError.unknownFunction name) = r at hverdict
      cases hverdict with
      | good => cases hr
      | domain => cases congrArg EvalError.kind (Except.error.inj hr)
      | failure hfalse => exact absurd trivial hfalse
    · rw [f.handle_of_error hlength] at h
      obtain rfl := Except.error.inj h
      exact ⟨xs, rest, rfl⟩
  · rw [f.handle_of_length_ne hlength] at h
    cases congrArg EvalError.kind (Except.error.inj h)

theorem call_eq_unknown_iff {name : String} {args : List Value} :
    call name args = .error (.unknownFunction name) ↔
      name ∉ names ∨ ∃ f : Builtin, f.name = name ∧ args.length = f.arity ∧
        ∃ (xs : List Float) (rest : List Value),
          args = xs.map .number ++ .error (.unknownFunction name) :: rest := by
  constructor
  · intro h
    by_cases hname : name ∈ names
    · obtain ⟨f, rfl⟩ := mem_names_iff.mp hname
      rw [call_name] at h
      exact Or.inr ⟨f, rfl, exists_error_of_handle_eq_unknown h⟩
    · exact Or.inl hname
  · rintro (hname | ⟨f, rfl, hlength, xs, rest, rfl⟩)
    · rw [call, ofName?_eq_none_iff.mpr hname]
    · rw [call_name, f.handle_of_error hlength]

/-- A power by name and one by the caret are taken of the same operands in the same order. -/
theorem eval_call_pow (env : Environment) (a b : Expr) (n m : Nat) :
    Expr.eval env (.call "pow" [a, b] n) = Expr.eval env (.binary .pow a b m) := by
  have hpow : ∀ v w : Value, call "pow" [v, w] = Operator.applyValues .pow v w := by
    intro v w
    rw [show call "pow" [v, w] = power [v, w] from call_name .pow [v, w]]
    cases v <;> cases w <;> rfl
  simp only [Expr.eval_call, Expr.evalAll_cons, Expr.evalAll_nil, Expr.eval_binary]
  cases a.eval env with
  | error e => simp
  | ok v =>
    cases b.eval env with
    | error e => simp
    | ok w => simpa using hpow v w

/-- A call by name agrees with the function of that name. It says that the function is not known if
the table has no entry for it, and otherwise only if this error is the first one among as many
arguments as the function takes. A wrong number of arguments comes before any error among them, and
then the first error among them. The power by name is the operator. -/
theorem call_agrees (name : String) (args : List Value) :
    (isName name = false ↔ name ∉ names) ∧
    (call name args = .error ⟨.unknownFunction, name ++ " is not a function"⟩ ↔
      name ∉ names ∨ ∃ f : Builtin, f.name = name ∧ args.length = f.arity ∧
        ∃ (xs : List Float) (rest : List Value), args = xs.map .number ++
          .error ⟨.unknownFunction, name ++ " is not a function"⟩ :: rest) ∧
    (∀ f : Builtin, f.name = name →
      call name args = f.handle args ∧
      (args.length ≠ f.arity → f.handle args = .error (.arity name f.arity args.length)) ∧
      (args.length = f.arity → ∀ (xs : List Float) (e : EvalError) (rest : List Value),
        args = xs.map .number ++ .error e :: rest → f.handle args = .error e)) ∧
    ∀ (env : Environment) (a b : Expr) (n m : Nat),
      Expr.eval env (.call "pow" [a, b] n) = Expr.eval env (.binary .pow a b m) := by
  refine ⟨isName_eq_false_iff, call_eq_unknown_iff, ?_, eval_call_pow⟩
  rintro f rfl
  refine ⟨call_name f args, f.handle_of_length_ne, ?_⟩
  rintro hlength xs e rest rfl
  exact f.handle_of_error hlength

/-- With two arguments `log` counts them before it meets the error, and `max` passes it on. -/
theorem call_agrees_with_error :
    call "log" [.number 1, .error .emptyProgram] = .error (.arity "log" 1 2) ∧
      call "max" [.number 1, .error .emptyProgram] = .error .emptyProgram ∧
      call "mean" [.number 1] = .error ⟨.unknownFunction, "mean is not a function"⟩ := by
  obtain ⟨hlog, harity, -⟩ :=
    (call_agrees "log" [.number 1, .error .emptyProgram]).2.2.1 .log rfl
  obtain ⟨hmax, -, herror⟩ :=
    (call_agrees "max" [.number 1, .error .emptyProgram]).2.2.1 .max rfl
  refine ⟨hlog.trans (harity (by decide)), hmax.trans (herror rfl [1] _ [] rfl), ?_⟩
  exact (call_agrees "mean" [.number 1]).2.1.mpr (Or.inl (by decide))

/-- `abs` is a name of the table and says that it is not known when its argument says so. -/
theorem call_unknown_of_error_argument :
    ¬ (call "abs" [.error ⟨.unknownFunction, "abs is not a function"⟩] =
        .error ⟨.unknownFunction, "abs" ++ " is not a function"⟩ ↔ "abs" ∉ names) := by
  intro h
  exact h.mp rfl (by decide)

end Builtin
end ScalarScript
