import ScalarScript.Proofs.Outcome
import ScalarScript.Proofs.Program.Names

/-!
# Values of statements

A run goes through the statements in order and takes a value from each of them, up to the first one
that fails. These values tell all of a run: the last of them is the value of the program, and the
environment at the end is the one at the beginning with a binding for each assignment, in order.
-/

namespace ScalarScript

namespace Environment

/-- The environment with more bindings, made in order. -/
def bindAll (env : Environment) (bs : List (String × Value)) : Environment :=
  bs.foldl (fun env b => env.bind b.1 b.2) env

@[simp] theorem bindAll_nil (env : Environment) : env.bindAll [] = env := rfl

@[simp] theorem bindAll_cons (env : Environment) (x : String) (v : Value)
    (bs : List (String × Value)) : env.bindAll ((x, v) :: bs) = (env.bind x v).bindAll bs := rfl

theorem bindAll_append (env : Environment) (bs cs : List (String × Value)) :
    env.bindAll (bs ++ cs) = (env.bindAll bs).bindAll cs :=
  List.foldl_append

theorem bindings_bindAll (env : Environment) (bs : List (String × Value)) :
    (env.bindAll bs).bindings = bs.reverse ++ env.bindings := by
  induction bs generalizing env with
  | nil => rfl
  | cons b bs ih =>
    obtain ⟨x, v⟩ := b
    rw [bindAll_cons, ih, List.reverse_cons, List.append_assoc]
    rfl

/-- Bindings of other names hide nothing. -/
theorem find?_bindAll_of_not_mem (env : Environment) {bs : List (String × Value)} {x : String}
    (h : x ∉ bs.map Prod.fst) : (env.bindAll bs).find? x = env.find? x := by
  induction bs generalizing env with
  | nil => rfl
  | cons b bs ih =>
    obtain ⟨y, v⟩ := b
    simp only [List.map_cons, List.mem_cons, not_or] at h
    rw [bindAll_cons, ih _ h.2, find?_bind, if_neg h.1]

theorem find?_bindAll_last (env : Environment) {before after : List (String × Value)} {x : String}
    {v : Value} (h : x ∉ after.map Prod.fst) :
    (env.bindAll (before ++ (x, v) :: after)).find? x = some v := by
  rw [bindAll_append, bindAll_cons, find?_bindAll_of_not_mem _ h, find?_bind, if_pos rfl]

end Environment

namespace Program

/-- The values of the statements in order, or the error of the first one that fails. -/
def values (env : Environment) : Program → Except EvalError (List Value)
  | [] => .ok []
  | s :: p => do
    let v ← s.expr.eval env
    let vs ← values (s.after env v) p
    return v :: vs

/-- The bindings that statements with these values make. -/
def assigned (p : Program) (vs : List Value) : List (String × Value) :=
  (p.zip vs).filterMap fun (s, v) => s.target?.map (·, v)

variable {env : Environment} {s : Statement} {p : Program} {v : Value} {vs : List Value}

@[simp] theorem values_nil : values env [] = .ok [] := rfl

@[simp] theorem assigned_nil (vs : List Value) : assigned [] vs = [] := rfl

theorem bindAll_assigned_cons :
    env.bindAll (assigned (s :: p) (v :: vs)) = (s.after env v).bindAll (assigned p vs) := by
  cases s <;> rfl

theorem values_cons_ok (h : s.expr.eval env = .ok v) :
    values env (s :: p) = (values (s.after env v) p).map (v :: ·) := by
  rw [values, h, Except.ok_bind]
  rfl

theorem values_cons_error {e : EvalError} (h : s.expr.eval env = .error e) :
    values env (s :: p) = .error e := by
  rw [values, h, Except.error_bind]

theorem values_cons_eq_ok (h : values env (s :: p) = .ok vs) :
    ∃ v ws, s.expr.eval env = .ok v ∧ values (s.after env v) p = .ok ws ∧ vs = v :: ws := by
  obtain ⟨v, hv, hrest⟩ := Except.bind_eq_ok h
  obtain ⟨ws, hws, hall⟩ := Except.bind_eq_ok hrest
  cases hall
  exact ⟨v, ws, hv, hws, rfl⟩

/-- Statements that do not all have values fail at the first one or behind it. -/
theorem values_cons_eq_error {e : EvalError} (h : values env (s :: p) = .error e) :
    s.expr.eval env = .error e ∨
      ∃ v, s.expr.eval env = .ok v ∧ values (s.after env v) p = .error e := by
  rw [values] at h
  rcases Except.bind_eq_error h with hs | ⟨v, hv, hrest⟩
  · exact Or.inl hs
  · rcases Except.bind_eq_error hrest with hp | ⟨vs, -, hall⟩
    · exact Or.inr ⟨v, hv, hp⟩
    · cases hall

theorem length_of_values (h : values env p = .ok vs) : vs.length = p.length := by
  induction p generalizing env vs with
  | nil =>
    cases h
    rfl
  | cons s p ih =>
    obtain ⟨v, ws, -, hws, rfl⟩ := values_cons_eq_ok h
    rw [List.length_cons, List.length_cons, ih hws]

/-- The values of the statements determine the value and the environment of a run. -/
theorem evalStatements_eq (env : Environment) (p : Program) :
    evalStatements env p =
      (do
        let vs ← values env p
        match vs.getLast? with
        | some v => return (v, env.bindAll (assigned p vs))
        | none => throw .emptyProgram) := by
  induction p generalizing env with
  | nil => rfl
  | cons s p ih =>
    by_cases hp : p = []
    · subst hp
      rw [evalStatements_single, s.eval_eq]
      cases h : s.expr.eval env with
      | error e => simp [values_cons_error h]
      | ok v =>
        rw [values_cons_ok h]
        simp [bindAll_assigned_cons]
    · rw [evalStatements_cons_eq env s hp]
      cases h : s.expr.eval env with
      | error e => simp [values_cons_error h]
      | ok v =>
        rw [values_cons_ok h, Except.ok_bind, ih]
        cases hvs : values (s.after env v) p with
        | error e => simp
        | ok vs =>
          obtain ⟨w, ws, rfl⟩ : ∃ w ws, vs = w :: ws := by
            apply List.exists_cons_of_length_pos
            rw [length_of_values hvs]
            exact List.length_pos_iff.mpr hp
          simp [List.getLast?_cons_cons, bindAll_assigned_cons]

theorem evalStatements_of_values_error {e : EvalError} (h : values env p = .error e) :
    evalStatements env p = .error e := by
  rw [evalStatements_eq, h, Except.error_bind]

theorem evalStatements_of_values_ok (h : values env p = .ok vs) (hlast : vs.getLast? = some v) :
    evalStatements env p = .ok (v, env.bindAll (assigned p vs)) := by
  simp [evalStatements_eq, h, hlast]

theorem exists_last_of_values (hp : p ≠ []) (h : values env p = .ok vs) :
    ∃ v, vs.getLast? = some v := by
  cases hlast : vs.getLast? with
  | some v => exact ⟨v, rfl⟩
  | none =>
    obtain rfl := List.getLast?_eq_none_iff.mp hlast
    exact absurd (List.length_eq_zero_iff.mp (length_of_values h).symm) hp

end Program
end ScalarScript
