import ScalarScript.Proofs.Program.Values

/-!
# What a run leaves behind

A run that succeeds leaves its environment extended by one binding for each assignment, in order.
So a name that is not assigned keeps its value, and a name that is assigned has the value of its last
assignment. The names come in the order of their last assignments, the latest one first, and behind
them the older names that have not been assigned again.
-/

namespace ScalarScript

/-- Names that are left out everywhere do not change which occurrences of the others come first. -/
theorem eraseDups_filter (q : String → Bool) (ns : List String) :
    (ns.filter q).eraseDups = ns.eraseDups.filter q := by
  match ns with
  | [] => simp
  | n :: ns =>
    have hlt := List.length_filter_le (fun b => !b == n) ns
    have hrest := eraseDups_filter q (ns.filter fun b => !b == n)
    by_cases hn : q n
    · simp only [List.filter_cons_of_pos hn, List.eraseDups_cons, ← hrest, List.filter_filter,
        Bool.and_comm]
    · have hout : ns.filter q = (ns.filter fun b => !b == n).filter q := by
        rw [List.filter_filter]
        apply List.filter_congr
        intro b _
        by_cases hb : b = n <;> simp [hb, hn]
      rw [List.filter_cons_of_neg hn, hout, hrest, List.eraseDups_cons,
        List.filter_cons_of_neg hn]
termination_by ns.length

namespace Environment

variable (env : Environment) (bs : List (String × Value))

theorem length_bindAll : (env.bindAll bs).length = env.length + bs.length := by
  simp [length, bindings_bindAll, Nat.add_comm]

theorem names_bindAll :
    (env.bindAll bs).names =
      (bs.map Prod.fst).reverse.eraseDups ++ env.names.filter (· ∉ bs.map Prod.fst) := by
  simp only [names, bindings_bindAll, List.map_append, List.map_reverse, List.eraseDups_append,
    ← eraseDups_filter]
  congr 2
  apply List.filter_congr
  simp

end Environment

namespace Program

/-- The assigned names, in the order of the assignments. -/
def targets (p : Program) : List String := p.filterMap Statement.target?

variable {env env' : Environment} {p : Program} {v : Value}

/-- The last of the assignments of a name. -/
theorem exists_last_assignment {x : String} (h : x ∈ p.targets) :
    ∃ before e n after, p = before ++ .assignment x e n :: after ∧ x ∉ targets after := by
  induction p with
  | nil => simp [targets] at h
  | cons s p ih =>
    by_cases hp : x ∈ targets p
    · obtain ⟨before, e, n, after, rfl, hafter⟩ := ih hp
      exact ⟨s :: before, e, n, after, rfl, hafter⟩
    · cases s with
      | assignment y e n =>
        obtain rfl : x = y := by
          simp only [targets] at h hp
          simpa [Statement.target?, hp] using h
        exact ⟨[], e, n, p, rfl, hp⟩
      | expression e n => exact absurd h hp

theorem map_fst_assigned {vs : List Value} (h : vs.length = p.length) :
    (assigned p vs).map Prod.fst = p.targets := by
  induction p generalizing vs with
  | nil => simp [assigned, targets]
  | cons s p ih =>
    obtain ⟨v, vs, rfl⟩ := List.exists_cons_of_length_eq_add_one h
    have hrest := ih (Nat.succ.inj h)
    cases s with
    | assignment x e n => exact congrArg (x :: ·) hrest
    | expression e n => exact hrest

/-- The first statement has a value, and the others go on behind it. -/
theorem reached_cons_eq_ok {s : Statement} :
    reached env (s :: p) = .ok env' ↔
      ∃ v, s.expr.eval env = .ok v ∧ reached (s.after env v) p = .ok env' := by
  rw [reached, s.eval_eq, bind_assoc]
  constructor
  · exact Except.bind_eq_ok
  · rintro ⟨v, hv, hrest⟩
    rw [hv]
    exact hrest

theorem values_of_reached (h : reached env p = .ok env') :
    ∃ vs, values env p = .ok vs ∧ env' = env.bindAll (assigned p vs) := by
  induction p generalizing env with
  | nil =>
    cases h
    exact ⟨[], rfl, rfl⟩
  | cons s p ih =>
    obtain ⟨v, hv, hrest⟩ := reached_cons_eq_ok.mp h
    obtain ⟨vs, hvs, rfl⟩ := ih hrest
    exact ⟨v :: vs, by simp [values_cons_ok hv, hvs], bindAll_assigned_cons.symm⟩

theorem reached_of_evalStatements (h : evalStatements env p = .ok (v, env')) :
    reached env p = .ok env' := by
  have hp : p ≠ [] := by
    rintro rfl
    cases h
  rw [reached_eq env hp, h]
  rfl

/-- The last statements of a run that succeeds start where the first ones lead to. -/
theorem exists_reached_of_append {q : Program} (hq : q ≠ [])
    (h : evalStatements env (p ++ q) = .ok (v, env')) :
    ∃ env₁, reached env p = .ok env₁ ∧ evalStatements env₁ q = .ok (v, env') := by
  rw [evalStatements_append_reached env p hq] at h
  exact Except.bind_eq_ok h

/-- Behind its last assignment a name keeps the value that was assigned. -/
theorem lookup_of_last_assignment {before after : Program} {x : String} {e : Expr} {n : Nat}
    (h : evalStatements env (before ++ .assignment x e n :: after) = .ok (v, env'))
    (hx : x ∉ targets after) :
    ∃ env₁ w, reached env before = .ok env₁ ∧ e.eval env₁ = .ok w ∧ env'.lookup x = .ok w := by
  obtain ⟨env₁, hbefore, hrest⟩ := exists_reached_of_append (List.cons_ne_nil _ _) h
  obtain ⟨w, hw, hafter⟩ := reached_cons_eq_ok.mp (reached_of_evalStatements hrest)
  obtain ⟨vs, hvs, rfl⟩ := values_of_reached hafter
  rw [← map_fst_assigned (length_of_values hvs)] at hx
  refine ⟨env₁, w, hbefore, hw, ?_⟩
  rw [Environment.lookup, Environment.find?_bindAll_of_not_mem _ hx]
  simp [Statement.after, Statement.target?, Environment.find?_bind]

/-- The value of a trailing assignment is that of the program. -/
theorem lookup_of_trailing_assignment {before : Program} {x : String} {e : Expr} {n : Nat}
    (h : evalStatements env (before ++ [.assignment x e n]) = .ok (v, env')) :
    env'.lookup x = .ok v := by
  obtain ⟨env₁, -, hlast⟩ := exists_reached_of_append (List.cons_ne_nil _ _) h
  rw [evalStatements_single, Statement.eval_assignment] at hlast
  obtain ⟨w, -, hbound⟩ := Except.bind_eq_ok hlast
  cases hbound
  simp [Environment.lookup, Environment.find?_bind]

/-- A run that succeeds adds one binding for each assignment, in order, and nothing else: the names
that are not assigned keep their values and their places, the others have the values of their last
assignments and come first, the latest one in front. -/
theorem evalStatements_extends (h : evalStatements env p = .ok (v, env')) :
    (∃ vs, values env p = .ok vs ∧ env' = env.bindAll (assigned p vs) ∧
      (assigned p vs).map Prod.fst = p.targets) ∧
    env'.length = env.length + p.targets.length ∧
    (∀ x, x ∉ p.targets → env'.lookup x = env.lookup x) ∧
    (∀ x, x ∈ p.targets → ∃ before e n after env₁ w,
      p = before ++ .assignment x e n :: after ∧ x ∉ targets after ∧
        reached env before = .ok env₁ ∧ e.eval env₁ = .ok w ∧ env'.lookup x = .ok w) ∧
    env'.names = p.targets.reverse.eraseDups ++ env.names.filter (· ∉ p.targets) ∧
    (∀ before x e n, p = before ++ [.assignment x e n] → env'.lookup x = .ok v) := by
  obtain ⟨vs, hvs, henv⟩ := values_of_reached (reached_of_evalStatements h)
  have hnames := map_fst_assigned (length_of_values hvs)
  refine ⟨⟨vs, hvs, henv, hnames⟩, ?_, ?_, ?_, ?_, ?_⟩
  · rw [henv, Environment.length_bindAll, ← hnames, List.length_map]
  · intro x hx
    rw [← hnames] at hx
    rw [henv, Environment.lookup, Environment.find?_bindAll_of_not_mem _ hx, Environment.lookup]
  · intro x hx
    obtain ⟨before, e, n, after, rfl, hafter⟩ := exists_last_assignment hx
    obtain ⟨env₁, w, hbefore, hw, hlookup⟩ := lookup_of_last_assignment h hafter
    exact ⟨before, e, n, after, env₁, w, rfl, hafter, hbefore, hw, hlookup⟩
  · rw [henv, Environment.names_bindAll, hnames]
  · rintro before x e n rfl
    exact lookup_of_trailing_assignment h

/-- In an environment with `z` and `x`, the statements `y = 2; x = y; y = x; x = 1` leave the names
`x`, `y` and `z`. -/
theorem evalStatements_extends_shadowed :
    ∃ env', evalStatements ⟨[("x", .number 5), ("z", .error .emptyProgram)]⟩
        [.assignment "y" (.number 2 1) 1, .assignment "x" (.name "y" 1) 1,
          .assignment "y" (.name "x" 1) 1, .assignment "x" (.number 1 1) 1] =
          .ok (.number 1, env') ∧
      env'.length = 6 ∧ env'.names = ["x", "y", "z"] ∧
      env'.lookup "z" = .ok (.error .emptyProgram) ∧ env'.lookup "x" = .ok (.number 1) := by
  obtain ⟨env', h⟩ : ∃ env', evalStatements ⟨[("x", .number 5), ("z", .error .emptyProgram)]⟩
      [.assignment "y" (.number 2 1) 1, .assignment "x" (.name "y" 1) 1,
        .assignment "y" (.name "x" 1) 1, .assignment "x" (.number 1 1) 1] =
        .ok (.number 1, env') := ⟨_, rfl⟩
  obtain ⟨-, hlength, hother, -, hnames, hlast⟩ := evalStatements_extends h
  exact ⟨env', h, hlength, hnames, hother "z" (by decide),
    hlast [.assignment "y" (.number 2 1) 1, .assignment "x" (.name "y" 1) 1,
      .assignment "y" (.name "x" 1) 1] "x" _ _ rfl⟩

end Program
end ScalarScript
