import ScalarScript.Proofs.Program.Names

/-!
# What a result depends on

Two environments are alike for a program if they agree on the names that it needs from outside. Then
each statement has the same value in both and leaves environments that are alike for the rest. Hence
the value of a program is not influenced by hidden bindings, by bindings of other names, by the order
of the bindings or by lines; a variable does not even influence calls of a function with its name.
-/

namespace ScalarScript

namespace Expr

variable {env env' : Environment}

mutual

/-- The value of an expression depends on the names that it reads. -/
theorem eval_congr : ∀ e : Expr, (∀ x ∈ e.names, env.find? x = env'.find? x) →
    e.eval env = e.eval env'
  | .number _ _, _ => rfl
  | .name s n, h => by
    have hs : env.find? s = env'.find? s := h s (List.mem_singleton_self s)
    simp only [eval_name, Environment.lookup, hs]
  | .negation e n, h => by
    simp only [eval_negation, eval_congr e h]
  | .binary op l r n, h => by
    obtain ⟨hl, hr⟩ := List.forall_mem_append.mp h
    simp only [eval_binary, eval_congr l hl, eval_congr r hr]
  | .call f es n, h => by
    simp only [eval_call, evalAll_congr es h]

theorem evalAll_congr : ∀ es : List Expr, (∀ x ∈ namesAll es, env.find? x = env'.find? x) →
    evalAll env es = evalAll env' es
  | [], _ => rfl
  | e :: es, h => by
    obtain ⟨he, hes⟩ := List.forall_mem_append.mp h
    simp only [evalAll_cons, eval_congr e he, evalAll_congr es hes]

end

theorem eval_bind_of_not_mem {e : Expr} {x : String} (h : x ∉ e.names) (v : Value) :
    e.eval (env.bind x v) = e.eval env := by
  apply eval_congr
  intro y hy
  rw [Environment.find?_bind, if_neg]
  rintro rfl
  exact h hy

end Expr

namespace Program

/-- Environments that are alike for the statements behind `s`. -/
theorem find?_after_congr {env env' : Environment} {s : Statement} {p : Program}
    (h : ∀ x, Needs (s :: p) x → env.find? x = env'.find? x) (v : Value) :
    ∀ x, p.Needs x → (s.after env v).find? x = (s.after env' v).find? x := by
  intro x hx
  rw [s.find?_after, s.find?_after]
  split
  next => rfl
  next hs => exact h x (needs_cons.mpr (Or.inr ⟨hs, hx⟩))

theorem result_congr {env env' : Environment} {p : Program}
    (h : ∀ x, p.Needs x → env.find? x = env'.find? x) : p.result env = p.result env' := by
  induction p generalizing env env' with
  | nil => rfl
  | cons s p ih =>
    have hs : s.expr.eval env = s.expr.eval env' :=
      s.expr.eval_congr fun x hx => h x (needs_cons.mpr (Or.inl hx))
    by_cases hp : p = []
    · subst hp
      rw [result_single, result_single, hs]
    · rw [result_cons env s hp, result_cons env' s hp, hs]
      apply bind_congr
      intro v
      exact ih (find?_after_congr h v)

theorem value_congr {env env' : Environment} {p : Program}
    (h : ∀ x, p.Needs x → env.find? x = env'.find? x) : p.value env = p.value env' := by
  rw [value_eq_ofExcept, value_eq_ofExcept, result_congr h]

theorem EqUpToLines.value_eq {p q : Program} (h : p.EqUpToLines q) (env : Environment) :
    p.value env = q.value env := by
  have hrun : evalStatements env p = evalStatements env q := by
    rw [← evalStatements_mapLines env (fun _ => 0) p, h, evalStatements_mapLines]
  rw [value_eq_ofExcept, value_eq_ofExcept, result, result, hrun]

end Program

namespace Environment

/-- A binding behind another one of the same name is not found. -/
theorem find?_hidden {bs cs : List (String × Value)} {x : String} {v w : Value}
    (h : (x, w) ∈ bs) (y : String) :
    find? ⟨bs ++ (x, v) :: cs⟩ y = find? ⟨bs ++ cs⟩ y := by
  unfold find?
  rw [List.lookup_append, List.lookup_append, List.lookup_cons]
  by_cases hy : y = x
  · subst hy
    have hsome : (bs.lookup y).isSome = true := by
      rw [List.lookup_isSome_iff]
      exact ⟨(y, w), h, by simp⟩
    obtain ⟨u, hu⟩ := Option.isSome_iff_exists.mp hsome
    rw [hu, Option.some_or, Option.some_or]
  · rw [beq_false_of_ne hy]

/-- A binding is found by its place among those of its name. -/
theorem find?_eq_head?_filter (bs : List (String × Value)) (x : String) :
    find? ⟨bs⟩ x = (bs.filter (·.1 = x)).head?.map Prod.snd := by
  unfold find?
  induction bs with
  | nil => rfl
  | cons b bs ih =>
    obtain ⟨y, v⟩ := b
    rw [List.lookup_cons, List.filter_cons]
    by_cases hy : x = y
    · subst hy
      simp
    · simp [beq_false_of_ne hy, Ne.symm hy, ih]

end Environment

namespace Program

/-- The value of a program is determined by what it needs: lines do not matter, nor bindings of names
that it does not need, hidden bindings and the order of bindings with different names. -/
theorem value_determined_by_needs :
    (∀ (p q : Program) (env env' : Environment), p.EqUpToLines q →
      (∀ x, p.Needs x → env.find? x = env'.find? x) → p.value env = q.value env') ∧
    (∀ (p : Program) (env : Environment) (x : String) (v : Value), ¬ p.Needs x →
      p.value (env.bind x v) = p.value env) ∧
    (∀ (p : Program) (bs cs : List (String × Value)) (x : String) (v w : Value), (x, w) ∈ bs →
      p.value ⟨bs ++ (x, v) :: cs⟩ = p.value ⟨bs ++ cs⟩) ∧
    ∀ (p : Program) (bs cs : List (String × Value)),
      (∀ x, bs.filter (·.1 = x) = cs.filter (·.1 = x)) → p.value ⟨bs⟩ = p.value ⟨cs⟩ := by
  refine ⟨?_, ?_, ?_, ?_⟩
  · intro p q env env' hlines henv
    rw [value_congr henv, hlines.value_eq]
  · intro p env x v hx
    apply value_congr
    intro y hy
    rw [Environment.find?_bind, if_neg]
    rintro rfl
    exact hx hy
  · intro p bs cs x v w hw
    apply value_congr
    intro y _
    exact Environment.find?_hidden hw y
  · intro p bs cs h
    apply value_congr
    intro y _
    rw [Environment.find?_eq_head?_filter, Environment.find?_eq_head?_filter, h y]

/-- A variable `log`, a hidden `y` and an `x` that is assigned before it is read have no influence,
and neither have lines. -/
theorem value_of_log_needs_only_argument :
    EqUpToLines
      [.assignment "x" (.name "y" 1) 1, .expression (.call "log" [.name "x" 2] 2) 2]
      [.assignment "x" (.name "y" 7) 7, .expression (.call "log" [.name "x" 7] 7) 7] ∧
    value ⟨[("y", .number 2)]⟩
        [.assignment "x" (.name "y" 1) 1, .expression (.call "log" [.name "x" 2] 2) 2] =
      value ⟨[("log", .number 5), ("y", .number 2), ("x", .number 9), ("y", .number 7)]⟩
        [.assignment "x" (.name "y" 7) 7, .expression (.call "log" [.name "x" 7] 7) 7] := by
  refine ⟨rfl, value_determined_by_needs.1 _ _ _ _ rfl ?_⟩
  intro x hx
  rcases needs_cons.mp hx with hx | ⟨hne, hx⟩
  · obtain rfl := List.mem_singleton.mp hx
    rfl
  · rcases needs_cons.mp hx with hx | ⟨-, hx⟩
    · obtain rfl := List.mem_singleton.mp hx
      exact absurd rfl hne
    · exact absurd hx not_needs_nil

end Program
end ScalarScript
