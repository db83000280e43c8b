import ScalarScript.Proofs.Program.Closed
import ScalarScript.Proofs.Program.Visits

/-!
# The record of a run

The events of a run tell what it did: which nodes it visited, which assignments it made, and how it
ended. A statement reports what it binds once it has a value, so the bindings are those of the
statements in front of the first one that fails, and they lead to the environment at the end of a
run that succeeds. The error of a run comes behind all that.
-/

namespace ScalarScript

namespace Event

def isBinding : Event → Bool
  | binding .. => true
  | _ => false

/-- The name and the value of a binding. -/
def bound? : Event → Option (String × Value)
  | binding x v _ => some (x, v)
  | _ => none

def isFailure : Event → Bool
  | failure _ => true
  | _ => false

theorem filterMap_bound?_filter (es : List Event) :
    (es.filter isBinding).filterMap bound? = es.filterMap bound? := by
  rw [List.filterMap_filter]
  congr 1
  funext event
  cases event <;> rfl

end Event

namespace Statement

/-- What a statement reports of its value. -/
def reports (s : Statement) (v : Value) : List Event :=
  match s with
  | .assignment x _ n => [.binding x v n]
  | .expression _ _ => []

variable {s : Statement} {v : Value}

theorem events_logged (env : Environment) (s : Statement) :
    (s.logged env).events =
      (s.expr.logged env).events ++
        match s.expr.eval env with
        | .ok v => s.reports v
        | .error _ => [] := by
  cases s with
  | assignment _ e _ | expression e _ =>
    rw [logged, Logged.events_bind]
    show _ = (e.logged env).events ++ match (e.logged env).outcome with
      | .ok v => _
      | .error _ => _
    cases (e.logged env).outcome <;> rfl

theorem visited_reports : Event.visited (s.reports v) = [] := by cases s <;> rfl

theorem filter_isBinding_reports : (s.reports v).filter Event.isBinding = s.reports v := by
  cases s <;> rfl

theorem filter_isFailure_reports : (s.reports v).filter Event.isFailure = [] := by
  cases s <;> rfl

end Statement

/-- The evaluation of an expression neither binds a name nor reports the end of the program. -/
theorem Expr.events_logged_inner {env : Environment} (e : Expr) :
    ∀ event ∈ (e.logged env).events, event.isBinding = false ∧ event.isFailure = false := by
  induction e using induction_operands with
  | h e ih =>
    have hall : ∀ es : List Expr, (∀ x ∈ es, ∀ event ∈ (x.logged env).events,
        event.isBinding = false ∧ event.isFailure = false) →
        ∀ event ∈ (loggedAll env es).events,
          event.isBinding = false ∧ event.isFailure = false := by
      intro es hes
      induction es with
      | nil => simp [loggedAll]
      | cons x es ih' =>
        obtain ⟨hx, hrest⟩ := List.forall_mem_cons.mp hes
        rw [events_loggedAll_cons]
        intro event hevent
        rcases List.mem_append.mp hevent with hmem | hmem
        · exact hx event hmem
        · cases hv : x.eval env with
          | ok v =>
            rw [hv] at hmem
            exact ih' hrest event hmem
          | error err =>
            rw [hv] at hmem
            cases hmem
    obtain ⟨steps, hsteps, heq⟩ := e.events_logged env
    rw [heq]
    intro event hevent
    rcases List.mem_cons.mp hevent with rfl | hevent
    · exact ⟨rfl, rfl⟩
    · rcases List.mem_append.mp hevent with hmem | hmem
      · exact hall _ ih event hmem
      · have := hsteps event hmem
        cases event <;> first | exact ⟨rfl, rfl⟩ | cases this

namespace Program

/-- The nodes of all statements, in the order in which they are written. -/
def nodes (p : Program) : List Expr := p.flatMap (·.expr.nodes)

/-- What statements report of their values. -/
def reports (p : Program) (vs : List Value) : List Event :=
  (p.zip vs).flatMap fun (s, v) => s.reports v

/-- The events of a run up to its end. -/
def record (env : Environment) (p : Program) : List Event := (loggedStatements env p).events

variable {env : Environment} {s : Statement} {p : Program} {v : Value} {vs : List Value}
  {e : EvalError}

@[simp] theorem nodes_cons : nodes (s :: p) = s.expr.nodes ++ nodes p := rfl

theorem nodes_append (p q : Program) : nodes (p ++ q) = nodes p ++ nodes q := List.flatMap_append

@[simp] theorem reports_cons : reports (s :: p) (v :: vs) = s.reports v ++ reports p vs := rfl

theorem filterMap_bound?_reports (p : Program) (vs : List Value) :
    (reports p vs).filterMap Event.bound? = assigned p vs := by
  unfold reports assigned
  induction p.zip vs with
  | nil => rfl
  | cons sv rest ih =>
    rw [List.flatMap_cons, List.filterMap_append, ih]
    obtain ⟨s, v⟩ := sv
    cases s <;> rfl

theorem record_cons (env : Environment) (s : Statement) (p : Program) :
    record env (s :: p) =
      (s.expr.logged env).events ++
        match s.expr.eval env with
        | .ok v => s.reports v ++ record (s.after env v) p
        | .error _ => [] := by
  cases p with
  | nil =>
    show (s.logged env).events = _
    rw [s.events_logged]
    cases s.expr.eval env <;> simp [record, loggedStatements]
  | cons next rest =>
    show (s.logged env >>= _).events = _
    have houtcome : (s.logged env).outcome =
        s.expr.eval env >>= fun v => .ok (v, s.after env v) := s.eval_eq env
    rw [Logged.events_bind, s.events_logged, houtcome, List.append_assoc]
    cases s.expr.eval env <;> rfl

theorem record_cons_ok (h : s.expr.eval env = .ok v) :
    record env (s :: p) =
      (s.expr.logged env).events ++ (s.reports v ++ record (s.after env v) p) := by
  rw [record_cons, h]

theorem record_cons_error (h : s.expr.eval env = .error e) :
    record env (s :: p) = (s.expr.logged env).events := by
  rw [record_cons, h, List.append_nil]

theorem filter_isBinding_logged (x : Expr) :
    (x.logged env).events.filter Event.isBinding = [] := by
  simpa using fun event hevent => (x.events_logged_inner event hevent).1

theorem filter_isBinding_record_cons (h : s.expr.eval env = .ok v) :
    (record env (s :: p)).filter Event.isBinding =
      s.reports v ++ (record (s.after env v) p).filter Event.isBinding := by
  rw [record_cons_ok h, List.filter_append, List.filter_append, filter_isBinding_logged,
    s.filter_isBinding_reports, List.nil_append]

theorem visited_record_cons (h : s.expr.eval env = .ok v) :
    Event.visited (record env (s :: p)) =
      s.expr.nodes.map Expr.line ++ Event.visited (record (s.after env v) p) := by
  rw [record_cons_ok h, Event.visited_append, Event.visited_append, s.visited_reports,
    Expr.visited_of_hasValue _ ⟨v, h⟩, List.nil_append]

/-- A failure is not reported before the end. -/
theorem filter_isFailure_record (env : Environment) (p : Program) :
    (record env p).filter Event.isFailure = [] := by
  induction p generalizing env with
  | nil => rfl
  | cons s p ih =>
    have hs : (s.expr.logged env).events.filter Event.isFailure = [] := by
      simpa using fun event hevent => (s.expr.events_logged_inner event hevent).2
    cases h : s.expr.eval env with
    | error e => rw [record_cons_error h, hs]
    | ok v =>
      rw [record_cons_ok h, List.filter_append, List.filter_append, hs,
        s.filter_isFailure_reports, ih]
      rfl

theorem record_of_ok (h : values env p = .ok vs) :
    Event.visited (record env p) = p.nodes.map Expr.line ∧
      (record env p).filter Event.isBinding = reports p vs := by
  induction p generalizing env vs with
  | nil => exact ⟨rfl, rfl⟩
  | cons s p ih =>
    obtain ⟨v, ws, hv, hws, rfl⟩ := values_cons_eq_ok h
    obtain ⟨hvisited, hbound⟩ := ih hws
    rw [visited_record_cons hv, filter_isBinding_record_cons hv, hvisited, hbound, nodes_cons,
      List.map_append, reports_cons]
    exact ⟨rfl, rfl⟩

/-- The record of a run that fails is that of the statements in front of the first failure, and the
visits up to the node that fails. -/
theorem record_of_error (h : values env p = .error e) :
    ∃ done s rest vs ns, p = done ++ s :: rest ∧ values env done = .ok vs ∧
      s.expr.StopsAfter (env.bindAll (assigned done vs)) e ns ∧
      Event.visited (record env p) = (nodes done ++ ns).map Expr.line ∧
      (record env p).filter Event.isBinding = reports done vs := by
  induction p generalizing env with
  | nil => cases h
  | cons s p ih =>
    rcases values_cons_eq_error h with hv | ⟨v, hv, hrest⟩
    · obtain ⟨ns, hns, hvisited⟩ := s.expr.visited_of_error hv
      refine ⟨[], s, p, [], ns, rfl, rfl, hns, ?_, ?_⟩
      · rw [record_cons_error hv, hvisited]
        rfl
      · rw [record_cons_error hv, filter_isBinding_logged]
        rfl
    · obtain ⟨done, t, rest, vs, ns, rfl, hvs, hns, hvisited, hbound⟩ := ih hrest
      refine ⟨s :: done, t, rest, v :: vs, ns, rfl, ?_, ?_, ?_, ?_⟩
      · rw [values_cons_ok hv, hvs, Except.map_ok]
      · rwa [bindAll_assigned_cons]
      · rw [visited_record_cons hv, hvisited, nodes_cons, ← List.map_append, List.append_assoc]
      · rw [filter_isBinding_record_cons hv, hbound, reports_cons]

theorem events_of_ok {r : Value × Environment} (h : evalStatements env p = .ok r) :
    events env p = record env p := by
  have h' : (loggedStatements env p).outcome = .ok r := h
  rw [events, h']
  rfl

theorem events_of_error (h : evalStatements env p = .error e) :
    events env p = record env p ++ [.failure e] := by
  have h' : (loggedStatements env p).outcome = .error e := h
  rw [events, h']
  rfl

theorem visited_failure (es : List Event) (e : EvalError) :
    Event.visited (es ++ [.failure e]) = Event.visited es := by
  rw [Event.visited_append]
  exact List.append_nil _

theorem filter_isBinding_failure (es : List Event) (e : EvalError) :
    (es ++ [Event.failure e]).filter Event.isBinding = es.filter Event.isBinding := by
  rw [List.filter_append]
  exact List.append_nil _

/-- A run visits the nodes in their order, all of them unless it fails, and no node behind the first
failure but those below it. It reports the assignments that were made, and these lead to the
environment at the end. Its error is reported once, as the last event. -/
theorem events_faithful (env : Environment) (p : Program) :
    Event.visited (events env p) <+: p.nodes.map Expr.line ∧
    (∀ x, p.value env = .number x →
      Event.visited (events env p) = p.nodes.map Expr.line ∧
      (∃ vs, values env p = .ok vs ∧ (events env p).filter Event.isBinding = reports p vs) ∧
      evalStatements env p =
        .ok (.number x, env.bindAll ((events env p).filterMap Event.bound?)) ∧
      (events env p).filter Event.isFailure = []) ∧
    (∀ e, p.value env = .error e →
      (p = [] ∧ events env p = [.failure e] ∨
        ∃ done s rest vs ns, p = done ++ s :: rest ∧ values env done = .ok vs ∧
          s.expr.StopsAfter (env.bindAll (assigned done vs)) e ns ∧
          Event.visited (events env p) = (nodes done ++ ns).map Expr.line ∧
          (events env p).filter Event.isBinding = reports done vs) ∧
      evalStatements env p = .error e ∧
      (events env p).filter Event.isFailure = [.failure e] ∧
      (events env p).getLast? = some (.failure e)) := by
  by_cases hp : p = []
  · subst hp
    refine ⟨List.nil_prefix, ?_, ?_⟩
    · intro x hx
      cases hx
    · intro e he
      cases he
      exact ⟨Or.inl ⟨rfl, rfl⟩, rfl, rfl, rfl⟩
  cases hvs : values env p with
  | ok vs =>
    obtain ⟨v, hlast⟩ := exists_last_of_values hp hvs
    have hrun := evalStatements_of_values_ok hvs hlast
    obtain ⟨x, rfl⟩ : v.IsNumber := isNumber_of_evalStatements hrun
    obtain ⟨hvisited, hbound⟩ := record_of_ok hvs
    rw [value_of_evalStatements hrun, events_of_ok hrun, hvisited, hrun, filter_isFailure_record,
      ← Event.filterMap_bound?_filter, hbound, filterMap_bound?_reports]
    refine ⟨List.prefix_refl _, ?_, ?_⟩
    · intro y hy
      cases hy
      exact ⟨rfl, ⟨vs, rfl, rfl⟩, rfl, rfl⟩
    · intro e he
      cases he
  | error e =>
    have hrun := evalStatements_of_values_error hvs
    obtain ⟨done, s, rest, vs, ns, hsplit, hdone, hns, hvisited, hbound⟩ := record_of_error hvs
    rw [value_of_evalStatements_error hrun, events_of_error hrun, visited_failure, hvisited, hrun,
      filter_isBinding_failure, hbound, List.filter_append, filter_isFailure_record]
    refine ⟨?_, ?_, ?_⟩
    · rw [hsplit, nodes_append, nodes_cons]
      apply List.IsPrefix.map
      rw [List.prefix_append_right_inj]
      exact hns.prefix.trans (List.prefix_append _ _)
    · intro x hx
      cases hx
    · intro e' he
      cases he
      refine ⟨Or.inr ⟨done, s, rest, vs, ns, hsplit, hdone, hns, rfl, rfl⟩, rfl, rfl, ?_⟩
      rw [List.getLast?_append, List.getLast?_singleton]
      rfl

/-- `x = 1`, `x + z` fails at `z` in an empty environment, and `x = 1`, `x` leaves a binding. -/
theorem events_faithful_of_unbound :
    ((events .empty [.assignment "x" (.number 1 1) 1,
          .expression (.binary .add (.name "x" 2) (.name "z" 3) 2) 2]).filter Event.isFailure =
        [.failure (.unbound "z")] ∧
      (events .empty [.assignment "x" (.number 1 1) 1,
          .expression (.binary .add (.name "x" 2) (.name "z" 3) 2) 2]).getLast? =
        some (.failure (.unbound "z"))) ∧
    Event.visited (events .empty [.assignment "x" (.number 1 1) 1, .expression (.name "x" 2) 2]) =
        [1, 2] ∧
      evalStatements .empty [.assignment "x" (.number 1 1) 1, .expression (.name "x" 2) 2] =
        .ok (.number 1, Environment.empty.bind "x" (.number 1)) := by
  have hfails := (events_faithful .empty [.assignment "x" (.number 1 1) 1,
    .expression (.binary .add (.name "x" 2) (.name "z" 3) 2) 2]).2.2 (.unbound "z") rfl
  have hends := (events_faithful .empty [.assignment "x" (.number 1 1) 1,
    .expression (.name "x" 2) 2]).2.1 1 rfl
  exact ⟨hfails.2.2, hends.1, hends.2.2.1⟩

end Program
end ScalarScript
