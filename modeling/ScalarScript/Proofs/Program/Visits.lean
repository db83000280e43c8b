import ScalarScript.Proofs.Program.Values

/-!
# Visits of nodes

A node reports its line when its evaluation begins, before its operands are evaluated, so the lines
are those of the nodes in the order in which they are written. All nodes of an expression with a
value are visited. The evaluation of an expression without one stops at the first node that fails
itself, after the visits of what is below that node.
-/

namespace ScalarScript

namespace Event

/-- The line of a node whose evaluation begins. -/
def entered? : Event → Option Nat
  | enter line => some line
  | _ => none

/-- The lines of the nodes whose evaluation begins, in order. -/
def visited (events : List Event) : List Nat := events.filterMap entered?

theorem visited_append (es es' : List Event) : visited (es ++ es') = visited es ++ visited es' :=
  List.filterMap_append

/-- What a node reports of its operands. -/
def isStep : Event → Bool
  | operands .. | negation _ | call .. => true
  | _ => false

end Event

namespace Logged

variable {α β : Type}

theorem events_bind (x : Logged α) (f : α → Logged β) :
    (x >>= f).events =
      x.events ++
        match x.outcome with
        | .ok a => (f a).events
        | .error _ => [] := by
  cases h : x.outcome with
  | ok a => exact events_bind_ok h f
  | error e => rw [events_bind_error h, List.append_nil]

end Logged

namespace Expr

mutual

/-- The nodes of an expression, each in front of its operands, and these from left to right. -/
def nodes : Expr → List Expr
  | .number x n => [.number x n]
  | .name s n => [.name s n]
  | .negation e n => .negation e n :: e.nodes
  | .binary op l r n => .binary op l r n :: (l.nodes ++ r.nodes)
  | .call f es n => .call f es n :: nodesAll es

def nodesAll : List Expr → List Expr
  | [] => []
  | e :: es => e.nodes ++ nodesAll es

end

/-- What is evaluated below a node, in this order. -/
def operands : Expr → List Expr
  | .number _ _ | .name _ _ => []
  | .negation e _ => [e]
  | .binary _ l r _ => [l, r]
  | .call _ es _ => es

theorem nodes_eq (e : Expr) : e.nodes = e :: nodesAll e.operands := by
  cases e <;> simp [nodes, nodesAll, operands]

theorem nodesAll_append (es es' : List Expr) :
    nodesAll (es ++ es') = nodesAll es ++ nodesAll es' := by
  induction es with
  | nil => rfl
  | cons e es ih => rw [List.cons_append, nodesAll, nodesAll, ih, List.append_assoc]

theorem sizeOf_lt_of_mem_operands {e x : Expr} (h : x ∈ e.operands) : sizeOf x < sizeOf e := by
  cases e with
  | number y n => cases h
  | name s n => cases h
  | negation y n =>
    obtain rfl := List.mem_singleton.mp h
    simp
    omega
  | binary op l r n =>
    simp only [operands, List.mem_cons, List.not_mem_nil, or_false] at h
    rcases h with rfl | rfl
    · simp
      omega
    · simp
      omega
  | call f es n =>
    have := List.sizeOf_lt_of_mem (show x ∈ es from h)
    simp
    omega

/-- What holds of a node if it holds of all that is evaluated below it. -/
theorem induction_operands {P : Expr → Prop} (h : ∀ e, (∀ x ∈ e.operands, P x) → P e) (e : Expr) :
    P e :=
  h e fun x hx =>
    have := sizeOf_lt_of_mem_operands hx
    induction_operands h x
termination_by sizeOf e

variable {env : Environment}

def HasValue (env : Environment) (e : Expr) : Prop := ∃ v, e.eval env = .ok v

theorem evalAll_cons_eq_ok {x : Expr} {xs : List Expr} {vs : List Value}
    (h : evalAll env (x :: xs) = .ok vs) : x.HasValue env ∧ ∃ ws, evalAll env xs = .ok ws := by
  rw [evalAll_cons] at h
  obtain ⟨v, hv, hrest⟩ := Except.bind_eq_ok h
  obtain ⟨ws, hws, -⟩ := Except.bind_eq_ok hrest
  exact ⟨⟨v, hv⟩, ws, hws⟩

/-- Expressions that do not all have values fail at the first one or behind it. -/
theorem evalAll_cons_eq_error {x : Expr} {xs : List Expr} {e : EvalError}
    (h : evalAll env (x :: xs) = .error e) :
    x.eval env = .error e ∨ ∃ v, x.eval env = .ok v ∧ evalAll env xs = .error e := by
  rw [evalAll_cons] at h
  rcases Except.bind_eq_error h with hx | ⟨v, hv, hrest⟩
  · exact Or.inl hx
  · rcases Except.bind_eq_error hrest with hxs | ⟨vs, -, hall⟩
    · exact Or.inr ⟨v, hv, hxs⟩
    · cases hall

/-- A node fails if something below it does. -/
theorem eval_eq_error {n : Expr} {e : EvalError} (h : evalAll env n.operands = .error e) :
    n.eval env = .error e := by
  cases n with
  | number x k => cases h
  | name s k => cases h
  | negation x k =>
    rcases evalAll_cons_eq_error h with hx | ⟨v, -, hnone⟩
    · rw [eval_negation, hx, Except.error_bind]
    · cases hnone
  | binary op l r k =>
    rcases evalAll_cons_eq_error h with hl | ⟨v, hl, hright⟩
    · rw [eval_binary, hl, Except.error_bind]
    · rcases evalAll_cons_eq_error hright with hr | ⟨w, -, hnone⟩
      · rw [eval_binary, hl, hr, Except.ok_bind, Except.error_bind]
      · cases hnone
  | call f es k =>
    rw [operands] at h
    rw [eval_call, h, Except.error_bind]

theorem events_loggedAll_cons (e : Expr) (es : List Expr) :
    (loggedAll env (e :: es)).events =
      (e.logged env).events ++
        match e.eval env with
        | .ok _ => (loggedAll env es).events
        | .error _ => [] := by
  rw [loggedAll, Logged.events_bind, eval]
  congr 1
  cases (e.logged env).outcome with
  | error err => rfl
  | ok v =>
    show (loggedAll env es >>= _).events = _
    rw [Logged.events_bind]
    cases (loggedAll env es).outcome <;> exact List.append_nil _

theorem events_loggedAll_single (e : Expr) :
    (loggedAll env [e]).events = (e.logged env).events := by
  rw [events_loggedAll_cons]
  cases e.eval env <;> exact List.append_nil _

/-- A node is entered, then its operands are evaluated, and what it reports of them comes last. -/
theorem events_logged (env : Environment) (e : Expr) :
    ∃ steps, (∀ event ∈ steps, event.isStep = true) ∧
      (e.logged env).events = .enter e.line :: ((loggedAll env e.operands).events ++ steps) := by
  cases e with
  | number x n => exact ⟨[], by simp, rfl⟩
  | name s n => exact ⟨[], by simp, rfl⟩
  | negation x n =>
    rw [operands, events_loggedAll_single]
    cases hx : (x.logged env).outcome with
    | error e => exact ⟨[], by simp, by simp [logged, line, Logged.events_bind, hx]⟩
    | ok v =>
      cases v with
      | number y =>
        exact ⟨[.negation y], by simp [Event.isStep],
          by simp [logged, line, Logged.events_bind, hx, Value.asNumber]⟩
      | error e =>
        exact ⟨[], by simp, by simp [logged, line, Logged.events_bind, hx, Value.asNumber]⟩
  | binary op l r n =>
    rw [operands, events_loggedAll_cons, events_loggedAll_single, eval]
    cases hl : (l.logged env).outcome with
    | error e => exact ⟨[], by simp, by simp [logged, line, Logged.events_bind, hl]⟩
    | ok v =>
      cases hr : (r.logged env).outcome with
      | error e => exact ⟨[], by simp, by simp [logged, line, Logged.events_bind, hl, hr]⟩
      | ok w =>
        exact ⟨[.operands v op w], by simp [Event.isStep],
          by simp [logged, line, Logged.events_bind, hl, hr]⟩
  | call g es n =>
    rw [operands]
    cases hes : (loggedAll env es).outcome with
    | error e => exact ⟨[], by simp, by simp [logged, line, Logged.events_bind, hes]⟩
    | ok vs =>
      exact ⟨[.call g vs.length n], by simp [Event.isStep],
        by simp [logged, line, Logged.events_bind, hes]⟩

theorem visited_logged (e : Expr) :
    Event.visited (e.logged env).events =
      e.line :: Event.visited (loggedAll env e.operands).events := by
  obtain ⟨steps, hsteps, heq⟩ := e.events_logged env
  have hnone : Event.visited steps = [] := by
    apply List.filterMap_eq_nil_iff.mpr
    intro event hevent
    have := hsteps event hevent
    cases event <;> first | rfl | cases this
  rw [heq]
  show e.line :: Event.visited (_ ++ steps) = _
  rw [Event.visited_append, hnone, List.append_nil]

theorem visited_loggedAll_cons (e : Expr) (es : List Expr) :
    Event.visited (loggedAll env (e :: es)).events =
      Event.visited (e.logged env).events ++
        match e.eval env with
        | .ok _ => Event.visited (loggedAll env es).events
        | .error _ => [] := by
  rw [events_loggedAll_cons, Event.visited_append]
  cases e.eval env <;> rfl

theorem hasValue_of_evalAll {es : List Expr} {vs : List Value} (h : evalAll env es = .ok vs) :
    ∀ x ∈ es, x.HasValue env := by
  induction es generalizing vs with
  | nil => simp
  | cons e es ih =>
    obtain ⟨he, ws, hes⟩ := evalAll_cons_eq_ok h
    exact List.forall_mem_cons.mpr ⟨he, ih hes⟩

theorem visited_loggedAll_of_ok {es : List Expr} {vs : List Value}
    (hvisited : ∀ x ∈ es, x.HasValue env → Event.visited (x.logged env).events = x.nodes.map line)
    (h : evalAll env es = .ok vs) :
    Event.visited (loggedAll env es).events = (nodesAll es).map line := by
  induction es generalizing vs with
  | nil => rfl
  | cons e es ih =>
    obtain ⟨⟨v, he⟩, ws, hes⟩ := evalAll_cons_eq_ok h
    obtain ⟨hfirst, hrest⟩ := List.forall_mem_cons.mp hvisited
    rw [visited_loggedAll_cons, hfirst ⟨v, he⟩, he, nodesAll, List.map_append, ← ih hrest hes]

/-- An expression with a value has been visited at each node. -/
theorem visited_of_hasValue (e : Expr) :
    e.HasValue env → Event.visited (e.logged env).events = e.nodes.map line := by
  induction e using induction_operands with
  | h e ih =>
    rintro ⟨v, hv⟩
    rw [visited_logged, nodes_eq, List.map_cons]
    cases hes : evalAll env e.operands with
    | error err =>
      rw [eval_eq_error hes] at hv
      cases hv
    | ok vs => rw [visited_loggedAll_of_ok ih hes]

/-- The evaluation fails with `err` and visits the given nodes. They end with a node that fails
itself, all that is evaluated below it having values, and with what is below it. -/
inductive StopsAfter (env : Environment) (err : EvalError) : Expr → List Expr → Prop
  | here {n} : (∀ x ∈ n.operands, x.HasValue env) → n.eval env = .error err →
      StopsAfter env err n n.nodes
  | operand {n before x after visited} : n.operands = before ++ x :: after →
      (∀ y ∈ before, y.HasValue env) → StopsAfter env err x visited →
      StopsAfter env err n (n :: (nodesAll before ++ visited))

theorem StopsAfter.prefix {err : EvalError} {n : Expr} {visited : List Expr}
    (h : StopsAfter env err n visited) : visited <+: n.nodes := by
  induction h with
  | here => exact List.prefix_refl _
  | @operand n before x after visited hn _ _ ih =>
    rw [nodes_eq n, hn, nodesAll_append, nodesAll, List.prefix_cons_inj,
      List.prefix_append_right_inj]
    exact ih.trans (List.prefix_append _ _)

theorem visited_loggedAll_of_error {es : List Expr} {err : EvalError}
    (hstops : ∀ x ∈ es, x.eval env = .error err →
      ∃ ns, StopsAfter env err x ns ∧ Event.visited (x.logged env).events = ns.map line)
    (h : evalAll env es = .error err) :
    ∃ before x after ns, es = before ++ x :: after ∧ (∀ y ∈ before, y.HasValue env) ∧
      StopsAfter env err x ns ∧
      Event.visited (loggedAll env es).events = (nodesAll before ++ ns).map line := by
  induction es with
  | nil => cases h
  | cons e es ih =>
    obtain ⟨hfirst, hrest⟩ := List.forall_mem_cons.mp hstops
    rw [visited_loggedAll_cons]
    rcases evalAll_cons_eq_error h with he | ⟨v, he, hes⟩
    · obtain ⟨ns, hns, hvisited⟩ := hfirst he
      exact ⟨[], e, es, ns, rfl, by simp, hns, by simp [he, hvisited, nodesAll]⟩
    · obtain ⟨before, x, after, ns, rfl, hbefore, hns, hvisited⟩ := ih hrest hes
      have hvalues := List.forall_mem_cons.mpr ⟨⟨v, he⟩, hbefore⟩
      refine ⟨e :: before, x, after, ns, rfl, hvalues, hns, ?_⟩
      rw [he, visited_of_hasValue e ⟨v, he⟩, nodesAll, List.append_assoc, List.map_append,
        ← hvisited]

/-- An expression that fails has been visited up to the node that fails first, which is itself or in
one of its operands. -/
theorem visited_of_error {err : EvalError} (e : Expr) :
    e.eval env = .error err →
      ∃ ns, StopsAfter env err e ns ∧ Event.visited (e.logged env).events = ns.map line := by
  induction e using induction_operands with
  | h e ih =>
    intro he
    rw [visited_logged]
    cases hes : evalAll env e.operands with
    | ok vs =>
      refine ⟨e.nodes, .here (hasValue_of_evalAll hes) he, ?_⟩
      rw [nodes_eq, List.map_cons,
        visited_loggedAll_of_ok (fun x _ => visited_of_hasValue x) hes]
    | error err' =>
      obtain rfl : err' = err := Except.error.inj ((eval_eq_error hes).symm.trans he)
      obtain ⟨before, x, after, ns, heq, hbefore, hns, hvisited⟩ :=
        visited_loggedAll_of_error ih hes
      exact ⟨_, .operand heq hbefore hns, by rw [hvisited, List.map_cons]⟩

end Expr
end ScalarScript
