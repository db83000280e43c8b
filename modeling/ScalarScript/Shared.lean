import ScalarScript.Session

/-!
# Shared bindings

A session keeps each binding once. A binding is a link on top of an older one, environments and
newer links point to it, and it counts how many do. A clone of an environment is one more owner of
its newest link, a new binding owns the link it is on, and the end of an environment frees its links
from the newest on, down to the first that has another owner. The number of bindings is kept beside
the newest link, so that no chain is followed to count them.

`Pool` says what all this means: there an environment is the list of its bindings.
-/

namespace ScalarScript

/-- A binding, the older one that it is on, and the number of environments and links that point to
it. -/
structure Link where
  name : String
  value : Value
  parent : Option Nat
  owners : Nat

/-- The links by their numbers. A freed one leaves a gap. -/
abbrev Store := List (Option Link)

/-- An environment: its newest link and the number of its bindings. -/
structure Handle where
  head : Option Nat
  length : Nat

def Handle.empty : Handle := ⟨none, 0⟩

namespace Store

def link? (store : Store) (a : Nat) : Option Link := store[a]?.join

theorem getElem?_of_link? {store : Store} {a : Nat} {l : Link} (h : store.link? a = some l) :
    store[a]? = some (some l) :=
  Option.join_eq_some_iff.mp h

theorem lt_of_link? {store : Store} {a : Nat} {l : Link} (h : store.link? a = some l) :
    a < store.length :=
  (List.getElem?_eq_some_iff.mp (getElem?_of_link? h)).1

/-- The bindings of a chain, the newest in front. A link is on an older one, so the rest of its
chain is among the links before it. -/
def chain (store : Store) : Option Nat → List (String × Value)
  | none => []
  | some a =>
    match _found : store.link? a with
    | none => []
    | some l => (l.name, l.value) :: chain (store.take a) l.parent
termination_by store.length
decreasing_by
  have := lt_of_link? _found
  rw [List.length_take]
  omega

def setOwners (store : Store) (a : Nat) (l : Link) (n : Nat) : Store :=
  store.set a (some { l with owners := n })

/-- One more owner. -/
def retain (store : Store) : Option Nat → Store
  | none => store
  | some a =>
    match store.link? a with
    | none => store
    | some l => store.setOwners a l (l.owners + 1)

/-- The links that are in use. -/
def used (store : Store) : Nat := store.countP Option.isSome

theorem used_free_lt {store : Store} {a : Nat} {l : Link} (h : store.link? a = some l) :
    used (store.set a none) < store.used := by
  have hlt := lt_of_link? h
  have hget : store[a] = some l := (List.getElem?_eq_some_iff.mp (getElem?_of_link? h)).2
  have hpos : 0 < store.countP Option.isSome :=
    List.countP_pos_iff.mpr ⟨some l, hget ▸ List.getElem_mem hlt, rfl⟩
  simp only [used]
  rw [List.countP_set hlt, hget]
  simp only [Option.isSome_some, Option.isSome_none, Bool.false_eq_true, if_true, if_false]
  omega

/-- One owner less. A link that only this one owned is freed, and then its parent is released. -/
def release (store : Store) : Option Nat → Store
  | none => store
  | some a =>
    match _found : store.link? a with
    | none => store
    | some l =>
      if l.owners = 1 then release (store.set a none) l.parent
      else store.setOwners a l (l.owners - 1)
termination_by store.used
decreasing_by exact used_free_lt _found

/-- What the evaluation of an expression sees of an environment. -/
def view (store : Store) (env : Handle) : Environment := ⟨store.chain env.head⟩

def clone (store : Store) (env : Handle) : Store × Handle := (store.retain env.head, env)

def drop (store : Store) (env : Handle) : Store := store.release env.head

/-- The new link is one more owner of the newest link so far. -/
def bind (store : Store) (env : Handle) (name : String) (value : Value) : Store × Handle :=
  let kept := store.retain env.head
  (kept ++ [some ⟨name, value, env.head, 1⟩], ⟨some kept.length, env.length + 1⟩)

/-- The value of a statement, and the environment for the statements behind it. -/
def execStatement (store : Store) (env : Handle) : Statement →
    Except EvalError (Value × Store × Handle)
  | .assignment x e _ => (e.eval (store.view env)).map fun v => (v, store.bind env x v)
  | .expression e _ => (e.eval (store.view env)).map fun v => (v, store.clone env)

def execFrom (store : Store) (env : Handle) (last : Option Value) :
    Program → Store × Except EvalError (Value × Handle)
  | [] =>
    match last with
    | some v => (store, .ok (v, env))
    | none => (store.drop env, .error .emptyProgram)
  | s :: p =>
    match store.execStatement env s with
    | .error e => (store.drop env, .error e)
    | .ok (v, store', env') => execFrom (store'.drop env) env' (some v) p

/-- Runs statements in a clone of the environment. The clone is replaced behind each statement and
dropped when one fails. -/
def exec (store : Store) (env : Handle) (p : Program) :
    Store × Except EvalError (Value × Handle) :=
  let (store', env') := store.clone env
  execFrom store' env' none p

def lookup (store : Store) (env : Handle) (name : String) : Except EvalError Value :=
  match (store.chain env.head).find? (·.1 == name) with
  | some b => .ok b.2
  | none => .error (.unbound name)

def contains (store : Store) (env : Handle) (name : String) : Bool :=
  (store.chain env.head).any (·.1 == name)

/-- The names that have not been seen before. -/
def unseen (seen : List String) : List String → List String
  | [] => []
  | x :: xs => if x ∈ seen then unseen seen xs else x :: unseen (x :: seen) xs

def names (store : Store) (env : Handle) : List String :=
  unseen [] ((store.chain env.head).map Prod.fst)

def answers (store : Store) (env : Handle) : Answers where
  length := env.length
  isEmpty := env.length == 0
  lookup := store.lookup env
  contains := store.contains env
  names := store.names env

end Store

structure Session where
  store : Store
  handles : List Handle

namespace Session

def initial : Session := ⟨[], [.empty]⟩

/-- The environment of a number, as `Pool.get` has it. -/
def get (session : Session) (i : Nat) : Handle := session.handles[i]?.getD .empty

def add (session : Session) (made : Store × Handle) : Session :=
  ⟨made.1, session.handles ++ [made.2]⟩

/-- The session behind a run, which adds an environment if it succeeds. -/
def afterExec (session : Session) : Store × Except EvalError (Value × Handle) → Session
  | (store, .ok (_, env)) => session.add (store, env)
  | (store, .error _) => { session with store := store }

def step (session : Session) : Operation → Session
  | .create => session.add (session.store, .empty)
  | .clone i => session.add (session.store.clone (session.get i))
  | .bind i x v => session.add (session.store.bind (session.get i) x v)
  | .exec i p => session.afterExec (session.store.exec (session.get i) p)
  | .lookup _ _ => session
  | .drop i => ⟨session.store.drop (session.get i), session.handles.set i .empty⟩

def run (ops : List Operation) : Session := ops.foldl step initial

def answers (session : Session) (i : Nat) : Answers := session.store.answers (session.get i)

end Session
end ScalarScript
