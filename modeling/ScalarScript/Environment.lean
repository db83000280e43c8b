import ScalarScript.Value

/-!
# Environments

An environment is the list of bindings made so far, the newest in front. Binding never changes an
environment but makes a longer one, so environments share their older bindings and an older
binding of the same name is hidden, not lost.
-/

namespace ScalarScript

structure Environment where
  bindings : List (String × Value)
  deriving DecidableEq

namespace Environment

def empty : Environment := ⟨[]⟩

def bind (env : Environment) (name : String) (value : Value) : Environment :=
  ⟨(name, value) :: env.bindings⟩

def find? (env : Environment) (name : String) : Option Value := env.bindings.lookup name

def lookup (env : Environment) (name : String) : Except EvalError Value :=
  match env.find? name with
  | some v => .ok v
  | none => .error (.unbound name)

def contains (env : Environment) (name : String) : Bool := (env.find? name).isSome

/-- The number of bindings, hidden ones included. -/
def length (env : Environment) : Nat := env.bindings.length

def isEmpty (env : Environment) : Bool := env.bindings.isEmpty

/-- The bound names, each once, by their newest bindings. -/
def names (env : Environment) : List String := (env.bindings.map Prod.fst).eraseDups

@[simp] theorem find?_empty (name : String) : empty.find? name = none := rfl

theorem find?_bind (env : Environment) (name other : String) (v : Value) :
    (env.bind name v).find? other = if other = name then some v else env.find? other := by
  by_cases h : other = name
  · simp [find?, bind, h]
  · simp [find?, bind, List.lookup_cons, h, beq_false_of_ne h]

@[simp] theorem length_bind (env : Environment) (name : String) (v : Value) :
    (env.bind name v).length = env.length + 1 := rfl

end Environment
end ScalarScript
