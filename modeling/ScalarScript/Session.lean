import ScalarScript.Pool

/-!
# Sessions

What can be asked of a pool of environments, in any order. Questions change nothing, and a run that
fails adds nothing.
-/

namespace ScalarScript

/-- One step of a session; environments go by their numbers. -/
inductive Operation where
  | create
  | clone (i : Nat)
  | bind (i : Nat) (name : String) (value : Value)
  | exec (i : Nat) (p : Program)
  | lookup (i : Nat) (name : String)
  | drop (i : Nat)

/-- Everything that can be asked of an environment. -/
structure Answers where
  length : Nat
  isEmpty : Bool
  lookup : String → Except EvalError Value
  contains : String → Bool
  names : List String

def Environment.answers (env : Environment) : Answers :=
  ⟨env.length, env.isEmpty, env.lookup, env.contains, env.names⟩

namespace Pool

/-- The pool behind a run, which adds an environment if it succeeds. -/
def afterExec (pool : Pool) (i : Nat) (p : Program) : Pool :=
  match pool.exec i p with
  | .ok (_, pool') => pool'
  | .error _ => pool

def step (pool : Pool) : Operation → Pool
  | .create => pool.add .empty
  | .clone i => pool.add (pool.get i)
  | .bind i x v => pool.bind i x v
  | .exec i p => pool.afterExec i p
  | .lookup _ _ => pool
  | .drop i => pool.drop i

def run (ops : List Operation) : Pool := ops.foldl step initial

end Pool
end ScalarScript
