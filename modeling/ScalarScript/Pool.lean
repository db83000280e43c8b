import ScalarScript.Evaluation

/-!
# Pools of environments

A session works on several environments at once, numbered in the order they were made. An
operation that makes an environment leaves all others as they are; dropping one leaves an empty
environment in its place, so that the numbers of the others do not change.
-/

namespace ScalarScript

structure Pool where
  environments : Array Environment

namespace Pool

/-- A session starts with one empty environment. -/
def initial : Pool := ⟨#[.empty]⟩

/-- The environment of a number; the numbers not yet given out stand for empty ones. -/
def get (pool : Pool) (i : Nat) : Environment := pool.environments[i]?.getD .empty

/-- The number that the next environment gets. -/
def next (pool : Pool) : Nat := pool.environments.size

def add (pool : Pool) (env : Environment) : Pool := ⟨pool.environments.push env⟩

def drop (pool : Pool) (i : Nat) : Pool := ⟨pool.environments.setIfInBounds i .empty⟩

/-- Makes a copy of an environment with one more binding. -/
def bind (pool : Pool) (i : Nat) (name : String) (value : Value) : Pool :=
  pool.add ((pool.get i).bind name value)

/-- Runs statements in an environment; if they succeed, the one they lead to is added. -/
def exec (pool : Pool) (i : Nat) (p : Program) : Except EvalError (Value × Pool) :=
  (p.evalStatements (pool.get i)).map fun (v, env) => (v, pool.add env)

theorem get_add {pool : Pool} {i : Nat} (h : i < pool.next) (env : Environment) :
    (pool.add env).get i = pool.get i := by
  simp only [get, add, next] at *
  simp [Array.getElem?_push_lt h, h]

theorem get_drop {pool : Pool} {i j : Nat} (h : i ≠ j) : (pool.drop i).get j = pool.get j := by
  simp [get, drop, Array.getElem?_setIfInBounds_ne h]

end Pool
end ScalarScript
