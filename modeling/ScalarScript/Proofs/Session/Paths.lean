import ScalarScript.Proofs.Session.Answers

/-!
# Paths of environments

Each environment of a session has a path, the pairs that were bound on the way to it, in order. An
operation gives the new environment the path of the one it starts from with what it binds itself,
and leaves all other paths alone. Every environment is the one that the pairs of its path make.
-/

namespace ScalarScript

/-- The pairs along the path of each environment, in the order in which they were bound. -/
abbrev Paths := List (List (String × Value))

namespace Paths

/-- The path of a number, which is empty for the numbers not yet given out. -/
def path (paths : Paths) (i : Nat) : List (String × Value) := paths[i]?.getD []

/-- A run adds a path if each of its statements has a value, and there is one. -/
def step (paths : Paths) : Operation → Paths
  | .create => paths ++ [[]]
  | .clone i => paths ++ [paths.path i]
  | .bind i x v => paths ++ [paths.path i ++ [(x, v)]]
  | .exec i p =>
    match Program.values (Environment.empty.bindAll (paths.path i)) p with
    | .ok (v :: vs) => paths ++ [paths.path i ++ Program.assigned p (v :: vs)]
    | _ => paths
  | .lookup _ _ => paths
  | .drop i => paths.set i []

def ofOperations (ops : List Operation) : Paths := ops.foldl step [[]]

end Paths

namespace Pool

/-- Each environment is the one that the pairs of its path make. -/
def Follows (pool : Pool) (paths : Paths) : Prop :=
  pool.environments.toList = paths.map Environment.empty.bindAll

variable {pool : Pool} {paths : Paths}

theorem Follows.get (h : pool.Follows paths) (i : Nat) :
    pool.get i = Environment.empty.bindAll (paths.path i) := by
  have hget : pool.environments[i]? = paths[i]?.map Environment.empty.bindAll := by
    rw [← Array.getElem?_toList, h, List.getElem?_map]
  rw [Pool.get, hget, Paths.path]
  cases paths[i]? <;> rfl

theorem Follows.next (h : pool.Follows paths) : pool.next = paths.length := by
  rw [Pool.next, ← Array.length_toList, h, List.length_map]

theorem Follows.add (h : pool.Follows paths) (bs : List (String × Value)) :
    (pool.add (Environment.empty.bindAll bs)).Follows (paths ++ [bs]) := by
  show (pool.environments.push _).toList = _
  rw [Array.toList_push, h, List.map_append]
  rfl

theorem Follows.drop (h : pool.Follows paths) (i : Nat) :
    (pool.drop i).Follows (paths.set i []) := by
  show (pool.environments.setIfInBounds i _).toList = _
  rw [Array.toList_setIfInBounds, h, List.map_set]
  rfl

/-- What a run adds is told by the values of the statements. -/
theorem afterExec_eq (pool : Pool) (i : Nat) (p : Program) :
    pool.afterExec i p =
      match Program.values (pool.get i) p with
      | .ok (v :: vs) => pool.add ((pool.get i).bindAll (Program.assigned p (v :: vs)))
      | _ => pool := by
  unfold afterExec exec
  cases hvs : Program.values (pool.get i) p with
  | error e => rw [Program.evalStatements_of_values_error hvs]; rfl
  | ok vs =>
    cases vs with
    | nil =>
      rw [Program.evalStatements_eq, hvs]
      rfl
    | cons v vs =>
      obtain ⟨w, hlast⟩ : ∃ w, (v :: vs).getLast? = some w :=
        ⟨_, List.getLast?_eq_some_getLast (List.cons_ne_nil v vs)⟩
      rw [Program.evalStatements_of_values_ok hvs hlast]
      rfl

theorem Follows.step (h : pool.Follows paths) (op : Operation) :
    (pool.step op).Follows (paths.step op) := by
  cases op with
  | create => exact h.add []
  | clone i =>
    show (pool.add (pool.get i)).Follows _
    rw [h.get]
    exact h.add _
  | bind i x v =>
    show (pool.add ((pool.get i).bind x v)).Follows _
    rw [h.get]
    have := h.add (paths.path i ++ [(x, v)])
    rwa [Environment.bindAll_append] at this
  | exec i p =>
    show (pool.afterExec i p).Follows
      (match Program.values (Environment.empty.bindAll (paths.path i)) p with
        | .ok (v :: vs) => paths ++ [paths.path i ++ Program.assigned p (v :: vs)]
        | _ => paths)
    rw [afterExec_eq, h.get]
    cases Program.values (Environment.empty.bindAll (paths.path i)) p with
    | error e => exact h
    | ok vs =>
      cases vs with
      | nil => exact h
      | cons v vs =>
        show (pool.add ((Environment.empty.bindAll _).bindAll _)).Follows _
        rw [← Environment.bindAll_append]
        exact h.add _
  | lookup i x => exact h
  | drop i => exact h.drop i

theorem follows_run (ops : List Operation) : (run ops).Follows (Paths.ofOperations ops) := by
  have hsteps : ∀ (pool : Pool) (paths : Paths), pool.Follows paths →
      (ops.foldl Pool.step pool).Follows (ops.foldl Paths.step paths) := by
    induction ops with
    | nil => exact fun _ _ h => h
    | cons op ops ih => exact fun _ _ h => ih _ _ (h.step op)
  exact hsteps initial [[]] rfl

/-- An operation changes no environment but the one it drops. -/
theorem get_step {op : Operation} {i : Nat} (hi : i < pool.next) (hop : op ≠ .drop i) :
    (pool.step op).get i = pool.get i := by
  cases op with
  | create | clone | bind => exact get_add hi _
  | exec j p =>
    show (pool.afterExec j p).get i = _
    rw [afterExec_eq]
    split
    · exact get_add hi _
    · rfl
  | lookup => rfl
  | drop j => exact get_drop fun hji => hop (hji ▸ rfl)

end Pool
end ScalarScript
