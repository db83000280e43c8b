import Mathlib.Data.List.Perm.Basic
import ScalarScript.Proofs.Session.Sharing

/-!
# Independent environments

Whatever is asked of a session in whatever order, each environment answers as the pairs along its
own path. Environments share bindings, and an operation on one of them changes the owners of links
that others show, but no answer of another: a link is only freed when nothing is left that shows it.
-/

namespace ScalarScript

theorem Pool.get_add_eq (pool : Pool) (env : Environment) (i : Nat) :
    (pool.add env).get i = if i = pool.next then env else pool.get i := by
  rw [Pool.get, Pool.add, Pool.next, Array.getElem?_push, Pool.get]
  by_cases hi : i = pool.environments.size
  · rw [if_pos hi, if_pos hi]
    rfl
  · rw [if_neg hi, if_neg hi]

theorem Pool.get_drop_self (pool : Pool) (i : Nat) : (pool.drop i).get i = .empty := by
  rw [Pool.get, Pool.drop, Array.getElem?_setIfInBounds_self]
  split <;> rfl

namespace Session

open Store

/-- What owns links: the environments, and for the numbers not yet given out an empty one. -/
def roots (session : Session) : List (Option Nat) := none :: session.handles.map Handle.head

/-- The session shows the environments of the pool. -/
structure Shows (session : Session) (pool : Pool) : Prop where
  owned : session.store.Owned session.roots
  length : session.handles.length = pool.next
  stands : ∀ i, session.store.Stands (session.get i) (pool.get i)

variable {session : Session} {pool : Pool} {env₀ : Environment}

theorem head_get_mem_roots (session : Session) (i : Nat) :
    (session.get i).head ∈ session.roots := by
  rw [get]
  cases h : session.handles[i]? with
  | none => exact List.mem_cons_self
  | some env => exact List.mem_cons_of_mem _ (List.mem_map_of_mem (List.mem_of_getElem? h))

theorem get_add (session : Session) (made : Store × Handle) (i : Nat) :
    (session.add made).get i = if i = session.handles.length then made.2 else session.get i := by
  rw [get, add]
  rcases Nat.lt_trichotomy i session.handles.length with hlt | rfl | hgt
  · rw [if_neg (Nat.ne_of_lt hlt), List.getElem?_append_left hlt, get]
  · rw [if_pos rfl, List.getElem?_append_right (Nat.le_refl _), Nat.sub_self]
    rfl
  · rw [if_neg (Nat.ne_of_gt hgt), get, List.getElem?_eq_none (by simp; omega),
      List.getElem?_eq_none (Nat.le_of_lt hgt)]

theorem Shows.add (h : session.Shows pool) {made : Store × Handle}
    (hmade : session.store.Makes session.roots made env₀) :
    (session.add made).Shows (pool.add env₀) where
  owned := by
    apply hmade.owned.perm
    show (made.2.head :: none :: _).Perm (none :: (session.handles ++ [made.2]).map Handle.head)
    rw [List.map_append]
    exact (List.Perm.swap _ _ _).trans ((List.perm_append_singleton _ _).symm.cons none)
  length := by
    show (session.handles ++ [made.2]).length = (pool.environments.push env₀).size
    rw [List.length_append, Array.size_push, h.length]
    rfl
  stands i := by
    rw [get_add, Pool.get_add_eq, h.length]
    split
    · exact hmade.stands
    · exact (h.stands i).kept hmade.keeps (head_get_mem_roots session i)

/-- The dropped environment is one more root than those that are left. -/
theorem Shows.owned_set (h : session.Shows pool) (i : Nat) :
    session.store.Owned
      ((session.get i).head :: roots ⟨session.store, session.handles.set i .empty⟩) := by
  rcases Nat.lt_or_ge i session.handles.length with hlt | hge
  · have hget : session.get i = session.handles[i] := by
      rw [get, List.getElem?_eq_getElem hlt]
      rfl
    have hold : session.handles.Perm (session.get i :: session.handles.eraseIdx i) :=
      hget ▸ (List.getElem_cons_eraseIdx_perm hlt).symm
    have hnew := List.set_perm_cons_eraseIdx hlt Handle.empty
    have hroots : session.roots.Perm
        ((session.get i).head :: none :: (session.handles.eraseIdx i).map Handle.head) :=
      ((hold.map Handle.head).cons none).trans (List.Perm.swap _ _ _)
    have howned := owned_cons_none.mpr (h.owned.perm hroots)
    apply howned.perm
    refine (List.Perm.swap _ _ _).trans (List.Perm.cons _ ?_)
    exact ((hnew.map Handle.head).cons none).symm
  · have hget : session.get i = .empty := by
      rw [get, List.getElem?_eq_none hge]
      rfl
    rw [hget, List.set_eq_of_length_le hge]
    exact owned_cons_none.mpr h.owned

theorem Shows.drop (h : session.Shows pool) (i : Nat) :
    (session.step (.drop i)).Shows (pool.drop i) := by
  obtain ⟨howned, hkeeps⟩ := (h.owned_set i).release
  refine ⟨howned, ?_, ?_⟩
  · show (session.handles.set i _).length = (pool.environments.setIfInBounds i _).size
    rw [List.length_set, Array.size_setIfInBounds, h.length]
    rfl
  · intro j
    by_cases hij : i = j
    · subst hij
      have hget : (session.step (.drop i)).get i = .empty := by
        rw [get]
        show ((session.handles.set i .empty)[i]?).getD .empty = .empty
        rw [List.getElem?_set_self']
        cases session.handles[i]? <;> rfl
      rw [hget, Pool.get_drop_self]
      exact stands_empty _
    · have hget : (session.step (.drop i)).get j = session.get j := by
        show ((session.handles.set i .empty)[j]?).getD .empty = _
        rw [List.getElem?_set_ne hij, get]
      have hroot := head_get_mem_roots ⟨session.store, session.handles.set i .empty⟩ j
      rw [hget, Pool.get_drop hij]
      exact (h.stands j).kept hkeeps (hget ▸ hroot)

theorem Shows.exec (h : session.Shows pool) (i : Nat) (p : Program) :
    (session.step (.exec i p)).Shows (pool.step (.exec i p)) := by
  have hruns := runs_exec h.owned (head_get_mem_roots session i) (h.stands i) p
  show (session.afterExec (session.store.exec (session.get i) p)).Shows (pool.afterExec i p)
  unfold Pool.afterExec Pool.exec
  generalize p.evalStatements (pool.get i) = r at hruns
  generalize session.store.exec (session.get i) p = out at hruns
  cases hruns with
  | ok hmade => exact h.add hmade
  | error howned hkeeps =>
    exact ⟨howned, h.length, fun j => (h.stands j).kept hkeeps (head_get_mem_roots session j)⟩

theorem Shows.step (h : session.Shows pool) (op : Operation) :
    (session.step op).Shows (pool.step op) := by
  cases op with
  | create =>
    exact h.add ⟨owned_cons_none.mpr h.owned, stands_empty _, fun _ _ => rfl⟩
  | clone i => exact h.add (makes_clone h.owned (head_get_mem_roots session i) (h.stands i))
  | bind i x v => exact h.add (makes_bind h.owned (head_get_mem_roots session i) (h.stands i) x v)
  | exec i p => exact h.exec i p
  | lookup i x => exact h
  | drop i => exact h.drop i

theorem shows_run (ops : List Operation) : (run ops).Shows (Pool.run ops) := by
  have hinitial : initial.Shows Pool.initial := by
    refine ⟨owned_cons_none.mpr (owned_cons_none.mpr owned_nil), rfl, ?_⟩
    intro i
    cases i with
    | zero => exact stands_empty []
    | succ i => exact stands_empty []
  have hsteps : ∀ (session : Session) (pool : Pool), session.Shows pool →
      (ops.foldl Session.step session).Shows (ops.foldl Pool.step pool) := by
    induction ops with
    | nil => exact fun _ _ h => h
    | cons op ops ih => exact fun _ _ h => ih _ _ (h.step op)
  exact hsteps _ _ hinitial

theorem answers_run (ops : List Operation) (i : Nat) :
    (run ops).answers i = ((Pool.run ops).get i).answers :=
  ((shows_run ops).stands i).answers

/-- Each environment answers as the pairs along its path, and no operation but its own end changes
an answer of an environment. -/
theorem run_answers (ops : List Operation) :
    ((run ops).handles.length = (Paths.ofOperations ops).length ∧
      (Pool.run ops).next = (Paths.ofOperations ops).length) ∧
    (∀ i bs, (Paths.ofOperations ops)[i]? = some bs →
      ((run ops).answers i).Of bs ∧ ((Pool.run ops).get i).answers.Of bs) ∧
    ∀ op i, i < (Paths.ofOperations ops).length → op ≠ .drop i →
      (run (ops ++ [op])).answers i = (run ops).answers i ∧
        (Pool.run (ops ++ [op])).get i = (Pool.run ops).get i := by
  have hnext := (Pool.follows_run ops).next
  refine ⟨⟨(shows_run ops).length.trans hnext, hnext⟩, ?_, ?_⟩
  · intro i bs hbs
    have hget : (Pool.run ops).get i = Environment.empty.bindAll bs := by
      rw [(Pool.follows_run ops).get, Paths.path, hbs]
      rfl
    rw [answers_run, hget]
    exact ⟨Environment.answers_bindAll bs, Environment.answers_bindAll bs⟩
  · intro op i hi hop
    have hget : (Pool.run (ops ++ [op])).get i = (Pool.run ops).get i := by
      rw [Pool.run, List.foldl_append]
      exact Pool.get_step (hnext ▸ hi) hop
    rw [answers_run, answers_run, hget]
    exact ⟨rfl, rfl⟩

/-- Two bindings of `x`, a clone of the second environment and a run in it; then that is dropped. -/
theorem run_answers_after_drop :
    ((run [.bind 0 "x" (.number 1), .bind 1 "x" (.number 2), .clone 2,
        .exec 2 [.assignment "y" (.name "x" 1) 1], .drop 2]).answers 3).Of
      [("x", .number 1), ("x", .number 2)] ∧
    ((run [.bind 0 "x" (.number 1), .bind 1 "x" (.number 2), .clone 2,
        .exec 2 [.assignment "y" (.name "x" 1) 1], .drop 2]).answers 4).Of
      [("x", .number 1), ("x", .number 2), ("y", .number 2)] ∧
    (run ([.bind 0 "x" (.number 1), .bind 1 "x" (.number 2), .clone 2,
        .exec 2 [.assignment "y" (.name "x" 1) 1]] ++ [.drop 2])).answers 3 =
      (run [.bind 0 "x" (.number 1), .bind 1 "x" (.number 2), .clone 2,
        .exec 2 [.assignment "y" (.name "x" 1) 1]]).answers 3 := by
  have hafter := (run_answers [.bind 0 "x" (.number 1), .bind 1 "x" (.number 2), .clone 2,
    .exec 2 [.assignment "y" (.name "x" 1) 1], .drop 2]).2.1
  have hbefore := (run_answers [.bind 0 "x" (.number 1), .bind 1 "x" (.number 2), .clone 2,
    .exec 2 [.assignment "y" (.name "x" 1) 1]]).2.2
  exact ⟨(hafter 3 _ rfl).1, (hafter 4 _ rfl).1,
    (hbefore (.drop 2) 3 (by decide) (by simp)).1⟩

end Session
end ScalarScript
