import ScalarScript.Proofs.Session.Ownership
import ScalarScript.Proofs.Session.Paths

/-!
# Sharing is not seen

An environment of a session with shared bindings stands for a list of bindings: it is what its chain
shows, and its length is kept right. Each operation makes an environment that stands for the right
list and keeps the chains of all others, since it keeps their owners. So a session answers as a pool
in which every environment has bindings of its own.
-/

namespace ScalarScript
namespace Store

variable {store store' : Store} {roots : List (Option Nat)} {env : Handle} {env₀ : Environment}

/-- The environment that a handle stands for. -/
structure Stands (store : Store) (env : Handle) (env₀ : Environment) : Prop where
  chain : store.chain env.head = env₀.bindings
  length : env.length = env₀.length

/-- The chains of the roots are as they were. -/
def Keeps (roots : List (Option Nat)) (store store' : Store) : Prop :=
  ∀ head ∈ roots, store'.chain head = store.chain head

theorem Keeps.trans {store'' : Store} (h : Keeps roots store store')
    (h' : Keeps roots store' store'') : Keeps roots store store'' :=
  fun head hhead => (h' head hhead).trans (h head hhead)

theorem Stands.kept (h : store.Stands env env₀) (hk : Keeps roots store store')
    (hroot : env.head ∈ roots) : store'.Stands env env₀ :=
  ⟨(hk _ hroot).trans h.chain, h.length⟩

theorem stands_empty (store : Store) : store.Stands .empty .empty := ⟨chain_none store, rfl⟩

theorem Stands.view (h : store.Stands env env₀) : store.view env = env₀ := by
  rw [Store.view, h.chain]

theorem unseen_eq (seen xs : List String) :
    unseen seen xs = (xs.filter (· ∉ seen)).eraseDups := by
  induction xs generalizing seen with
  | nil => rfl
  | cons x xs ih =>
    rw [unseen]
    by_cases hx : x ∈ seen
    · rw [if_pos hx, List.filter_cons_of_neg (by simpa using hx), ih]
    · rw [if_neg hx, List.filter_cons_of_pos (by simpa using hx), List.eraseDups_cons, ih,
        List.filter_filter]
      congr 2
      apply List.filter_congr
      intro y _
      simp only [List.mem_cons, not_or, Bool.decide_and, decide_not]
      congr 1

theorem find?_eq_lookup (bs : List (String × Value)) (x : String) :
    (bs.find? (·.1 == x)).map Prod.snd = bs.lookup x := by
  induction bs with
  | nil => rfl
  | cons b bs ih =>
    obtain ⟨y, v⟩ := b
    rw [List.find?_cons, List.lookup_cons]
    by_cases h : x = y
    · subst h
      simp
    · have hy : (y == x) = false := beq_false_of_ne (Ne.symm h)
      have hx : (x == y) = false := beq_false_of_ne h
      simp only [hx, hy]
      exact ih

/-- What stands for an environment answers as it does. -/
theorem Stands.answers (h : store.Stands env env₀) : store.answers env = env₀.answers := by
  have hlookup : store.lookup env = env₀.lookup := by
    funext x
    rw [Store.lookup, h.chain, Environment.lookup, Environment.find?, ← find?_eq_lookup]
    cases env₀.bindings.find? (·.1 == x) <;> rfl
  have hcontains : store.contains env = env₀.contains := by
    funext x
    rw [Store.contains, h.chain, Environment.contains, Environment.find?, ← find?_eq_lookup,
      Option.isSome_map, List.isSome_find?]
  have hnames : store.names env = env₀.names := by
    rw [Store.names, unseen_eq, h.chain, Environment.names]
    simp
  have hempty : (env.length == 0) = env₀.isEmpty := by
    rw [h.length, Environment.length, Environment.isEmpty]
    cases env₀.bindings <;> rfl
  rw [Store.answers, hempty, h.length, hlookup, hcontains, hnames]
  rfl

/-- A new environment that stands for `env₀` comes to the roots, and their chains stay. -/
structure Makes (store : Store) (roots : List (Option Nat)) (made : Store × Handle)
    (env₀ : Environment) : Prop where
  owned : made.1.Owned (made.2.head :: roots)
  stands : made.1.Stands made.2 env₀
  keeps : Keeps roots store made.1

theorem makes_clone (h : store.Owned roots) (hroot : env.head ∈ roots)
    (hs : store.Stands env env₀) : store.Makes roots (store.clone env) env₀ := by
  have hk : Keeps roots store (store.retain env.head) := fun head _ => chain_retain store _ head
  exact ⟨h.retain hroot, hs.kept hk hroot, hk⟩

theorem makes_bind (h : store.Owned roots) (hroot : env.head ∈ roots)
    (hs : store.Stands env env₀) (x : String) (v : Value) :
    store.Makes roots (store.bind env x v) (env₀.bind x v) := by
  obtain ⟨kept, hkept⟩ : ∃ kept, kept = store.retain env.head := ⟨_, rfl⟩
  have hbind : store.bind env x v =
      (kept ++ [some ⟨x, v, env.head, 1⟩], ⟨some kept.length, env.length + 1⟩) := by
    rw [hkept]
    rfl
  have hretained : kept.Owned (env.head :: roots) := hkept ▸ h.retain hroot
  have howned := hretained.alloc x v
  have hchain : Keeps roots store (kept ++ [some ⟨x, v, env.head, 1⟩]) := by
    intro head hhead
    rw [chain_append hretained (List.mem_cons_of_mem _ hhead), hkept, chain_retain]
  have hnew : link? (kept ++ [some ⟨x, v, env.head, 1⟩]) kept.length =
      some ⟨x, v, env.head, 1⟩ := by
    rw [link?_append, if_pos rfl]
  rw [hbind]
  refine ⟨howned, ⟨?_, ?_⟩, hchain⟩
  · rw [chain_eq_cons howned hnew, hchain _ hroot, hs.chain]
    rfl
  · show env.length + 1 = env₀.length + 1
    rw [hs.length]

/-- The end of another environment. -/
theorem Makes.drop {made : Store × Handle} (h : store.Makes (env.head :: roots) made env₀) :
    store.Makes roots (made.1.drop env, made.2) env₀ := by
  obtain ⟨howned, hkeeps⟩ := (h.owned.perm (List.Perm.swap _ _ _)).release
  refine ⟨howned, h.stands.kept hkeeps List.mem_cons_self, ?_⟩
  intro head hhead
  have hkept := hkeeps head (List.mem_cons_of_mem _ hhead)
  exact hkept.trans (h.keeps head (List.mem_cons_of_mem _ hhead))

theorem execStatement_error {s : Statement} {e : EvalError} (hs : store.Stands env env₀)
    (h : s.expr.eval env₀ = .error e) : store.execStatement env s = .error e := by
  cases s with
  | assignment x ex n | expression ex n =>
    rw [execStatement, hs.view, show ex.eval env₀ = _ from h]
    rfl

theorem execStatement_ok {s : Statement} {v : Value} (howned : store.Owned roots)
    (hroot : env.head ∈ roots) (hs : store.Stands env env₀) (h : s.expr.eval env₀ = .ok v) :
    ∃ made, store.execStatement env s = .ok (v, made) ∧
      store.Makes roots made (s.after env₀ v) := by
  cases s with
  | assignment x ex n =>
    refine ⟨_, ?_, makes_bind howned hroot hs x v⟩
    rw [execStatement, hs.view, show ex.eval env₀ = _ from h]
    rfl
  | expression ex n =>
    refine ⟨_, ?_, makes_clone howned hroot hs⟩
    rw [execStatement, hs.view, show ex.eval env₀ = _ from h]
    rfl

/-- What a run of statements makes of the store. -/
inductive Runs (store : Store) (roots : List (Option Nat)) :
    Except EvalError (Value × Environment) → Store × Except EvalError (Value × Handle) → Prop
  | ok {made v env₀} : store.Makes roots made env₀ →
      Runs store roots (.ok (v, env₀)) (made.1, .ok (v, made.2))
  | error {store' e} : store'.Owned roots → Keeps roots store store' →
      Runs store roots (.error e) (store', .error e)

theorem Runs.after {made : Store × Handle} {r : Except EvalError (Value × Environment)}
    {out : Store × Except EvalError (Value × Handle)} (hmade : store.Makes roots made env₀)
    (h : Runs made.1 roots r out) : store.Runs roots r out := by
  cases h with
  | ok hm => exact .ok ⟨hm.owned, hm.stands, hmade.keeps.trans hm.keeps⟩
  | error howned hk => exact .error howned (hmade.keeps.trans hk)

/-- The value and the environment behind the statements, if `last` is the value before them. -/
def resume (env₀ : Environment) (last : Option Value) :
    Program → Except EvalError (Value × Environment)
  | [] =>
    match last with
    | some v => .ok (v, env₀)
    | none => .error .emptyProgram
  | s :: p => do
    let v ← s.expr.eval env₀
    resume (s.after env₀ v) (some v) p

theorem resume_eq (env₀ : Environment) (last : Option Value) {p : Program} (hp : p ≠ []) :
    resume env₀ last p = p.evalStatements env₀ := by
  induction p generalizing env₀ last with
  | nil => exact absurd rfl hp
  | cons s p ih =>
    rw [resume]
    by_cases hrest : p = []
    · subst hrest
      rw [Program.evalStatements_single, s.eval_eq]
      rfl
    · rw [Program.evalStatements_cons_eq env₀ s hrest]
      simp only [ih _ _ hrest]

theorem resume_none (env₀ : Environment) (p : Program) :
    resume env₀ none p = p.evalStatements env₀ := by
  by_cases hp : p = []
  · subst hp
    rfl
  · exact resume_eq env₀ none hp

/-- The environment of the run is a root besides the others, so their chains outlive it. -/
theorem runs_execFrom {p : Program} (last : Option Value) (h : store.Owned (env.head :: roots))
    (hs : store.Stands env env₀) :
    store.Runs roots (resume env₀ last p) (store.execFrom env last p) := by
  induction p generalizing store env env₀ last with
  | nil =>
    cases last with
    | some v => exact @Runs.ok _ _ (store, env) v env₀ ⟨h, hs, fun _ _ => rfl⟩
    | none => exact .error h.release.1 h.release.2
  | cons s p ih =>
    rw [resume, execFrom]
    cases hv : s.expr.eval env₀ with
    | error e =>
      rw [execStatement_error hs hv]
      exact .error h.release.1 h.release.2
    | ok v =>
      obtain ⟨made, hmade, hmakes⟩ := execStatement_ok h List.mem_cons_self hs hv
      have hnext := hmakes.drop
      rw [hmade]
      exact (ih (some v) hnext.owned hnext.stands).after hnext

theorem runs_exec (h : store.Owned roots) (hroot : env.head ∈ roots)
    (hs : store.Stands env env₀) (p : Program) :
    store.Runs roots (p.evalStatements env₀) (store.exec env p) := by
  have hclone := makes_clone h hroot hs
  rw [← resume_none]
  exact (runs_execFrom none hclone.owned hclone.stands).after hclone

end Store
end ScalarScript
