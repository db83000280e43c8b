import ScalarScript.Proofs.Program.Values
import ScalarScript.Session

/-!
# What an environment answers

An environment is made by binding pairs of names and values one after the other, and all its answers
can be told from the list of these pairs: the value of a name is that of the last pair with this
name, and the names come in the order of their last pairs, from the last one back.
-/

namespace ScalarScript

/-- The last pair with the name `x` is behind all those with the name `y`. -/
def Newer (bs : List (String × Value)) (x y : String) : Prop :=
  ∃ before v after, bs = before ++ (x, v) :: after ∧ y ∈ before.map Prod.fst ∧
    y ∉ x :: after.map Prod.fst

namespace Answers

/-- The answers are those of the pairs `bs`, bound in this order. -/
structure Of (answers : Answers) (bs : List (String × Value)) : Prop where
  length : answers.length = bs.length
  isEmpty : answers.isEmpty = true ↔ bs = []
  lookup_last : ∀ before x v after, bs = before ++ (x, v) :: after → x ∉ after.map Prod.fst →
    answers.lookup x = .ok v
  lookup_unbound : ∀ x, x ∉ bs.map Prod.fst →
    answers.lookup x = .error ⟨.unbound, x ++ " is not defined"⟩
  contains : ∀ x, answers.contains x = true ↔ ∃ v, answers.lookup x = .ok v
  names_nodup : answers.names.Nodup
  mem_names : ∀ x, x ∈ answers.names ↔ x ∈ bs.map Prod.fst
  names_newer : answers.names.Pairwise (Newer bs)

end Answers

section Names

variable {ns : List String}

theorem nodup_eraseDups (ns : List String) : ns.eraseDups.Nodup := by
  match ns with
  | [] => exact List.nodup_nil
  | n :: ns =>
    rw [List.eraseDups_cons, List.nodup_cons]
    have hlt := List.length_filter_le (fun b => !b == n) ns
    exact ⟨by simp, nodup_eraseDups _⟩
termination_by ns.length

/-- Of two names without repetitions the first one also comes first with them. -/
theorem pairwise_eraseDups (ns : List String) :
    ns.eraseDups.Pairwise fun x y => ∃ before after, ns = before ++ x :: after ∧
      y ∈ after ∧ y ∉ before ++ [x] := by
  match ns with
  | [] => exact .nil
  | n :: ns =>
    have hlt := List.length_filter_le (fun b => !b == n) ns
    rw [List.eraseDups_cons, List.pairwise_cons]
    refine ⟨?_, ?_⟩
    · intro y hy
      obtain ⟨hmem, hne⟩ := List.mem_filter.mp (List.mem_eraseDups.mp hy)
      exact ⟨[], ns, rfl, hmem, by simpa using hne⟩
    · apply (pairwise_eraseDups _).imp
      rintro x y ⟨before, after, hsplit, hafter, hbefore⟩
      obtain ⟨xs, ys, rfl, hxs, hys⟩ := List.filter_eq_append_iff.mp hsplit
      obtain ⟨zs, after', rfl, hzs, -, hafter'⟩ := List.filter_eq_cons_iff.mp hys
      have hy : y ∈ List.filter (fun b => !b == n) after' := hafter'.symm ▸ hafter
      obtain ⟨hmem, hne⟩ := List.mem_filter.mp hy
      refine ⟨n :: (xs ++ zs), after', by simp, hmem, ?_⟩
      simp only [List.cons_append, List.mem_cons, List.mem_append, List.not_mem_nil, or_false,
        not_or] at hbefore ⊢
      refine ⟨by simpa using hne, ⟨?_, ?_⟩, hbefore.2⟩
      · intro hin
        exact hbefore.1 (hxs ▸ List.mem_filter.mpr ⟨hin, hne⟩)
      · intro hin
        exact hzs y hin hne
termination_by ns.length

end Names

namespace Environment

variable (bs : List (String × Value))

theorem bindings_bindAll_empty : (empty.bindAll bs).bindings = bs.reverse := by
  rw [bindings_bindAll]
  exact List.append_nil _

variable {bs}

theorem mem_names_bindAll {x : String} :
    x ∈ (empty.bindAll bs).names ↔ x ∈ bs.map Prod.fst := by
  rw [names, bindings_bindAll_empty, List.mem_eraseDups, List.map_reverse, List.mem_reverse]

theorem names_bindAll_newer : (empty.bindAll bs).names.Pairwise (Newer bs) := by
  rw [names, bindings_bindAll_empty, List.map_reverse]
  apply (pairwise_eraseDups _).imp
  rintro x y ⟨newer, older, hsplit, holder, hnewer⟩
  have hbs : bs.map Prod.fst = older.reverse ++ x :: newer.reverse := by
    simpa using congrArg List.reverse hsplit
  obtain ⟨before, rest, rfl, hbefore, hrest⟩ := List.map_eq_append_iff.mp hbs
  obtain ⟨⟨_, v⟩, after, rfl, rfl, hafter⟩ := List.map_eq_cons_iff.mp hrest
  refine ⟨before, v, after, rfl, ?_, ?_⟩
  · rw [hbefore, List.mem_reverse]
    exact holder
  · rw [hafter]
    simpa [and_comm] using hnewer

theorem answers_bindAll (bs : List (String × Value)) : (empty.bindAll bs).answers.Of bs where
  length := by
    show (empty.bindAll bs).bindings.length = _
    rw [bindings_bindAll_empty, List.length_reverse]
  isEmpty := by
    show (empty.bindAll bs).bindings.isEmpty = true ↔ _
    rw [bindings_bindAll_empty, List.isEmpty_iff, List.reverse_eq_nil_iff]
  lookup_last := by
    rintro before x v after rfl h
    show lookup _ x = _
    rw [lookup, find?_bindAll_last _ h]
  lookup_unbound x h := by
    show lookup _ x = _
    rw [lookup, find?_bindAll_of_not_mem _ h]
    rfl
  contains x := by
    show ((empty.bindAll bs).find? x).isSome = true ↔ ∃ v, lookup _ x = _
    rw [lookup]
    cases (empty.bindAll bs).find? x <;> simp
  names_nodup := nodup_eraseDups _
  mem_names x := mem_names_bindAll
  names_newer := names_bindAll_newer

end Environment
end ScalarScript
