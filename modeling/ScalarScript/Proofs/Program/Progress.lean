import ScalarScript.Proofs.Phrase.Budget
import ScalarScript.Proofs.Phrase.Extent
import ScalarScript.Proofs.Program.Viability

/-!
# Readings make progress

A reading that succeeds has taken at least one token, and as many as a phrase of its kind can have
there. It depends on these tokens and on the next one; a reading that fails depends on the tokens up
to the one it refuses. So a call made behind a token has fewer tokens before it than its caller had,
and each turn of the loops over operators, arguments and statements leaves fewer tokens to the next.
All of them end: a budget of one call or turn for each token gives every answer.
-/

namespace ScalarScript
namespace Phrase

open Grammar

variable {ts : List Token} {n : Nat}

theorem statement_greedy :
    Greedy (fun us => bare (statement us)) Grammar.Statement .sum where
  extent h := by
    apply (statement_settled h).extent (statement_sound h) (length_lt_of_bare h)
    · intro xs b us hb hus
      exact statement_complete hb hus
    · intro xs b t hb ht
      exact hb.opens ht
  blame := statement_blame

/-- A reading that succeeds leaves a shorter list, of which nothing has been changed. -/
def Progresses {α : Type} (g : List Token → Except SyntaxError (α × List Token)) : Prop :=
  ∀ ts a rest, g ts = .ok (a, rest) → ∃ front, front ≠ [] ∧ ts = front ++ rest

theorem progresses_of_taken {α : Type} {f : (ts : List Token) → Reading α ts.length}
    {R : List Token → α → Prop}
    (h : ∀ {ts a rest}, bare (f ts) = .ok (a, rest) → Taken R ts a rest) :
    Progresses fun ts => bare (f ts) := by
  intro ts a rest hread
  have hlt := length_lt_of_bare hread
  obtain ⟨front, rfl, -⟩ := h hread
  exact ⟨front, ne_nil_of_length_lt hlt, rfl⟩

/-- The parenthesis behind the arguments is taken, even if there are none. -/
theorem arguments_progresses {opening : Nat} :
    Progresses fun ts => bare (arguments opening ts) := by
  intro ts es rest h
  obtain ⟨front, k, rfl, -⟩ := arguments_sound h
  exact ⟨front ++ [⟨.rightParen, k⟩], by simp, by simp⟩

def statementWithin (n : Nat) (ts : List Token) : Budgeted (Statement × List Token) :=
  match ts with
  | ⟨.name s, line⟩ :: ⟨.equals, _⟩ :: ts => spend n fun m _ => do
    let (e, rest) ← chainWithin m .sum ts
    return (.assignment s e line, rest)
  | ts => do
    let (e, rest) ← chainWithin n .sum ts
    return (.expression e (firstLine ts), rest)

theorem statement_within (h : ts.length ≤ n) :
    statementWithin n ts = (bare (statement ts)).mapError some := by
  rcases assignment_or_not ts with ⟨s, line, k, us, rfl⟩ | hn
  · rw [statementWithin, bare_statement_assignment]
    apply spend_eq (Nat.lt_of_succ_lt h)
    intro m _ hm
    apply Except.bind_eq_mapError (chain_within hm)
    rintro ⟨e, rest⟩ -
    rfl
  · rw [statementWithin, bare_statement_expression hn]
    · apply Except.bind_eq_mapError (chain_within h)
      rintro ⟨e, rest⟩ -
      rfl
    · exact hn

end Phrase

namespace Program

open Phrase

/-- A turn of the loop takes a separator, or a statement with the separator behind it. -/
def statementsWithin (n : Nat) (ts : List Token) : Budgeted Program :=
  match ts with
  | [] => .ok []
  | t :: ts =>
    if t.lexeme.isSeparator then spend n fun m _ => statementsWithin m ts
    else do
      match ← statementWithin n (t :: ts) with
      | (s, []) => return [s]
      | (s, next :: rest) =>
        if next.lexeme.isSeparator then spend n fun m _ => do return s :: (← statementsWithin m rest)
        else throw (some (.trailingToken next.lexeme.text next.line))
termination_by n

theorem statements_within {n : Nat} {ts : List Token} (h : ts.length ≤ n) :
    statementsWithin n ts = (statements ts).mapError some := by
  induction n using Nat.strong_induction_on generalizing ts with
  | _ n ih =>
    cases ts with
    | nil =>
      rw [statementsWithin, statements_nil]
      rfl
    | cons t us =>
      rw [statementsWithin]
      cases ht : t.lexeme.isSeparator with
      | true =>
        rw [statements_separator ht, if_pos rfl]
        apply spend_eq h
        intro m hmn hm
        exact ih m hmn hm
      | false =>
        rw [statements_statement ht, if_neg Bool.false_ne_true]
        apply Except.bind_eq_mapError (statement_within h)
        rintro ⟨s, rest⟩ hs
        have hlt := length_lt_of_bare hs
        cases rest with
        | nil => rfl
        | cons next rest =>
          cases hnext : next.lexeme.isSeparator with
          | true =>
            simp only [afterStatement_separator hnext, hnext, if_true]
            apply spend_eq (Nat.lt_of_lt_of_le (Nat.lt_of_succ_lt hlt) h)
            intro m hmn hm
            rw [ih m hmn hm]
            cases statements rest <;> rfl
          | false =>
            simp only [afterStatement_other hnext, hnext, Bool.false_eq_true, if_false]
            rfl

/-- Expressions, chains and statements are read as maximal phrases with one token of lookahead, each
reading inside them takes a token, and no more calls and turns are nested than there are tokens. -/
theorem reading_progress :
    Greedy (fun ts => bare (expression ts)) (Grammar.Chain .sum) .sum ∧
    (∀ level, Greedy (fun ts => bare (chain level ts)) (Grammar.Chain level) level) ∧
    Greedy (fun ts => bare (statement ts)) Grammar.Statement .sum ∧
    Progresses (fun ts => bare (unary ts)) ∧ Progresses (fun ts => bare (power ts)) ∧
    Progresses (fun ts => bare (primary ts)) ∧
    (∀ opening, Progresses fun ts => bare (arguments opening ts)) ∧
    ∀ (n : Nat) (ts : List Token), ts.length ≤ n →
      (∀ level, chainWithin n level ts = (bare (chain level ts)).mapError some) ∧
      (∀ level left,
        chainFromWithin n level left ts = (bare (chainFrom level left ts)).mapError some) ∧
      (∀ opening,
        argumentsWithin n opening ts = (bare (arguments opening ts)).mapError some) ∧
      statementWithin n ts = (bare (statement ts)).mapError some ∧
      statementsWithin n ts = (statements ts).mapError some := by
  refine ⟨chain_greedy, fun _ => chain_greedy, statement_greedy, progresses_of_taken unary_sound,
    progresses_of_taken power_sound, progresses_of_taken primary_sound,
    fun _ => arguments_progresses, ?_⟩
  intro n ts h
  exact ⟨fun _ => chain_within h, fun _ _ => chainFrom_within h, fun _ => arguments_within h,
    statement_within h, statements_within h⟩

/-- In `x = -2 ^ y; 3` the assignment reaches to the semicolon, and eight calls and turns are
enough to read all of it. -/
theorem reading_progress_of_assignment :
    ∃ ts s rest, ts = [⟨.name "x", 1⟩, ⟨.equals, 1⟩, ⟨.minus, 1⟩, ⟨.number 2, 1⟩, ⟨.caret, 1⟩,
        ⟨.name "y", 1⟩, ⟨.semicolon, 1⟩, ⟨.number 3, 2⟩] ∧
      s = .assignment "x" (.negation (.binary .pow (.number 2 1) (.name "y" 1) 1) 1) 1 ∧
      rest = [⟨.semicolon, 1⟩, ⟨.number 3, 2⟩] ∧ bare (statement ts) = .ok (s, rest) ∧
      (∃ front, Extent (fun us => bare (statement us)) Grammar.Statement .sum ts s front rest) ∧
      ts.length ≤ 8 ∧ statementsWithin 8 ts = (statements ts).mapError some := by
  have hpower : Grammar.Power [⟨.number 2, 1⟩, ⟨.caret, 1⟩, ⟨.name "y", 1⟩]
      (.binary .pow (.number 2 1) (.name "y" 1) 1) :=
    @Grammar.Power.caret [⟨.number 2, 1⟩] _ _ _ _ .number (.power (.primary .name))
  have hassignment := Grammar.Statement.assignment (s := "x") (n := 1) (m := 1)
    (.single (.product (.single (.unary (.minus (n := 1) (.power hpower))))))
  have hstop : Grammar.Stops 0 [⟨.semicolon, 1⟩, ⟨.number 3, 2⟩] := by simp [Grammar.strength]
  have hread := statement_complete hassignment hstop
  have hlength : [(⟨.name "x", 1⟩ : Token), ⟨.equals, 1⟩, ⟨.minus, 1⟩, ⟨.number 2, 1⟩,
      ⟨.caret, 1⟩, ⟨.name "y", 1⟩, ⟨.semicolon, 1⟩, ⟨.number 3, 2⟩].length ≤ 8 := by decide
  exact ⟨_, _, _, rfl, rfl, rfl, hread, reading_progress.2.2.1.extent hread, hlength,
    (reading_progress.2.2.2.2.2.2.2 8 _ hlength).2.2.2.2⟩

end Program
end ScalarScript
