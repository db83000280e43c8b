import ScalarScript.Proofs.Lexical.Positions
import ScalarScript.Proofs.Phrase.RunningOut
import ScalarScript.Proofs.Program.Joining
import ScalarScript.Proofs.Program.Viability

/-!
# Lines of early ends

A program that ends where an operand is awaited is refused on the line of its last token. One that
ends behind an argument of a call is refused on the line of the parenthesis that opened the call:
that end has got a line before the program could place it. A block comment between the two is enough
to tell them apart.
-/

namespace ScalarScript
namespace Phrase

variable {ts : List Token} {n : Nat}

theorem statement_runsOut (h : bare (statement ts) = .error (.unexpectedEnd n)) : RunsOut ts n := by
  rcases assignment_or_not ts with ⟨name, k, m, us, rfl⟩ | hn
  · rw [bare_statement_assignment] at h
    rcases Except.bind_eq_error h with hc | ⟨_, _, hx⟩
    · exact (chain_runsOut hc).afterToken [⟨.name name, k⟩] rfl
    · cases hx
  · rw [bare_statement_expression hn] at h
    rcases Except.bind_eq_error h with hc | ⟨_, _, hx⟩
    · exact chain_runsOut hc
    · cases hx

end Phrase

namespace Grammar

theorem endsExpr_of_isSeparator {lexeme : Lexeme} (h : lexeme.isSeparator = true) :
    endsExpr lexeme = false := by
  cases lexeme <;> first | rfl | cases h

end Grammar

namespace Program

open Phrase

theorem statements_runsOut {ts : List Token} {n : Nat}
    (h : statements ts = .error (.unexpectedEnd n)) : RunsOut ts n ∧ ts ≠ [] := by
  match ts with
  | [] =>
    rw [statements_nil] at h
    cases h
  | t :: us =>
    refine ⟨?_, List.cons_ne_nil t us⟩
    cases ht : t.lexeme.isSeparator with
    | true =>
      rw [statements_separator ht] at h
      exact (statements_runsOut h).1.afterToken [] (Grammar.endsExpr_of_isSeparator ht)
    | false =>
      rw [statements_statement ht] at h
      rcases Except.bind_eq_error h with hs | ⟨⟨s, rest⟩, hs, hx⟩
      · exact statement_runsOut hs
      · have hlt := length_lt_of_bare hs
        obtain ⟨front, hts, -⟩ := statement_sound hs
        cases rest with
        | nil => cases hx
        | cons next rest =>
          simp only [afterStatement] at hx
          split at hx
          next hnext =>
            rw [hts]
            exact (statements_runsOut (Except.map_eq_error hx)).1.afterToken front
              (Grammar.endsExpr_of_isSeparator hnext)
          next => cases hx
termination_by ts.length
decreasing_by
  · exact Nat.lt_of_succ_lt hlt
  · exact Nat.lt_succ_self us.length

/-- The lines of a text count from one. -/
theorem line_pos_of_ofSource {source : String} {ts : List Token}
    (h : Token.ofSource source = .ok ts) : ∀ t ∈ ts, 0 < t.line := by
  obtain ⟨ps, -, rfl⟩ := Lexical.ofSource_eq_ok_iff.mp h
  intro t ht
  exact Lexical.line_le_of_mem_placed ht

/-- Where an operand is awaited, an early end is on the line of the last token. Otherwise the text
ends behind an argument of a call, and the line is that of the parenthesis that opens it. -/
theorem ofSource_ends_early {source : String} {ts : List Token} {n : Nat}
    (hts : Token.ofSource source = .ok ts) (h : ofSource source = .error (.unexpectedEnd n)) :
    ∃ t, ts.getLast? = some t ∧
      (Grammar.endsExpr t.lexeme = false ∧ n = t.line ∨
        Grammar.endsExpr t.lexeme = true ∧ InCall ts n) := by
  rw [ofSource, hts] at h
  obtain ⟨e, hs, he⟩ := ofTokens_eq_error h
  obtain ⟨m, rfl⟩ : ∃ m, e = .unexpectedEnd m := by
    cases e <;> first | exact ⟨_, rfl⟩ | cases he
  obtain ⟨hout, hne⟩ := statements_runsOut hs
  obtain ⟨t, ht⟩ : ∃ t, ts.getLast? = some t := ⟨_, List.getLast?_eq_some_getLast hne⟩
  refine ⟨t, ht, ?_⟩
  rcases hout with ⟨rfl, hawait⟩ | hcall
  · have hline : lastLine ts = t.line := by rw [lastLine, ht]; rfl
    rw [← hline]
    exact Or.inl ⟨hawait t ht, by cases he; rfl⟩
  · obtain ⟨u, hu, hends⟩ := hcall.ended
    obtain rfl : u = t := Option.some.inj ((Option.mem_def.mp hu).symm.trans ht)
    have hm : m ≠ 0 := by
      obtain ⟨front, f, k, inside, es, rfl, -⟩ := hcall
      exact (line_pos_of_ofSource hts ⟨.leftParen, m⟩ (by simp)).ne'
    obtain rfl : n = m := by
      cases m with
      | zero => exact absurd rfl hm
      | succ m => cases he; rfl
    exact Or.inr ⟨hends, hcall⟩

/-- The tokens `f`, `(` and `1` of the two lines `f(/*` and `*/1`. -/
theorem tokens_of_open_call : Token.ofSource "f(/*\n*/1" =
    .ok [⟨.name "f", 1⟩, ⟨.leftParen, 1⟩, ⟨.number 1, 2⟩] := by
  decide +kernel

theorem ofSource_of_open_call : ofSource "f(/*\n*/1" = .error (.unexpectedEnd 1) := by
  have hnumber : bare (chain .sum [⟨.number 1, 2⟩]) = .ok (.number 1 2, []) :=
    @chain_complete _ [⟨.number 1, 2⟩] _ Grammar.Primary.number.chain [] 0 Grammar.stops_nil
      (by decide)
  have hcall : bare (primary [⟨.name "f", 1⟩, ⟨.leftParen, 1⟩, ⟨.number 1, 2⟩]) =
      .error (.unexpectedEnd 1) := by
    rw [bare_primary_call, bare_arguments_some (by simp), bare_someArguments, hnumber]
    rfl
  rw [ofSource, tokens_of_open_call]
  show ofTokens _ = _
  rw [ofTokens, statements_statement rfl, bare_statement_expression (by simp),
    bare_chain_eq_error hcall (by simp)]
  rfl

/-- The call is refused on line 1, where its parenthesis is, and its last token is on line 2. -/
theorem ofSource_ends_early_in_call :
    ∃ ts, Token.ofSource "f(/*\n*/1" = .ok ts ∧ ∃ t, ts.getLast? = some t ∧
      (Grammar.endsExpr t.lexeme = false ∧ 1 = t.line ∨
        Grammar.endsExpr t.lexeme = true ∧ InCall ts 1) :=
  ⟨_, tokens_of_open_call, ofSource_ends_early tokens_of_open_call ofSource_of_open_call⟩

/-- Not each early end is on the line of the last token. -/
theorem ofSource_not_on_last_line :
    ¬ ∀ (source : String) (ts : List Token) (n : Nat), Token.ofSource source = .ok ts →
      ofSource source = .error (.unexpectedEnd n) → ∃ t, ts.getLast? = some t ∧ n = t.line := by
  intro h
  obtain ⟨t, ht, hline⟩ := h _ _ _ tokens_of_open_call ofSource_of_open_call
  cases ht
  cases hline

end Program
end ScalarScript
