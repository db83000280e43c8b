import ScalarScript.Proofs.Phrase.Failure
import ScalarScript.Proofs.Program.Acceptance

/-!
# Viable beginnings

A token list is viable if it is the beginning of a program. A list that is no program is either
viable, and then it ends too early, or has a first token with which it stops being so; an error
tells the two apart and stands at that token. Missing parentheses are the exception: their error is
the same in both cases, and its line is that of the parenthesis they belong to.
-/

namespace ScalarScript
namespace Phrase

open Grammar

variable {ts : List Token} {s : Statement} {rest : List Token} {e : SyntaxError}

theorem bare_chain_name_equals {x : String} {n m : Nat} :
    bare (chain .sum (⟨.name x, n⟩ :: ⟨.equals, m⟩ :: ts)) =
      .ok (.name x n, ⟨.equals, m⟩ :: ts) := by
  have hname : Chain .sum [⟨.name x, n⟩] (.name x n) := Primary.name.chain
  have hstop : Stops (levelStrength .sum) (⟨.equals, m⟩ :: ts) := by simp [strength, levelStrength]
  exact (chain_append hname hstop).trans (bare_chainFrom_stop rfl)

/-- An equals sign behind a name would have been there before. -/
theorem statement_settled (h : bare (statement ts) = .ok (s, rest)) :
    Settled (fun us => bare (statement us)) ts s rest := by
  rcases assignment_or_not ts with ⟨name, n, m, us, rfl⟩ | hn
  · rw [bare_statement_assignment] at h
    obtain ⟨⟨e, vs⟩, hc, hx⟩ := Except.bind_eq_ok h
    cases hx
    apply (chain_settled hc).after [⟨.name name, n⟩, ⟨.equals, m⟩]
    intro ws vs _ hws
    rw [List.cons_append, List.singleton_append, bare_statement_assignment, hws]
    rfl
  · rw [bare_statement_expression hn] at h
    obtain ⟨⟨e, vs⟩, hc, hx⟩ := Except.bind_eq_ok h
    cases hx
    obtain ⟨front, rfl, hf⟩ := chain_settled hc
    refine ⟨front, rfl, fun ws hws => ?_⟩
    beta_reduce at hf ⊢
    have hn' : ∀ x n m us, front ++ ws ≠ ⟨.name x, n⟩ :: ⟨.equals, m⟩ :: us := by
      intro x n m us heq
      have hws' := hf ws hws
      rw [heq, bare_chain_name_equals] at hws'
      cases hws'
      obtain ⟨vs, rfl⟩ := List.head?_eq_some_iff.mp hws.symm
      obtain rfl : front = [⟨.name x, n⟩] := List.append_cancel_right heq
      exact hn x n m vs rfl
    have hline : firstLine (front ++ ws) = firstLine (front ++ rest) := by
      rw [firstLine, head?_append_congr _ hws, firstLine]
    rw [bare_statement_expression hn', hf ws hws, hline]
    rfl

theorem statement_blame (h : bare (statement ts) = .error e) :
    Blame (Opens Grammar.Statement) (fun us => bare (statement us)) ts e := by
  rcases assignment_or_not ts with ⟨name, n, m, us, rfl⟩ | hn
  · rw [bare_statement_assignment] at h
    rcases Except.bind_eq_error h with hc | ⟨_, _, hx⟩
    · apply (chain_blame hc).after [⟨.name name, n⟩, ⟨.equals, m⟩]
      · rintro front ⟨vs, x, hx⟩
        exact ⟨vs, _, .assignment hx⟩
      · intro vs _ hvs
        rw [List.cons_append, List.singleton_append, bare_statement_assignment, hvs]
        rfl
    · cases hx
  · rw [bare_statement_expression hn] at h
    rcases Except.bind_eq_error h with hc | ⟨_, _, hx⟩
    · apply (chain_blame hc).imp
      · rintro front ⟨vs, x, hx⟩
        obtain ⟨t, us, hts, -⟩ := hx.starts
        rw [hts] at hx
        exact ⟨vs, _, by simpa [hts] using Grammar.Statement.expression hx⟩
      · intro us _ hus
        have hus' : ∀ x n m vs, us ≠ ⟨.name x, n⟩ :: ⟨.equals, m⟩ :: vs := by
          rintro x n m vs rfl
          rw [bare_chain_name_equals] at hus
          cases hus
        rw [bare_statement_expression hus', hus]
        rfl
    · cases hx

end Phrase

namespace Program

open Phrase

variable {ts : List Token} {e : SyntaxError}

theorem statements_of_statement {front us : List Token} {s : Statement}
    (hf : Grammar.Statement front s) (h : bare (statement (front ++ us)) = .ok (s, us)) :
    statements (front ++ us) = afterStatement s us := by
  obtain ⟨t, ts, rfl, ht⟩ := hf.starts
  rw [List.cons_append, statements_statement (Grammar.isSeparator_of_startsExpr ht),
    ← List.cons_append, h]
  rfl

theorem afterStatement_separator {s : Statement} {t : Token} (ht : t.lexeme.isSeparator = true) :
    afterStatement s (t :: ts) = (statements ts).map (s :: ·) := by
  rw [afterStatement, if_pos ht]

theorem afterStatement_other {s : Statement} {t : Token} (ht : t.lexeme.isSeparator = false) :
    afterStatement s (t :: ts) = .error (.trailingToken t.lexeme.text t.line) := by
  rw [afterStatement, if_neg (by simp [ht])]

theorem statements_blame {ts : List Token} {e : SyntaxError} (h : statements ts = .error e) :
    Blame (Opens Grammar.Program) statements ts e := by
  match ts with
  | [] =>
    rw [statements_nil] at h
    cases h
  | t :: us =>
    cases ht : t.lexeme.isSeparator with
    | true =>
      rw [statements_separator ht] at h
      apply (statements_blame h).after [t]
      · rintro front ⟨vs, p, hp⟩
        exact ⟨vs, p, hp.separator ht⟩
      · intro vs _ hvs
        rw [List.singleton_append, statements_separator ht, hvs]
    | false =>
      have hstatement := h
      rw [statements_statement ht] at hstatement
      rcases Except.bind_eq_error hstatement with
        hs | ⟨⟨s, rest⟩, hs, (hafter : afterStatement s rest = .error e)⟩
      · apply (statement_blame hs).imp
        · intro front hopen
          exact hopen.map fun _ _ => .single
        · intro vs hhead hvs
          obtain ⟨ws, rfl⟩ := List.head?_eq_some_iff.mp hhead
          rw [statements_statement ht, hvs]
          rfl
      · have hlt := length_lt_of_bare hs
        obtain ⟨front, hts, hf, hg⟩ := (statement_settled hs).taken (statement_sound hs)
        cases rest with
        | nil => cases hafter
        | cons next rest =>
          have hread : ∀ vs, statements (front ++ next :: vs) = afterStatement s (next :: vs) :=
            fun vs => statements_of_statement hf (hg (next :: vs) rfl)
          cases hnext : next.lexeme.isSeparator with
          | true =>
            rw [afterStatement_separator hnext] at hafter
            rw [hts, List.append_cons]
            apply (statements_blame (Except.map_eq_error hafter)).after
            · rintro more ⟨vs, p, hp⟩
              exact ⟨vs, s :: p, by simpa using Grammar.Program.cons hf hnext hp⟩
            · intro vs _ hvs
              rw [← List.append_cons, hread, afterStatement_separator hnext, hvs,
                Except.map_error]
          | false =>
            have hopen : Opens Grammar.Program front :=
              ⟨[], _, by simpa using Grammar.Program.single hf⟩
            rw [afterStatement_other hnext] at hafter
            cases hafter
            refine .atToken hts hopen (Or.inr (Or.inl rfl)) fun vs => ?_
            rw [hread, afterStatement_other hnext]
termination_by ts.length
decreasing_by
  · exact Nat.lt_of_succ_lt hlt
  · exact Nat.lt_succ_self us.length

/-- Some tokens behind the list make it a program. -/
def Viable (ts : List Token) : Prop := ∃ us p, ofTokens (ts ++ us) = .ok p

/-- The list ends too early, as the error says. -/
def EndsEarly (ts : List Token) (e : SyntaxError) : Prop := Viable ts ∧ e.IsUnfinished

/-- The error is one at the first token with which the list is no longer viable. -/
def StopsAtToken (ts : List Token) (e : SyntaxError) : Prop :=
  ∃ front t rest, ts = front ++ [t] ++ rest ∧ Viable front ∧ ¬ Viable (front ++ [t]) ∧ e.Refuses t

theorem viable_iff_opens : Viable ts ↔ Opens Grammar.Program ts := by
  simp only [Viable, Opens, ofTokens_eq_ok_iff]

theorem Viable.of_append {us : List Token} (h : Viable (ts ++ us)) : Viable ts := by
  obtain ⟨vs, p, hp⟩ := h
  exact ⟨us ++ vs, p, by rwa [← List.append_assoc]⟩

theorem EndsEarly.not_stopsAtToken {e' : SyntaxError} (h : EndsEarly ts e) :
    ¬ StopsAtToken ts e' := by
  rintro ⟨front, t, rest, rfl, -, hdead, -⟩
  exact hdead h.1.of_append

theorem ofTokens_eq_error {ts : List Token} {e : SyntaxError} (h : ofTokens ts = .error e) :
    ∃ e', statements ts = .error e' ∧ e = e'.placeEnd (lastLine ts) := by
  rw [ofTokens] at h
  cases hs : statements ts with
  | ok p =>
    rw [hs] at h
    cases h
  | error e' =>
    rw [hs] at h
    cases h
    exact ⟨e', rfl, rfl⟩

end Program

namespace SyntaxError

variable {e : SyntaxError} {t : Token}

theorem IsUnfinished.placeEnd (h : e.IsUnfinished) (n : Nat) : (e.placeEnd n).IsUnfinished := by
  rcases h with ⟨m, rfl⟩ | ⟨m, rfl⟩
  · cases m with
    | zero => exact Or.inl ⟨n, rfl⟩
    | succ m => exact Or.inl ⟨m + 1, rfl⟩
  · exact Or.inr ⟨m, rfl⟩

theorem Refuses.placeEnd_eq (h : e.Refuses t) (n : Nat) : e.placeEnd n = e := by
  rcases h with rfl | rfl | ⟨m, rfl⟩ <;> rfl

theorem IsUnfinished.ne_invalidNumber (h : e.IsUnfinished) (text : String) (n : Nat) :
    e ≠ invalidNumber text n := by
  rcases h with ⟨m, rfl⟩ | ⟨m, rfl⟩ <;> simp

theorem Refuses.ne_invalidNumber (h : e.Refuses t) (text : String) (n : Nat) :
    e ≠ invalidNumber text n := by
  rcases h with rfl | rfl | ⟨m, rfl⟩ <;> simp

end SyntaxError

namespace Program

open Phrase

theorem bare_chain_eq_error {ts : List Token} {level : Level} {e : SyntaxError}
    (h : bare (primary ts) = .error e) (hm : ∀ t ∈ ts.head?, t.lexeme ≠ .minus) :
    bare (chain level ts) = .error e := by
  have hproduct : bare (operand .product ts) = .error e := by
    rw [bare_operand_product, bare_unary_power hm, bare_power, h]
    rfl
  have hchain : bare (chain .product ts) = .error e := by
    rw [bare_chain, hproduct]
    rfl
  cases level with
  | sum =>
    rw [bare_chain, bare_operand_sum, hchain]
    rfl
  | product => exact hchain

/-- A token that neither ends nor continues the first statement is quoted with its line. -/
theorem ofTokens_behind_statement {front rest : List Token} {s : Statement} {t : Token}
    (hf : Grammar.Statement front s) (hstop : Grammar.strength t.lexeme = 0)
    (ht : t.lexeme.isSeparator = false) :
    ofTokens (front ++ t :: rest) = .error (.trailingToken t.lexeme.text t.line) := by
  have hread : bare (statement (front ++ t :: rest)) = .ok (s, t :: rest) :=
    statement_complete hf (Grammar.stops_cons.mpr hstop.le)
  rw [ofTokens, statements_of_statement hf hread, afterStatement_other ht]
  rfl

/-- A token in front that begins no statement is quoted with its line. -/
theorem ofTokens_at_no_operand {rest : List Token} {t : Token}
    (hstart : Grammar.startsExpr t.lexeme = false) (ht : t.lexeme.isSeparator = false) :
    ofTokens (t :: rest) = .error (.unexpectedToken t.lexeme.text t.line) := by
  obtain ⟨hminus, hprimary⟩ := Bool.or_eq_false_iff.mp hstart
  have hread : bare (chain .sum (t :: rest)) = .error (.unexpectedToken t.lexeme.text t.line) :=
    bare_chain_eq_error (bare_primary_other hprimary) (by simpa using hminus)
  have hname : ∀ x n m us, t :: rest ≠ ⟨.name x, n⟩ :: ⟨.equals, m⟩ :: us := by
    rintro x n m us ⟨⟩
    cases hprimary
  rw [ofTokens, statements_statement ht, bare_statement_expression hname, hread]
  rfl

theorem ofTokens_second_equals :
    ofTokens [⟨.name "x", 1⟩, ⟨.equals, 1⟩, ⟨.name "f", 1⟩, ⟨.leftParen, 1⟩, ⟨.number 2, 1⟩,
        ⟨.comma, 1⟩, ⟨.leftParen, 2⟩, ⟨.name "y", 2⟩, ⟨.equals, 3⟩, ⟨.number 3, 3⟩] =
      .error (.unclosedParen 2) := by
  have hinner : bare (primary [⟨.leftParen, 2⟩, ⟨.name "y", 2⟩, ⟨.equals, 3⟩, ⟨.number 3, 3⟩]) =
      .error (.unclosedParen 2) :=
    bare_primary_unclosed bare_chain_name_equals (by simp)
  have hnumber : bare (chain .sum [⟨.number 2, 1⟩, ⟨.comma, 1⟩, ⟨.leftParen, 2⟩, ⟨.name "y", 2⟩,
      ⟨.equals, 3⟩, ⟨.number 3, 3⟩]) = .ok (.number 2 1, ⟨.comma, 1⟩ :: [⟨.leftParen, 2⟩,
        ⟨.name "y", 2⟩, ⟨.equals, 3⟩, ⟨.number 3, 3⟩]) :=
    @chain_complete _ [⟨.number 2, 1⟩] _ Grammar.Primary.number.chain _ 0
      (by simp [Grammar.strength]) (by decide)
  have hcall : bare (primary [⟨.name "f", 1⟩, ⟨.leftParen, 1⟩, ⟨.number 2, 1⟩, ⟨.comma, 1⟩,
      ⟨.leftParen, 2⟩, ⟨.name "y", 2⟩, ⟨.equals, 3⟩, ⟨.number 3, 3⟩]) =
      .error (.unclosedParen 2) := by
    rw [bare_primary_call, bare_arguments_some (by simp), bare_someArguments_more hnumber,
      bare_someArguments, bare_chain_eq_error hinner (by simp)]
    rfl
  rw [ofTokens, statements_statement rfl, bare_statement_assignment,
    bare_chain_eq_error hcall (by simp)]
  rfl

/-- A list that is no program either ends too early or has a first token that no program goes on
with, and its error is one of that case. -/
theorem ofTokens_error_at_first_dead_token {ts : List Token} {e : SyntaxError}
    (h : ofTokens ts = .error e) :
    Xor (EndsEarly ts e) (StopsAtToken ts e) ∧ ∀ text n, e ≠ .invalidNumber text n := by
  obtain ⟨e', hs, rfl⟩ := ofTokens_eq_error h
  cases statements_blame hs with
  | atEnd hopen he =>
    have hearly : EndsEarly ts (e'.placeEnd (lastLine ts)) :=
      ⟨viable_iff_opens.mpr hopen, he.placeEnd _⟩
    exact ⟨Or.inl ⟨hearly, hearly.not_stopsAtToken⟩, (he.placeEnd _).ne_invalidNumber⟩
  | @atToken front t rest hts hopen he hfail =>
    have hdead : ¬ Viable (front ++ [t]) := by
      rintro ⟨us, p, hp⟩
      rw [List.append_assoc, List.singleton_append, ofTokens, hfail us] at hp
      cases hp
    rw [he.placeEnd_eq]
    have hstops : StopsAtToken ts e' :=
      ⟨front, t, rest, by simpa using hts, viable_iff_opens.mpr hopen, hdead, he⟩
    exact ⟨Or.inr ⟨hstops, fun hearly => hearly.not_stopsAtToken hstops⟩, he.ne_invalidNumber⟩

/-- After `x = f(2, (y` a second equals sign leads to no program. The error is that of the inner
parenthesis. The errors of `1 2`, of `1 x` and of `/ 3` quote the second number, the name and the
slash. -/
theorem ofTokens_error_at_second_equals :
    (∃ ts, ts = [⟨.name "x", 1⟩, ⟨.equals, 1⟩, ⟨.name "f", 1⟩, ⟨.leftParen, 1⟩, ⟨.number 2, 1⟩,
        ⟨.comma, 1⟩, ⟨.leftParen, 2⟩, ⟨.name "y", 2⟩, ⟨.equals, 3⟩, ⟨.number 3, 3⟩] ∧
      ofTokens ts = .error (.unclosedParen 2) ∧
      Xor (EndsEarly ts (.unclosedParen 2)) (StopsAtToken ts (.unclosedParen 2))) ∧
    (∃ ts e, ts = [⟨.number 1, 1⟩, ⟨.number 2, 1⟩] ∧ e = .trailingToken "Number(2.0)" 1 ∧
      ofTokens ts = .error e ∧ Xor (EndsEarly ts e) (StopsAtToken ts e)) ∧
    (∃ ts e, ts = [⟨.number 1, 1⟩, ⟨.name "x", 2⟩] ∧
      e = .trailingToken "Identifier(\"x\")" 2 ∧
      ofTokens ts = .error e ∧ Xor (EndsEarly ts e) (StopsAtToken ts e)) ∧
    ∃ ts e, ts = [⟨.slash, 3⟩, ⟨.number 3, 3⟩] ∧ e = .unexpectedToken "Slash" 3 ∧
      ofTokens ts = .error e ∧ Xor (EndsEarly ts e) (StopsAtToken ts e) := by
  have hone : Grammar.Statement [⟨.number 1, 1⟩] (.expression (.number 1 1) 1) :=
    .expression Grammar.Primary.number.chain
  have hsecond : ofTokens [⟨.number 1, 1⟩, ⟨.number 2, 1⟩] =
      .error (.trailingToken "Number(2.0)" 1) := by
    have htext : (Lexeme.number 2).text = "Number(2.0)" := by decide +kernel
    rw [← htext]
    exact ofTokens_behind_statement hone rfl rfl
  have hname : ofTokens [⟨.number 1, 1⟩, ⟨.name "x", 2⟩] =
      .error (.trailingToken "Identifier(\"x\")" 2) := by
    have htext : (Lexeme.name "x").text = "Identifier(\"x\")" := by decide +kernel
    rw [← htext]
    exact ofTokens_behind_statement hone rfl rfl
  have hslash : ofTokens [⟨.slash, 3⟩, ⟨.number 3, 3⟩] = .error (.unexpectedToken "Slash" 3) :=
    ofTokens_at_no_operand rfl rfl
  exact ⟨⟨_, rfl, ofTokens_second_equals,
      (ofTokens_error_at_first_dead_token ofTokens_second_equals).1⟩,
    ⟨_, _, rfl, rfl, hsecond, (ofTokens_error_at_first_dead_token hsecond).1⟩,
    ⟨_, _, rfl, rfl, hname, (ofTokens_error_at_first_dead_token hname).1⟩,
    ⟨_, _, rfl, rfl, hslash, (ofTokens_error_at_first_dead_token hslash).1⟩⟩

end Program
end ScalarScript
