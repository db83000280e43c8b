import ScalarScript.Proofs.Lexical.Munch
import ScalarScript.Proofs.Phrase.Completeness
import ScalarScript.Proofs.Phrase.Soundness

/-!
# Programs are read exactly by the grammar

A list of tokens is read as a program if and only if the grammar derives that program from all of
the list, so no list derives two programs. Statement by statement the two directions are those of
the expressions; the separators between statements come in runs, of which the reader takes one token
at a time.
-/

namespace ScalarScript
namespace Phrase

open Grammar

variable {ts : List Token}

theorem bare_statement_assignment {s : String} {n m : Nat} :
    bare (statement (⟨.name s, n⟩ :: ⟨.equals, m⟩ :: ts)) =
      (do
        let (e, rest) ← bare (chain .sum ts)
        return (.assignment s e n, rest)) := by
  rw [statement]
  exact bare_bind fun p => rfl

theorem bare_statement_expression
    (h : ∀ s n m us, ts ≠ ⟨.name s, n⟩ :: ⟨.equals, m⟩ :: us) :
    bare (statement ts) =
      (do
        let (e, rest) ← bare (chain .sum ts)
        return (.expression e (firstLine ts), rest)) := by
  rw [statement]
  · exact bare_bind fun p => rfl
  · exact h

theorem assignment_or_not (ts : List Token) :
    (∃ s n m us, ts = ⟨.name s, n⟩ :: ⟨.equals, m⟩ :: us) ∨
      ∀ s n m us, ts ≠ ⟨.name s, n⟩ :: ⟨.equals, m⟩ :: us := by
  by_cases h : ∃ s n m us, ts = ⟨.name s, n⟩ :: ⟨.equals, m⟩ :: us
  · exact Or.inl h
  · push Not at h
    exact Or.inr h

theorem statement_sound {s : Statement} {rest : List Token}
    (h : bare (statement ts) = .ok (s, rest)) : Taken Grammar.Statement ts s rest := by
  rcases assignment_or_not ts with ⟨name, n, m, us, rfl⟩ | hn
  · rw [bare_statement_assignment] at h
    obtain ⟨⟨e, vs⟩, hc, hx⟩ := Except.bind_eq_ok h
    cases hx
    obtain ⟨front, rfl, hf⟩ := chain_sound hc
    exact ⟨⟨.name name, n⟩ :: ⟨.equals, m⟩ :: front, rfl, .assignment hf⟩
  · rw [bare_statement_expression hn] at h
    obtain ⟨⟨e, vs⟩, hc, hx⟩ := Except.bind_eq_ok h
    cases hx
    obtain ⟨front, rfl, hf⟩ := chain_sound hc
    obtain ⟨t, us, rfl, -⟩ := hf.starts
    exact ⟨t :: us, rfl, .expression hf⟩

/-- An equals sign is neither in an expression nor directly behind it, so no expression is taken for
an assignment. -/
theorem statement_complete {s : Statement} (h : Grammar.Statement ts s) {rest : List Token}
    (hs : Stops 0 rest) : bare (statement (ts ++ rest)) = .ok (s, rest) := by
  cases h with
  | assignment h =>
    rw [List.cons_append, List.cons_append, bare_statement_assignment,
      chain_complete h hs (by decide)]
    rfl
  | @expression t us e h =>
    have hn : ∀ s n m vs, t :: us ++ rest ≠ ⟨.name s, n⟩ :: ⟨.equals, m⟩ :: vs := by
      intro s n m vs heq
      cases us with
      | nil =>
        cases heq
        simp [strength] at hs
      | cons u us =>
        cases heq
        have := hereditary_inExpr.chain h ⟨.equals, m⟩ (by simp)
        cases this
    rw [bare_statement_expression hn, chain_complete h hs (by decide)]
    rfl

end Phrase

namespace Grammar

theorem Statement.starts {ts : List Token} {s : ScalarScript.Statement} (h : Statement ts s) :
    ∃ t us, ts = t :: us ∧ startsExpr t.lexeme = true := by
  cases h with
  | assignment h => exact ⟨_, _, rfl, rfl⟩
  | expression h => exact h.starts

theorem isSeparator_of_startsExpr {lexeme : Lexeme} (h : startsExpr lexeme = true) :
    lexeme.isSeparator = false := by
  cases lexeme <;> first | rfl | cases h

theorem strength_of_isSeparator {lexeme : Lexeme} (h : lexeme.isSeparator = true) :
    strength lexeme = 0 := by
  cases lexeme <;> first | rfl | cases h

theorem Separators.stops {ts : List Token} (h : Separators ts) (k : Nat) : Stops k ts := by
  cases ts with
  | nil => exact stops_nil
  | cons t ts =>
    rw [stops_cons, strength_of_isSeparator (separators_cons.mp h).1]
    exact Nat.zero_le k

theorem Program.nil : Program [] [] := .none separators_nil separators_nil

theorem Program.separator {t : Token} {ts : List Token} {p : ScalarScript.Program}
    (ht : t.lexeme.isSeparator = true) (h : Program ts p) : Program (t :: ts) p := by
  cases h with
  | @none before after hb ha =>
    exact @Program.none (t :: before) after (separators_cons.mpr ⟨ht, hb⟩) ha
  | @some before ts p after hb hs ha =>
    exact @Program.some (t :: before) ts p after (separators_cons.mpr ⟨ht, hb⟩) hs ha

theorem Program.single {ts : List Token} {s : ScalarScript.Statement} (h : Statement ts s) :
    Program ts [s] := by
  simpa using Program.some separators_nil (.last h) separators_nil

theorem Program.cons {xs ys : List Token} {t : Token} {s : ScalarScript.Statement}
    {p : ScalarScript.Program} (h : Statement xs s) (ht : t.lexeme.isSeparator = true)
    (hp : Program ys p) : Program (xs ++ t :: ys) (s :: p) := by
  cases hp with
  | @none before after hb ha =>
    have hgap : Separators (t :: (before ++ after)) :=
      separators_cons.mpr ⟨ht, separators_append.mpr ⟨hb, ha⟩⟩
    simpa using Program.some separators_nil (.last h) hgap
  | @some before ts p after hb hs ha =>
    have hgap : Separators (t :: before) := separators_cons.mpr ⟨ht, hb⟩
    simpa using Program.some separators_nil (.more h hgap (List.cons_ne_nil t before) hs) ha

end Grammar

namespace Program

open Grammar

theorem statements_nil : statements [] = .ok [] := by rw [statements]

theorem statements_separator {t : Token} {ts : List Token} (h : t.lexeme.isSeparator = true) :
    statements (t :: ts) = statements ts := by
  rw [statements]
  simp [h]

/-- What follows a statement. -/
def afterStatement (s : Statement) : List Token → Except SyntaxError Program
  | [] => .ok [s]
  | t :: rest =>
    if t.lexeme.isSeparator then (statements rest).map (s :: ·)
    else .error (.trailingToken t.lexeme.text t.line)

theorem statements_statement {t : Token} {ts : List Token} (h : t.lexeme.isSeparator = false) :
    statements (t :: ts) =
      Phrase.bare (Phrase.statement (t :: ts)) >>= fun (s, rest) => afterStatement s rest := by
  rw [statements]
  simp only [h, Bool.false_eq_true, if_false]
  cases Phrase.statement (t :: ts) with
  | error e => rfl
  | ok q =>
    obtain ⟨s, _ | ⟨next, rest⟩, hlt⟩ := q
    · rfl
    · show (if next.lexeme.isSeparator then _ else _) = afterStatement s (next :: rest)
      rw [afterStatement]
      split
      · cases statements rest <;> rfl
      · rfl

theorem statements_sound {ts : List Token} {p : Program} (h : statements ts = .ok p) :
    Grammar.Program ts p := by
  match ts with
  | [] =>
    rw [statements_nil] at h
    cases h
    exact .nil
  | t :: us =>
    cases ht : t.lexeme.isSeparator with
    | true =>
      rw [statements_separator ht] at h
      exact (statements_sound h).separator ht
    | false =>
      rw [statements_statement ht] at h
      obtain ⟨⟨s, rest⟩, hs, hp⟩ := Except.bind_eq_ok h
      have hlt := Phrase.length_lt_of_bare hs
      obtain ⟨front, hts, hf⟩ := Phrase.statement_sound hs
      rw [hts]
      cases rest with
      | nil =>
        cases hp
        rw [List.append_nil]
        exact .single hf
      | cons next rest =>
        simp only [afterStatement] at hp
        split at hp
        next hnext =>
          obtain ⟨q, hr, rfl⟩ := Except.map_eq_ok hp
          exact .cons hf hnext (statements_sound hr)
        next => cases hp
termination_by ts.length
decreasing_by
  · exact Nat.lt_of_succ_lt hlt
  · exact Nat.lt_succ_self us.length

theorem statements_separators_append {gap ts : List Token} (h : Separators gap) :
    statements (gap ++ ts) = statements ts := by
  induction gap with
  | nil => rfl
  | cons t gap ih =>
    obtain ⟨ht, hgap⟩ := separators_cons.mp h
    rw [List.cons_append, statements_separator ht, ih hgap]

theorem statements_separators {ts : List Token} (h : Separators ts) : statements ts = .ok [] := by
  simpa [statements_nil] using @statements_separators_append ts [] h

theorem statements_append {xs : List Token} {s : Statement} (h : Grammar.Statement xs s)
    {rest : List Token} (hs : Stops 0 rest) : statements (xs ++ rest) = afterStatement s rest := by
  obtain ⟨t, us, rfl, ht⟩ := h.starts
  rw [List.cons_append, statements_statement (isSeparator_of_startsExpr ht), ← List.cons_append,
    Phrase.statement_complete h hs]
  rfl

theorem statements_complete {ts : List Token} {p : Program} (h : Grammar.Statements ts p)
    {after : List Token} (ha : Separators after) : statements (ts ++ after) = .ok p := by
  induction h with
  | last h =>
    rw [statements_append h (ha.stops 0)]
    cases after with
    | nil => rfl
    | cons t after =>
      obtain ⟨ht, hrest⟩ := separators_cons.mp ha
      rw [afterStatement, if_pos ht, statements_separators hrest]
      rfl
  | @more xs s gap ys p h hgap hne _ ih =>
    cases gap with
    | nil => exact absurd rfl hne
    | cons t gap =>
      obtain ⟨ht, hrest⟩ := separators_cons.mp hgap
      have hstop : Stops 0 (t :: (gap ++ (ys ++ after))) := by
        rw [stops_cons, strength_of_isSeparator ht]
      have heq : xs ++ t :: gap ++ ys ++ after = xs ++ t :: (gap ++ (ys ++ after)) := by simp
      rw [heq, statements_append h hstop, afterStatement, if_pos ht,
        statements_separators_append hrest, ih]
      rfl

theorem statements_eq_ok_iff {ts : List Token} {p : Program} :
    statements ts = .ok p ↔ Grammar.Program ts p := by
  constructor
  · exact statements_sound
  · intro h
    cases h with
    | none hb ha => exact statements_separators (separators_append.mpr ⟨hb, ha⟩)
    | some hb hs ha =>
      rw [List.append_assoc, statements_separators_append hb]
      exact statements_complete hs ha

/-- Placing an end of input changes no program. -/
theorem ofTokens_eq_ok_iff {ts : List Token} {p : Program} :
    ofTokens ts = .ok p ↔ Grammar.Program ts p := by
  rw [← statements_eq_ok_iff, ofTokens]
  cases statements ts <;> simp [Except.mapError]

/-- The reader accepts exactly the programs of the grammar, and each list denotes at most one. -/
theorem ofTokens_exactly_grammar :
    (∀ (ts : List Token) (p : Program), ofTokens ts = .ok p ↔ Grammar.Program ts p) ∧
      ∀ ts : List Token, {p : Program | Grammar.Program ts p}.Subsingleton := by
  refine ⟨fun ts p => ofTokens_eq_ok_iff, ?_⟩
  intro ts p hp q hq
  have h : Except.ok p = (Except.ok q : Except SyntaxError Program) :=
    (ofTokens_eq_ok_iff.mpr hp).symm.trans (ofTokens_eq_ok_iff.mpr hq)
  exact Except.ok.inj h

theorem ofSource_of_tokens {source : String} {ts : List Token} {p : Program}
    (hts : Token.ofSource source = .ok ts) (hp : Grammar.Program ts p) :
    ofSource source = .ok p := by
  rw [ofSource, hts]
  exact ofTokens_eq_ok_iff.mpr hp

theorem ofSource_eq_ok_iff {source : String} {p : Program} :
    ofSource source = .ok p ↔
      ∃ ps, Lexical.Munch source.toList ps [] ∧ Grammar.Program (Lexical.placed 1 ps) p := by
  constructor
  · intro h
    obtain ⟨ts, hts, hp⟩ := Except.bind_eq_ok h
    obtain ⟨ps, hm, rfl⟩ := Lexical.ofSource_eq_ok_iff.mp hts
    exact ⟨ps, hm, ofTokens_eq_ok_iff.mp hp⟩
  · rintro ⟨ps, hm, hp⟩
    exact ofSource_of_tokens (Lexical.ofSource_eq_ok_iff.mpr ⟨ps, hm, rfl⟩) hp

end Program
end ScalarScript
