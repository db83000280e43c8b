import ScalarScript.Proofs.Lexical.Positions
import ScalarScript.Proofs.Phrase.Places
import ScalarScript.Proofs.Program.Viability
import ScalarScript.Proofs.Program.Visits
import ScalarScript.Script

/-!
# Lines of a source

All lines that a reading of a text gives out are lines of its tokens or of the character that it
stops at, so they count from one to the number of lines of the text. For an error this takes the
program to place the one end that has no line of its own: it is reached only where some token was
read before. The statements of a program take their lines from tokens in order, so these do not
decrease.
-/

namespace ScalarScript

namespace Expr

/-- The lines of all nodes. -/
def lines (e : Expr) : List Nat := e.nodes.map line

def linesAll (es : List Expr) : List Nat := (nodesAll es).map line

@[simp] theorem lines_number (x : Float) (n : Nat) : (number x n).lines = [n] := rfl

@[simp] theorem lines_name (s : String) (n : Nat) : (name s n).lines = [n] := rfl

@[simp] theorem lines_negation (e : Expr) (n : Nat) : (negation e n).lines = n :: e.lines := rfl

@[simp] theorem lines_binary (op : Operator) (l r : Expr) (n : Nat) :
    (binary op l r n).lines = n :: (l.lines ++ r.lines) := by
  simp [lines, nodes, line]

@[simp] theorem lines_call (f : String) (es : List Expr) (n : Nat) :
    (call f es n).lines = n :: linesAll es := rfl

@[simp] theorem linesAll_nil : linesAll [] = [] := rfl

@[simp] theorem linesAll_cons (e : Expr) (es : List Expr) :
    linesAll (e :: es) = e.lines ++ linesAll es := by
  simp [linesAll, lines, nodesAll]

end Expr

namespace Statement

def line : Statement → Nat
  | assignment _ _ n | expression _ n => n

def lines (s : Statement) : List Nat := s.line :: s.expr.lines

end Statement

def Program.lines (p : Program) : List Nat := p.flatMap Statement.lines

namespace Grammar

variable {ts : List Token}

theorem hereditary_lines :
    Hereditary (fun ts e => e.lines ⊆ ts.map Token.line)
      fun ts es => Expr.linesAll es ⊆ ts.map Token.line where
  number _ _ := by simp
  name _ _ := by simp
  negation _ h := List.cons_subset_cons _ h
  binary _ _ hl _ hr := by
    rw [Expr.lines_binary, List.map_append, List.map_cons]
    grind
  call _ _ _ _ h := by
    rw [Expr.lines_call, List.map_cons, List.map_cons, List.map_append]
    grind
  paren _ _ h := by
    rw [List.map_cons, List.map_append]
    grind
  none := List.nil_subset _
  last h := by simpa using h
  more _ h _ hs := by
    rw [Expr.linesAll_cons, List.map_append, List.map_cons]
    grind

theorem Statement.lines_subset {s : ScalarScript.Statement} (h : Statement ts s) :
    s.lines ⊆ ts.map Token.line := by
  cases h with
  | @assignment x n m ts e h =>
    have hvalue := hereditary_lines.chain h
    show n :: e.lines ⊆ n :: m :: ts.map Token.line
    grind
  | expression h => exact List.cons_subset.mpr ⟨List.mem_cons_self, hereditary_lines.chain h⟩

/-- A statement is on the line of its first token. -/
theorem Statement.line_sublist {s : ScalarScript.Statement} (h : Statement ts s) :
    List.Sublist [s.line] (ts.map Token.line) := by
  cases h with
  | assignment _ | expression _ => exact List.singleton_sublist.mpr List.mem_cons_self

theorem Program.lines_subset {p : ScalarScript.Program} (h : Program ts p) :
    p.lines ⊆ ts.map Token.line := by
  refine Program.of_parts h ?_ ?_ ?_
  · intro ts _
    exact List.nil_subset _
  · intro ts s hs
    simpa [Program.lines] using hs.lines_subset
  · intro xs ys p q hp hq
    rw [Program.lines, List.flatMap_append, List.map_append]
    exact List.append_subset.mpr
      ⟨List.subset_append_of_subset_left _ hp, List.subset_append_of_subset_right _ hq⟩

/-- The lines of the statements are those of some tokens, in order. -/
theorem Program.lines_sublist {p : ScalarScript.Program} (h : Program ts p) :
    List.Sublist (p.map ScalarScript.Statement.line) (ts.map Token.line) := by
  refine Program.of_parts h ?_ ?_ ?_
  · intro ts _
    exact List.nil_sublist _
  · intro ts s hs
    exact hs.line_sublist
  · intro xs ys p q hp hq
    rw [List.map_append, List.map_append]
    exact hp.append hq

end Grammar

namespace Phrase

theorem statement_placed {ts : List Token} {e : SyntaxError}
    (h : bare (statement ts) = .error e) : e.Placed ts := by
  rcases assignment_or_not ts with ⟨name, n, m, us, rfl⟩ | hn
  · rw [bare_statement_assignment] at h
    rcases Except.bind_eq_error h with hc | ⟨_, _, hx⟩
    · exact ((chain_placed hc).cons _).cons _
    · cases hx
  · rw [bare_statement_expression hn] at h
    rcases Except.bind_eq_error h with hc | ⟨_, _, hx⟩
    · exact chain_placed hc
    · cases hx

end Phrase

namespace Program

open Phrase Lexical

theorem statements_placed {ts : List Token} {e : SyntaxError} (h : statements ts = .error e) :
    e.Placed ts := by
  match ts with
  | [] =>
    rw [statements_nil] at h
    cases h
  | t :: us =>
    cases ht : t.lexeme.isSeparator with
    | true =>
      rw [statements_separator ht] at h
      exact (statements_placed h).cons t
    | false =>
      rw [statements_statement ht] at h
      rcases Except.bind_eq_error h with
        hs | ⟨⟨s, rest⟩, hs, (hafter : afterStatement s rest = .error e)⟩
      · exact statement_placed hs
      · have hlt := length_lt_of_bare hs
        refine SyntaxError.Placed.mono ?_ (statement_sound hs).subset
        cases rest with
        | nil => cases hafter
        | cons next rest =>
          cases hnext : next.lexeme.isSeparator with
          | true =>
            rw [afterStatement_separator hnext] at hafter
            exact (statements_placed (Except.map_eq_error hafter)).cons next
          | false =>
            rw [afterStatement_other hnext] at hafter
            cases hafter
            exact SyntaxError.placed_of_line_eq rfl
termination_by ts.length
decreasing_by
  · exact Nat.lt_of_succ_lt hlt
  · exact Nat.lt_succ_self us.length

/-- Once the program has placed the end of its tokens, every error is on the line of a token. -/
theorem exists_token_of_ofTokens {ts : List Token} {e : SyntaxError}
    (h : ofTokens ts = .error e) : ∃ t ∈ ts, t.line = e.line := by
  obtain ⟨e, hs, rfl⟩ := ofTokens_eq_error h
  have hne : ts ≠ [] := by
    rintro rfl
    rw [statements_nil] at hs
    cases hs
  have hlast : lastLine ts = (ts.getLast hne).line := by
    simp [lastLine, List.getLast?_eq_some_getLast hne]
  by_cases hend : e = .unexpectedEnd 0
  · subst hend
    exact ⟨ts.getLast hne, List.getLast_mem hne, hlast.symm⟩
  · have hkept : e.placeEnd (lastLine ts) = e := by
      unfold SyntaxError.placeEnd
      split
      next => exact absurd rfl hend
      next => rfl
    rw [hkept]
    exact (statements_placed hs).resolve_left hend

variable {source : String} {e : SyntaxError}

theorem line_mem_of_tokens {ts : List Token} (h : Token.ofSource source = .ok ts) {t : Token}
    (ht : t ∈ ts) : t.line ∈ Set.Icc 1 (1 + source.toList.count '\n') := by
  obtain ⟨ps, hps, rfl⟩ := Lexical.ofSource_eq_ok_iff.mp h
  refine ⟨line_le_of_mem_placed ht, ?_⟩
  obtain ⟨i, hi⟩ := List.mem_iff_getElem?.mp ht
  obtain ⟨front, r, w, back, rfl, -, -, -, hline⟩ := hps.isPlaced hi
  have hcut : text (front ++ (r, w) :: back) = text front ++ text ((r, w) :: back) := by
    simp [text]
  rw [hline, hps.eq_text_append, hcut, List.append_nil, List.count_append]
  omega

/-- What an error stands at: a token of the text, or the character that no token begins with. -/
inductive StandsAt (source : String) (e : SyntaxError) : Prop
  | token {ts : List Token} {t : Token} : Token.ofSource source = .ok ts → t ∈ ts →
    e.line = t.line → StandsAt source e
  | character {front : List Char} {c : Char} {back : List Char} :
    source.toList = front ++ c :: back → Stuck (c :: back) → Token.ofSource source = .error e →
    e = Token.strayCharacter c (1 + front.count '\n') →
    e.line = 1 + front.count '\n' → StandsAt source e

/-- Reading the text fails with the error, whether it is only read or also run. -/
def Reports (source : String) (e : SyntaxError) : Prop :=
  ofSource source = .error e ∨ (∃ env, Script.runIn env source = .error e) ∨
    Script.run source = .error e ∨ Script.result source = .error (.unreadable e)

theorem ofSource_of_reports (h : Reports source e) : ofSource source = .error e := by
  rcases h with h | ⟨env, h⟩ | h | h
  · exact h
  · exact Except.map_eq_error h
  · exact Except.map_eq_error h
  · unfold Script.result at h
    split at h
    next e' hrun =>
      cases h
      exact Except.map_eq_error hrun
    next => cases h
    next => cases h

theorem standsAt_of_ofSource (h : ofSource source = .error e) : StandsAt source e := by
  rw [ofSource] at h
  rcases Except.bind_eq_error h with hts | ⟨ts, hts, hp⟩
  · obtain ⟨ps, rest, hps⟩ := exists_munch source.toList
    have hscan := hps.scan_eq 1
    rw [← Token.ofSource, hts] at hscan
    cases rest with
    | nil => cases hscan
    | cons c rest =>
      cases hscan
      exact .character hps.eq_text_append hps.stuck_rest hts rfl (line_strayCharacter c _)
  · obtain ⟨t, ht, hline⟩ := exists_token_of_ofTokens hp
    exact .token hts ht hline.symm

theorem StandsAt.line_mem (h : StandsAt source e) :
    e.line ∈ Set.Icc 1 (1 + source.toList.count '\n') := by
  cases h with
  | token hts ht hline =>
    rw [hline]
    exact line_mem_of_tokens hts ht
  | character hsource _ _ _ hline =>
    rw [hline, hsource, List.count_append]
    exact ⟨by omega, by omega⟩

/-- An error of a text, however it is run, is on one of its lines, and what it stands at is there.
The lines of a program that is read are lines of its text, and those of its statements do not
decrease. -/
theorem ofSource_within_lines (source : String) :
    (∀ e, Reports source e →
      e.line ∈ Set.Icc 1 (1 + source.toList.count '\n') ∧ StandsAt source e) ∧
    ∀ p, ofSource source = .ok p →
      (∀ n ∈ p.lines, n ∈ Set.Icc 1 (1 + source.toList.count '\n')) ∧
        (p.map Statement.line).Pairwise (· ≤ ·) := by
  constructor
  · intro e he
    have hstands := standsAt_of_ofSource (ofSource_of_reports he)
    exact ⟨hstands.line_mem, hstands⟩
  · intro p hp
    obtain ⟨ts, hts, hread⟩ := Except.bind_eq_ok hp
    have hgrammar := ofTokens_eq_ok_iff.mp hread
    constructor
    · intro n hn
      obtain ⟨t, ht, rfl⟩ := List.mem_map.mp (hgrammar.lines_subset hn)
      exact line_mem_of_tokens hts ht
    · obtain ⟨ps, -, rfl⟩ := Lexical.ofSource_eq_ok_iff.mp hts
      exact (List.pairwise_map.mpr (pairwise_placed 1 ps)).sublist hgrammar.lines_sublist

/-- The end behind `x =` has no line where it is found, and the program places it on the second
one. -/
theorem ofSource_within_lines_of_end :
    Reports "\nx =" (.unexpectedEnd 2) ∧ (2 : Nat) ∈ Set.Icc 1 (1 + "\nx =".toList.count '\n') ∧
      StandsAt "\nx =" (.unexpectedEnd 2) := by
  have htokens : Token.ofSource "\nx =" =
      .ok [⟨.newLine, 1⟩, ⟨.name "x", 2⟩, ⟨.equals, 2⟩] := by
    decide +kernel
  have hend : bare (chain .sum []) = .error (.unexpectedEnd 0) :=
    bare_chain_eq_error bare_primary_nil (by simp)
  have herror : ofSource "\nx =" = .error (.unexpectedEnd 2) := by
    rw [ofSource, htokens]
    show ofTokens _ = _
    rw [ofTokens, statements_separator rfl, statements_statement rfl, bare_statement_assignment,
      hend]
    rfl
  have hreports : Reports "\nx =" (.unexpectedEnd 2) := Or.inl herror
  exact ⟨hreports, (ofSource_within_lines "\nx =").1 _ hreports⟩

end Program
end ScalarScript
