import ScalarScript.Proofs.Lexical.Boundary
import ScalarScript.Token.Cursor

/-!
# Positions

A token is on the line where its lexeme begins, which is one more than the number of line ends in
front of it. A cursor comes to that line by counting. What it adds for a lexeme are the line ends in
it, as only line ends and block comments hold any, so behind each lexeme its count is right. A line
end has then been counted itself, and the step back is over it: no count is ever zero there.
-/

namespace ScalarScript
namespace Lexical

variable {line : ℕ} {r : Rule} {w cs : List Char} {l : Lexeme}
variable {ps : List (Rule × List Char)}

theorem lineEnds_eq_count (hw : w ∈ language r) : r.lineEnds w = w.count '\n' := by
  by_cases h : '\n' ∈ w
  · rcases eq_or_blockComment_of_lineEnd hw h with rfl | rfl
    · have hmem : ['\n'] ∈ language .symbol := ⟨'\n', by simp, rfl⟩
      obtain rfl := rule_unique hw hmem
      rfl
    · rfl
  · have hne : w ≠ ['\n'] := by
      rintro rfl
      exact h (List.mem_singleton_self _)
    rw [List.count_eq_zero.mpr h]
    cases r with
    | symbol => exact if_neg hne
    | blockComment => exact List.count_eq_zero.mpr h
    | _ => rfl

/-- Behind a lexeme the count is that in front of it and the line ends in the lexeme. -/
theorem IsLexeme.advance (h : IsLexeme r w (w ++ cs)) (line : ℕ) :
    Cursor.advance ⟨line, w ++ cs⟩ r = ⟨line + w.count '\n', cs⟩ := by
  rw [Cursor.advance, h.length_eq, List.take_left, List.drop_left, lineEnds_eq_count h.mem]

theorem next?_stuck (h : Stuck cs) :
    Cursor.next? ⟨line, cs⟩ = cs.head?.map fun c => (.error c, ⟨line, cs⟩) :=
  Cursor.next?_of_stuck _ (stuck_iff.mp h)

theorem IsLexeme.take_length (h : IsLexeme r w (w ++ cs)) :
    (w ++ cs).take (r.length (w ++ cs)) = w := by
  rw [h.length_eq, List.take_left]

theorem IsLexeme.next?_lexeme (h : IsLexeme r w (w ++ cs)) (hr : r.lexeme? w = some l) :
    Cursor.next? ⟨line, w ++ cs⟩ = some (.ok l, ⟨line + w.count '\n', cs⟩) := by
  rw [Cursor.next?_of_lexeme ⟨line, w ++ cs⟩ h.longest?_eq (h.take_length.symm ▸ hr), h.advance]

/-- Only the count stays of a lexeme that is skipped. -/
theorem IsLexeme.next?_skipped (h : IsLexeme r w (w ++ cs)) (hr : r.lexeme? w = none) :
    Cursor.next? ⟨line, w ++ cs⟩ = Cursor.next? ⟨line + w.count '\n', cs⟩ := by
  rw [Cursor.next?_of_skipped ⟨line, w ++ cs⟩ h.longest?_eq (h.take_length.symm ▸ hr), h.advance]

/-- The step back leads to the line where the lexeme begins. -/
theorem lineOf_behind (hw : w ∈ language r) (hr : r.lexeme? w = some l) (line : ℕ) :
    Cursor.lineOf l (line + w.count '\n') = some line := by
  have hskipped : isSkipped r = false := by
    by_contra h
    rw [lexeme?_of_skipped (Bool.eq_true_of_not_eq_false h)] at hr
    cases hr
  obtain ⟨l', hl', hdenotes⟩ := lexeme?_of_mem hw hskipped
  obtain rfl := Option.some.inj (hr.symm.trans hl')
  by_cases hl : l = .newLine
  · subst hl
    rw [hdenotes.eq_of_newLine]
    rfl
  · have hlineEnd : '\n' ∉ w := by
      intro h
      rcases eq_or_blockComment_of_lineEnd hw h with rfl | rfl
      · obtain rfl := rule_unique hw (t := .symbol) ⟨'\n', by simp, rfl⟩
        exact hl (Option.some.inj hr).symm
      · cases hskipped
    rw [Cursor.lineOf, if_neg hl, List.count_eq_zero.mpr hlineEnd, Nat.add_zero]

/-- The cursor finds the tokens of the scan, whatever line it counts from. -/
theorem Munch.tokens_eq {rest : List Char} (h : Munch cs ps rest) (line : ℕ) :
    Cursor.tokens ⟨line, cs⟩ = some (Token.scan line cs) := by
  induction h generalizing line with
  | @stuck cs hs =>
    cases cs with
    | nil =>
      rw [Cursor.tokens_of_end (next?_stuck hs), Token.scan]
    | cons c cs =>
      rw [Cursor.tokens_of_stray (next?_stuck hs), Token.scan_of_stray (stuck_iff.mp hs)]
  | @lexeme r w cs ps rest hl _ ih =>
    rw [scan_append hl]
    cases hr : r.lexeme? w with
    | none =>
      rw [Cursor.tokens_congr (hl.next?_skipped hr), ih]
      cases Token.scan (line + w.count '\n') cs <;> rfl
    | some l =>
      rw [Cursor.tokens_of_lexeme (hl.next?_lexeme hr), lineOf_behind hl.mem hr, ih]
      rfl

/-- Reading with a count of lines gives the tokens of the text, and never steps back from zero. -/
theorem tokens_start (source : String) :
    (Cursor.start source).tokens = some (Token.ofSource source) := by
  obtain ⟨ps, rest, h⟩ := exists_munch source.toList
  exact h.tokens_eq 1

/-- The token is number `i` in a text that is cut into the lexemes `ps` and begins on the given
line: it stands for the lexeme with `i` others in front of it that are not skipped, and has the line
where that lexeme begins. -/
def IsPlaced (line : ℕ) (ps : List (Rule × List Char)) (i : ℕ) (t : Token) : Prop :=
  ∃ front r w back, ps = front ++ (r, w) :: back ∧ isSkipped r = false ∧
    (front.filter (!isSkipped ·.1)).length = i ∧ Denotes r w t.lexeme ∧
    t.line = line + (text front).count '\n'

variable {i : ℕ} {t : Token}

theorem count_text_cons (r : Rule) (w : List Char) (ps : List (Rule × List Char)) :
    (text ((r, w) :: ps)).count '\n' = w.count '\n' + (text ps).count '\n' :=
  List.count_append

theorem IsPlaced.behind_skipped (h : IsPlaced (line + w.count '\n') ps i t)
    (hr : isSkipped r = true) : IsPlaced line ((r, w) :: ps) i t := by
  obtain ⟨front, s, v, back, rfl, hs, hi, hdenotes, hline⟩ := h
  refine ⟨(r, w) :: front, s, v, back, rfl, hs, ?_, hdenotes, ?_⟩
  · rw [List.filter_cons_of_neg (by simp [hr]), hi]
  · rw [hline, count_text_cons, Nat.add_assoc]

theorem IsPlaced.behind_token (h : IsPlaced (line + w.count '\n') ps i t)
    (hr : isSkipped r = false) : IsPlaced line ((r, w) :: ps) (i + 1) t := by
  obtain ⟨front, s, v, back, rfl, hs, hi, hdenotes, hline⟩ := h
  refine ⟨(r, w) :: front, s, v, back, rfl, hs, ?_, hdenotes, ?_⟩
  · rw [List.filter_cons_of_pos (by simp [hr]), List.length_cons, hi]
  · rw [hline, count_text_cons, Nat.add_assoc]

theorem Munch.isPlaced {rest : List Char} (h : Munch cs ps rest)
    (ht : (placed line ps)[i]? = some t) : IsPlaced line ps i t := by
  induction h generalizing line i with
  | stuck => cases ht
  | @lexeme r w cs ps rest hl _ ih =>
    rw [placed] at ht
    cases hr : isSkipped r with
    | true =>
      rw [lexeme?_of_skipped hr] at ht
      exact (ih ht).behind_skipped hr
    | false =>
      obtain ⟨l, hlexeme, hdenotes⟩ := lexeme?_of_mem hl.mem hr
      rw [hlexeme] at ht
      cases i with
      | zero =>
        cases ht
        exact ⟨[], r, w, ps, rfl, hr, rfl, hdenotes, rfl⟩
      | succ i => exact (ih ht).behind_token hr

theorem line_le_of_mem_placed (ht : t ∈ placed line ps) : line ≤ t.line := by
  induction ps generalizing line with
  | nil => cases ht
  | cons p ps ih =>
    obtain ⟨r, w⟩ := p
    rcases List.mem_append.mp ht with hfirst | hrest
    · obtain ⟨l, -, rfl⟩ := Option.map_eq_some_iff.mp (Option.mem_toList.mp hfirst)
      exact le_refl line
    · exact (Nat.le_add_right line _).trans (ih hrest)

theorem pairwise_placed (line : ℕ) (ps : List (Rule × List Char)) :
    (placed line ps).Pairwise (·.line ≤ ·.line) := by
  induction ps generalizing line with
  | nil => exact .nil
  | cons p ps ih =>
    obtain ⟨r, w⟩ := p
    rw [placed]
    cases r.lexeme? w with
    | none => exact ih _
    | some l =>
      refine .cons (fun t ht => ?_) (ih _)
      exact (Nat.le_add_right line _).trans (line_le_of_mem_placed ht)

theorem line_strayCharacter (c : Char) (n : ℕ) : (Token.strayCharacter c n).line = n := by
  unfold Token.strayCharacter
  split <;> rfl

/-- A count of lines that is kept while the text is read is never stepped back from zero and gives
the tokens of the text. Each has one more than the number of line ends in front of its lexeme as its
line, so lines begin at one and do not decrease, and so has the character that is refused. -/
theorem ofSource_lines (source : String) :
    (Cursor.start source).tokens = some (Token.ofSource source) ∧
    (∀ ts, Token.ofSource source = .ok ts →
      (∃ ps, Munch source.toList ps [] ∧ source.toList = text ps ∧
        ts.length = (ps.filter (!isSkipped ·.1)).length ∧
        ∀ i t, ts[i]? = some t → IsPlaced 1 ps i t) ∧
      (∀ t ∈ ts, 1 ≤ t.line) ∧ ts.Pairwise (·.line ≤ ·.line)) ∧
    ∀ e, Token.ofSource source = .error e →
      ∃ ps c cs, Munch source.toList ps (c :: cs) ∧ source.toList = text ps ++ c :: cs ∧
        e = Token.strayCharacter c (1 + (text ps).count '\n') ∧
        e.line = 1 + (text ps).count '\n' := by
  refine ⟨tokens_start source, ?_, ?_⟩
  · intro ts hts
    obtain ⟨ps, hps, rfl⟩ := ofSource_eq_ok_iff.mp hts
    refine ⟨⟨ps, hps, ?_, ?_, ?_⟩, ?_, pairwise_placed 1 ps⟩
    · simpa using hps.eq_text_append
    · exact (hps.denotes 1).length_eq.symm
    · intro i t ht
      exact hps.isPlaced ht
    · intro t ht
      exact line_le_of_mem_placed ht
  · intro e he
    obtain ⟨ps, rest, hps⟩ := exists_munch source.toList
    rw [Token.ofSource, hps.scan_eq 1] at he
    cases rest with
    | nil => cases he
    | cons c cs =>
      cases he
      exact ⟨ps, c, cs, hps, hps.eq_text_append, rfl, line_strayCharacter c _⟩

/-- The line end behind a comment of two lines ends the second one. -/
theorem ofSource_lines_comment :
    (Cursor.start "/*\n*/\nx").tokens = some (.ok [⟨.newLine, 2⟩, ⟨.name "x", 3⟩]) ∧
    ∃ ps, Munch "/*\n*/\nx".toList ps [] ∧ IsPlaced 1 ps 0 ⟨.newLine, 2⟩ ∧
      IsPlaced 1 ps 1 ⟨.name "x", 3⟩ := by
  have htokens : Token.ofSource "/*\n*/\nx" = .ok [⟨.newLine, 2⟩, ⟨.name "x", 3⟩] := by
    decide +kernel
  obtain ⟨hcursor, hlines, -⟩ := ofSource_lines "/*\n*/\nx"
  obtain ⟨⟨ps, hps, -, -, hplaced⟩, -⟩ := hlines _ htokens
  exact ⟨hcursor.trans (congrArg some htokens), ps, hps, hplaced 0 _ rfl, hplaced 1 _ rfl⟩

end Lexical
end ScalarScript
