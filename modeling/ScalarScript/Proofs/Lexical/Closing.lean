import ScalarScript.Proofs.Lexical.Layout

/-!
# Ends of block comments

A block comment goes as far as the first closing mark behind the two characters that open it; the
opening star is not part of a mark. Without such a mark there is no comment: the slash is a lexeme
of its own, and the text goes on with the star.
-/

namespace ScalarScript
namespace Lexical

variable {w s cs : List Char} {i : ℕ}

/-- A closing mark begins at the index, not counting one that takes in the opening star. -/
def ClosesAt (s : List Char) (i : ℕ) : Prop := 2 ≤ i ∧ ['*', '/'] <+: s.drop i

theorem closesAt_iff :
    ClosesAt ('/' :: '*' :: cs) i ↔ ∃ u rest, cs = u ++ '*' :: '/' :: rest ∧ i = u.length + 2 := by
  constructor
  · rintro ⟨hi, rest, hrest⟩
    obtain ⟨k, rfl⟩ := Nat.exists_eq_add_of_le' hi
    have hdrop : cs.drop k = '*' :: '/' :: rest := by simpa using hrest.symm
    have hlt : k < cs.length := by
      by_contra hle
      rw [List.drop_eq_nil_of_le (Nat.le_of_not_lt hle)] at hdrop
      cases hdrop
    refine ⟨cs.take k, rest, ?_, ?_⟩
    · rw [← hdrop, List.take_append_drop]
    · simp [hlt.le]
  · rintro ⟨u, rest, rfl, rfl⟩
    exact ⟨by omega, rest, by simp⟩

theorem unclosed_iff : Unclosed cs ↔ ∀ i, ¬ ClosesAt ('/' :: '*' :: cs) i := by
  constructor
  · intro h i hi
    obtain ⟨u, rest, rfl, -⟩ := closesAt_iff.mp hi
    exact h ⟨u, rest, by simp⟩
  · rintro h ⟨u, rest, rfl⟩
    exact h (u.length + 2) (closesAt_iff.mpr ⟨u, rest, by simp, rfl⟩)

/-- In front of the first closing mark there is none. -/
theorem exists_of_isLeast (h : IsLeast {i | ClosesAt ('/' :: '*' :: cs) i} i) :
    ∃ u rest, cs = u ++ '*' :: '/' :: rest ∧ Unclosed u ∧ i = u.length + 2 := by
  obtain ⟨u, rest, rfl, rfl⟩ := closesAt_iff.mp h.1
  refine ⟨u, rest, rfl, ?_, rfl⟩
  rintro ⟨a, b, rfl⟩
  have hearlier := h.2 (closesAt_iff.mpr ⟨a, b ++ '*' :: '/' :: rest, by simp, rfl⟩)
  simp only [List.length_append, List.length_cons] at hearlier
  omega

/-- The words are the texts between the two marks that hold no closing mark themselves. -/
theorem mem_blockComment_iff :
    w ∈ language .blockComment ↔ ∃ u, Unclosed u ∧ w = ['/', '*'] ++ u ++ ['*', '/'] := by
  constructor
  · intro hw
    obtain ⟨v, rfl⟩ := blockComment_starts hw
    have hlength := length_blockComment_append hw []
    obtain ⟨v', n, heq, hn⟩ := exists_of_blockComment_pos (hlength ▸ length_pos_of_mem hw)
    obtain rfl : v = v' := by simpa using heq
    obtain ⟨u, rest, rfl, hu, rfl⟩ := throughClose_eq_some_iff.mp hn
    rw [List.append_nil, Rule.length, hn] at hlength
    have hrest : rest = [] := List.length_eq_zero_iff.mp (by simp at hlength; omega)
    exact ⟨u, hu, by simp [hrest]⟩
  · rintro ⟨u, hu, rfl⟩
    simpa using mem_blockComment hu

theorem isLexeme_blockComment {u : List Char} (hu : Unclosed u) (rest : List Char) :
    IsLexeme .blockComment (['/', '*'] ++ u ++ ['*', '/'])
      (['/', '*'] ++ u ++ ['*', '/'] ++ rest) := by
  have hmem := mem_blockComment hu
  simpa using isLexeme_of_slash hmem (length_blockComment_append hmem rest)

/-- A slash opens no comment in front of a star that no closing mark follows. -/
theorem isLexeme_slash_of_unclosed (h : Unclosed cs) :
    IsLexeme .symbol ['/'] (['/'] ++ '*' :: cs) where
  mem := ⟨'/', by simp, rfl⟩
  front := List.prefix_append _ _
  longest t v hv hfront := by
    match v, hfront with
    | [], _ => exact Nat.zero_le _
    | [_], _ => exact Nat.le_refl _
    | a :: b :: v, hfront =>
      obtain ⟨rfl, hrest⟩ := List.cons_prefix_cons.mp hfront
      obtain ⟨rfl, hv'⟩ := List.cons_prefix_cons.mp hrest
      obtain rfl : t = .blockComment := Option.some.inj (ruleOf?_of_mem hv).symm
      obtain ⟨u, -, heq⟩ := mem_blockComment_iff.mp hv
      obtain rfl : v = u ++ ['*', '/'] := by simpa using heq
      exact absurd ((List.suffix_append u _).isInfix.trans hv'.isInfix) h

/-- The text of a comment is skipped up to and with the first closing mark, and where there is none
the slash and the star are lexemes of their own. So the words of block comments are the texts from
an opening mark to a closing one with no closing mark between them. -/
theorem scan_ends_at_first_close (s : List Char) (hs : ['/', '*'] <+: s) (line : ℕ) :
    (∀ i, IsLeast {i | ClosesAt s i} i →
      IsLexeme .blockComment (s.take (i + 2)) s ∧
        Token.scan line s =
          Token.scan (line + (s.take (i + 2)).count '\n') (s.drop (i + 2))) ∧
    ((∀ i, ¬ ClosesAt s i) →
      IsLexeme .symbol ['/'] s ∧
        Token.scan line s = (Token.scan line (s.drop 1)).map (⟨.slash, line⟩ :: ·) ∧
        Token.scan line (s.drop 1) = (Token.scan line (s.drop 2)).map (⟨.star, line⟩ :: ·)) ∧
    ∀ w, w ∈ language .blockComment ↔
      ∃ u, ¬ ['*', '/'] <:+: u ∧ w = ['/', '*'] ++ u ++ ['*', '/'] := by
  obtain ⟨cs, rfl⟩ := hs
  refine ⟨?_, ?_, fun w => mem_blockComment_iff⟩
  · intro i hi
    obtain ⟨u, rest, rfl, hu, rfl⟩ := exists_of_isLeast hi
    have hcut : ['/', '*'] ++ (u ++ '*' :: '/' :: rest) =
        ['/', '*'] ++ u ++ ['*', '/'] ++ rest := by simp
    have hlength : u.length + 2 + 2 = (['/', '*'] ++ u ++ ['*', '/']).length := by simp
    have hlexeme := isLexeme_blockComment hu rest
    rw [hcut, hlength, List.take_left, List.drop_left]
    exact ⟨hlexeme, scan_skipped hlexeme rfl⟩
  · intro hnone
    have hslash := isLexeme_slash_of_unclosed (unclosed_iff.mpr hnone)
    exact ⟨hslash, scan_append hslash line, scan_symbol (by decide) rfl cs⟩

/-- The star that opens a comment belongs to no closing mark, and of a run of stars only the last one
does. -/
theorem scan_ends_at_first_close_of_run :
    IsLeast {i | ClosesAt "/*/ **/2".toList i} 5 ∧
      Token.scan 1 "/*/ **/2".toList = .ok [⟨.number 2, 1⟩] ∧
      Token.scan 1 "/*/2".toList =
        .ok [⟨.slash, 1⟩, ⟨.star, 1⟩, ⟨.slash, 1⟩, ⟨.number 2, 1⟩] := by
  have hfirst : IsLeast {i | ClosesAt "/*/ **/2".toList i} 5 := by
    refine ⟨⟨by decide, by decide⟩, fun i hi => ?_⟩
    by_contra hlt
    have hlt : i < 5 := by omega
    obtain ⟨h2, hfront⟩ := hi
    interval_cases i <;> revert hfront <;> decide
  have hbody : Unclosed ['/', '2'] := by
    unfold Unclosed
    decide
  have hnone : ∀ i, ¬ ClosesAt "/*/2".toList i := unclosed_iff.mp hbody
  have hclosed := (scan_ends_at_first_close "/*/ **/2".toList (by decide) 1).1 5 hfirst
  have hopen := (scan_ends_at_first_close "/*/2".toList (by decide) 1).2.1 hnone
  refine ⟨hfirst, ?_, ?_⟩
  · rw [hclosed.2]
    decide +kernel
  · rw [hopen.2.1, hopen.2.2]
    decide +kernel

end Lexical
end ScalarScript
