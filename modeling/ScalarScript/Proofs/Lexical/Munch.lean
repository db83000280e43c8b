import ScalarScript.Proofs.Lexical.Comment
import ScalarScript.Token.Reading

/-!
# Maximal munch

A text is cut from the left into lexemes, each the longest word that any rule has there, until no
rule has a word. The cut is unique because the rules are disjoint, and it determines the tokens: the
lexemes that are not skipped give them in order, and a character where no rule has a word is the
error.
-/

namespace ScalarScript
namespace Lexical

/-- The scanned length of each rule is that of its longest word. -/
theorem measures (r : Rule) : Measures (language r) r.length := by
  cases r with
  | number => exact measures_number
  | pointNumber => exact measures_pointNumber
  | name => exact measures_name
  | symbol => exact measures_symbol
  | lineComment => exact measures_lineComment
  | blockComment => exact measures_blockComment
  | blank => exact measures_blank

/-- `w` is the longest word of any rule in front of `cs`, and `r` is its rule. -/
structure IsLexeme (r : Rule) (w cs : List Char) : Prop where
  mem : w ∈ language r
  front : w <+: cs
  longest : ∀ (s : Rule) (v : List Char), v ∈ language s → v <+: cs → v.length ≤ w.length

/-- No rule has a word in front of `cs`. -/
def Stuck (cs : List Char) : Prop :=
  ∀ (r : Rule) (w : List Char), w ∈ language r → ¬ w <+: cs

/-- The lexemes of a text from the left, and what is left where no rule has a word. -/
inductive Munch : List Char → List (Rule × List Char) → List Char → Prop
  | stuck {cs} : Stuck cs → Munch cs [] cs
  | lexeme {r w cs ps rest} : IsLexeme r w (w ++ cs) → Munch cs ps rest →
      Munch (w ++ cs) ((r, w) :: ps) rest

variable {r s : Rule} {w v cs : List Char}

theorem length_le_of_front (hw : w ∈ language r) (h : w <+: cs) : w.length ≤ r.length cs := by
  obtain ⟨rest, rfl⟩ := h
  exact (measures r).length_le hw

theorem length_pos_of_mem (hw : w ∈ language r) : 0 < w.length := by
  apply List.length_pos_of_ne_nil
  rintro rfl
  have := ruleOf?_of_mem hw
  cases this

theorem take_length_mem (h : 0 < r.length cs) : cs.take (r.length cs) ∈ language r :=
  (measures r).take_mem h

theorem isLexeme_of_longest? (h : Rule.longest? cs = some r) :
    IsLexeme r (cs.take (r.length cs)) cs where
  mem := take_length_mem (Rule.length_pos_of_longest? h)
  front := List.take_prefix _ _
  longest s v hv hfront := by
    rw [List.length_take, Nat.min_eq_left (r.length_le cs)]
    exact (length_le_of_front hv hfront).trans (Rule.length_le_of_longest? h s)

theorem stuck_iff : Stuck cs ↔ Rule.longest? cs = none := by
  rw [Rule.longest?_eq_none_iff]
  constructor
  · intro h r
    by_contra hne
    exact h r _ (take_length_mem (Nat.pos_of_ne_zero hne)) (List.take_prefix _ _)
  · intro h r w hw hfront
    have hle := length_le_of_front hw hfront
    have hpos := length_pos_of_mem hw
    rw [h r] at hle
    omega

theorem IsLexeme.unique (h : IsLexeme r w cs) (h' : IsLexeme s v cs) : r = s ∧ w = v := by
  have hlen : w.length = v.length :=
    Nat.le_antisymm (h'.longest r w h.mem h.front) (h.longest s v h'.mem h'.front)
  have heq : w = v := by
    rw [List.prefix_iff_eq_take.mp h.front, List.prefix_iff_eq_take.mp h'.front, hlen]
  subst heq
  exact ⟨rule_unique h.mem h'.mem, rfl⟩

theorem IsLexeme.not_stuck (h : IsLexeme r w cs) : ¬ Stuck cs :=
  fun hs => hs r w h.mem h.front

theorem IsLexeme.longest?_eq (h : IsLexeme r w cs) : Rule.longest? cs = some r := by
  cases hl : Rule.longest? cs with
  | none => exact absurd (stuck_iff.mpr hl) h.not_stuck
  | some s => rw [(h.unique (isLexeme_of_longest? hl)).1]

theorem IsLexeme.eq_take (h : IsLexeme r w cs) : w = cs.take (r.length cs) :=
  (h.unique (isLexeme_of_longest? h.longest?_eq)).2

theorem IsLexeme.length_eq (h : IsLexeme r w cs) : r.length cs = w.length := by
  have := congrArg List.length h.eq_take
  rw [List.length_take, Nat.min_eq_left (r.length_le cs)] at this
  exact this.symm

theorem exists_munch (cs : List Char) : ∃ ps rest, Munch cs ps rest := by
  cases h : Rule.longest? cs with
  | none => exact ⟨[], cs, .stuck (stuck_iff.mpr h)⟩
  | some r =>
    have hpos := Rule.length_pos_of_longest? h
    have hle := r.length_le cs
    obtain ⟨ps, rest, hm⟩ := exists_munch (cs.drop (r.length cs))
    have hlex : IsLexeme r (cs.take (r.length cs))
        (cs.take (r.length cs) ++ cs.drop (r.length cs)) := by
      rw [List.take_append_drop]
      exact isLexeme_of_longest? h
    have hcut := Munch.lexeme hlex hm
    rw [List.take_append_drop] at hcut
    exact ⟨_, rest, hcut⟩
termination_by cs.length
decreasing_by
  rw [List.length_drop]
  omega

theorem Munch.unique {ps qs : List (Rule × List Char)} {rest rest' : List Char}
    (h : Munch cs ps rest) (h' : Munch cs qs rest') : ps = qs ∧ rest = rest' := by
  induction h generalizing qs with
  | stuck hs =>
    cases h' with
    | stuck => exact ⟨rfl, rfl⟩
    | lexeme hl => exact absurd hs hl.not_stuck
  | @lexeme r w cs ps rest hl hm ih =>
    generalize htext : w ++ cs = text at h' hl
    cases h' with
    | stuck hs => exact absurd hs hl.not_stuck
    | lexeme hl' hm' =>
      obtain ⟨rfl, rfl⟩ := hl.unique hl'
      obtain rfl := List.append_cancel_left htext
      obtain ⟨rfl, rfl⟩ := ih hm'
      exact ⟨rfl, rfl⟩

/-- The text that lexemes are made of. -/
def text (ps : List (Rule × List Char)) : List Char := (ps.map Prod.snd).flatten

theorem Munch.eq_text_append {ps : List (Rule × List Char)} {rest : List Char}
    (h : Munch cs ps rest) : cs = text ps ++ rest := by
  induction h with
  | stuck => rfl
  | @lexeme r w cs ps rest _ _ ih =>
    show w ++ cs = w ++ text ps ++ rest
    rw [ih, List.append_assoc]

theorem Munch.stuck_rest {ps : List (Rule × List Char)} {rest : List Char}
    (h : Munch cs ps rest) : Stuck rest := by
  induction h with
  | stuck hs => exact hs
  | lexeme _ _ ih => exact ih

/-- The rules whose lexemes give no token. -/
def isSkipped : Rule → Bool
  | .lineComment | .blockComment | .blank => true
  | _ => false

/-- What a lexeme that is not skipped stands for. -/
inductive Denotes : Rule → List Char → Lexeme → Prop
  | number (w : List Char) : Denotes .number w (.number (Decimal.ofLiteral w).toFloat)
  | pointNumber (w : List Char) : Denotes .pointNumber w (.number (Decimal.ofLiteral w).toFloat)
  | name (w : List Char) : Denotes .name w (.name (String.ofList w))
  | plus : Denotes .symbol ['+'] .plus
  | minus : Denotes .symbol ['-'] .minus
  | star : Denotes .symbol ['*'] .star
  | slash : Denotes .symbol ['/'] .slash
  | caret : Denotes .symbol ['^'] .caret
  | leftParen : Denotes .symbol ['('] .leftParen
  | rightParen : Denotes .symbol [')'] .rightParen
  | equals : Denotes .symbol ['='] .equals
  | comma : Denotes .symbol [','] .comma
  | semicolon : Denotes .symbol [';'] .semicolon
  | newLine : Denotes .symbol ['\n'] .newLine

theorem Denotes.lexeme?_eq {l : Lexeme} (h : Denotes r w l) : r.lexeme? w = some l := by
  cases h <;> rfl

theorem Denotes.eq_of_newLine (h : Denotes r w .newLine) : w = ['\n'] := by
  cases h
  rfl

theorem lexeme?_of_skipped (h : isSkipped r = true) : r.lexeme? w = none := by
  cases r <;> first | rfl | cases h

theorem lexeme?_of_mem (hw : w ∈ language r) (h : isSkipped r = false) :
    ∃ l, r.lexeme? w = some l ∧ Denotes r w l := by
  cases r with
  | number => exact ⟨_, rfl, .number w⟩
  | pointNumber => exact ⟨_, rfl, .pointNumber w⟩
  | name => exact ⟨_, rfl, .name w⟩
  | symbol =>
    obtain ⟨c, hc, rfl⟩ := hw
    rcases hc with rfl | rfl | rfl | rfl | rfl | rfl | rfl | rfl | rfl | rfl | rfl <;>
      exact ⟨_, rfl, by constructor⟩
  | _ => cases h

/-- The tokens of lexemes that start on the given line. -/
def placed (line : ℕ) : List (Rule × List Char) → List Token
  | [] => []
  | (r, w) :: ps => ((r.lexeme? w).map (⟨·, line⟩)).toList ++ placed (line + w.count '\n') ps

theorem Munch.denotes {ps : List (Rule × List Char)} {rest : List Char} (h : Munch cs ps rest)
    (line : ℕ) :
    List.Forall₂ (fun p t => Denotes p.1 p.2 t.lexeme) (ps.filter (!isSkipped ·.1))
      (placed line ps) := by
  induction h generalizing line with
  | stuck => exact .nil
  | @lexeme r w cs ps rest hl _ ih =>
    rw [List.filter_cons, placed]
    cases hr : isSkipped r with
    | true =>
      rw [lexeme?_of_skipped hr]
      simpa [hr] using ih _
    | false =>
      obtain ⟨l, heq, hd⟩ := lexeme?_of_mem hl.mem hr
      rw [heq, if_pos (by simp)]
      exact List.forall₂_cons.mpr ⟨hd, ih _⟩

theorem scan_append (h : IsLexeme r w (w ++ cs)) (line : ℕ) :
    Token.scan line (w ++ cs) =
      (Token.scan (line + w.count '\n') cs).map
        (((r.lexeme? w).map (⟨·, line⟩)).toList ++ ·) := by
  rw [Token.scan_of_longest? h.longest?_eq, h.length_eq, List.take_left, List.drop_left]

/-- What the scan of a text returns, told from its lexemes. -/
theorem Munch.scan_eq {ps : List (Rule × List Char)} {rest : List Char} (h : Munch cs ps rest)
    (line : ℕ) :
    Token.scan line cs =
      match rest with
      | [] => .ok (placed line ps)
      | c :: _ => .error (Token.strayCharacter c (line + (text ps).count '\n')) := by
  induction h generalizing line with
  | @stuck cs hs =>
    cases cs with
    | nil =>
      rw [Token.scan]
      rfl
    | cons c cs =>
      rw [Token.scan_of_stray (stuck_iff.mp hs)]
      rfl
  | @lexeme r w cs ps rest hl _ ih =>
    rw [scan_append hl, ih]
    cases rest with
    | nil => rfl
    | cons c rest =>
      show Except.error _ = Except.error (Token.strayCharacter c (line + (w ++ text ps).count '\n'))
      rw [List.count_append, Nat.add_assoc]

theorem ofSource_eq_ok_iff {source : String} {ts : List Token} :
    Token.ofSource source = .ok ts ↔ ∃ ps, Munch source.toList ps [] ∧ ts = placed 1 ps := by
  obtain ⟨ps, rest, h⟩ := exists_munch source.toList
  rw [Token.ofSource, h.scan_eq 1]
  constructor
  · intro hok
    cases rest with
    | nil =>
      cases hok
      exact ⟨ps, h, rfl⟩
    | cons c rest => cases hok
  · rintro ⟨qs, hq, rfl⟩
    obtain ⟨rfl, rfl⟩ := h.unique hq
    rfl

theorem placed_append (line : ℕ) (ps qs : List (Rule × List Char)) :
    placed line (ps ++ qs) = placed line ps ++ placed (line + (text ps).count '\n') qs := by
  induction ps generalizing line with
  | nil => rfl
  | cons p ps ih =>
    obtain ⟨r, w⟩ := p
    have htext : text ((r, w) :: ps) = w ++ text ps := rfl
    rw [List.cons_append, placed, placed, ih, htext, List.count_append, ← Nat.add_assoc,
      List.append_assoc]

/-- The tokens of a text are those of its only maximal munch, and a text that the munch does not
exhaust is refused at the character where it is stuck. -/
theorem ofSource_maximal_munch (source : String) :
    ∃ ps rest, Munch source.toList ps rest ∧ source.toList = text ps ++ rest ∧
      (∀ qs rest', Munch source.toList qs rest' → qs = ps ∧ rest' = rest) ∧
      (rest = [] → ∃ ts, Token.ofSource source = .ok ts ∧
        List.Forall₂ (fun p t => Denotes p.1 p.2 t.lexeme) (ps.filter (!isSkipped ·.1)) ts) ∧
      ∀ c cs, rest = c :: cs →
        Token.ofSource source = .error
          (if c = '.' then .invalidNumber "." (1 + (text ps).count '\n')
          else .unexpectedToken (String.singleton c) (1 + (text ps).count '\n')) := by
  obtain ⟨ps, rest, h⟩ := exists_munch source.toList
  refine ⟨ps, rest, h, h.eq_text_append, fun qs rest' h' => h'.unique h, ?_, ?_⟩
  · rintro rfl
    exact ⟨placed 1 ps, h.scan_eq 1, h.denotes 1⟩
  · rintro c cs rfl
    rw [Token.ofSource, h.scan_eq 1]
    unfold Token.strayCharacter
    by_cases hc : c = '.'
    · subst hc
      rfl
    · simp only [if_neg hc]

end Lexical
end ScalarScript
