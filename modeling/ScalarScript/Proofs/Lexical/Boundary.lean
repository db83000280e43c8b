import ScalarScript.Proofs.Lexical.Munch

/-!
# Where lexemes end

A word is the lexeme in front of a text if no rule has a longer word there. Mostly the character
behind it decides that, since it is none that the words of the rule are made of. A line end is in no
word but block comments, so a text followed by a line end keeps its lexemes, whatever comes then:
only a slash behind which the text begins a comment would not.
-/

namespace ScalarScript
namespace Lexical

open Computability

/-- All words of the language are made of characters of the class. -/
def Within (s : Set Char) (l : Language Char) : Prop := ∀ w ∈ l, ∀ c ∈ w, c ∈ s

variable {s t : Set Char} {l m : Language Char} {r : Rule} {w cs : List Char}

theorem within_oneOf (h : s ⊆ t) : Within t (oneOf s) := by
  rintro _ ⟨c, hc, rfl⟩ d hd
  rw [List.mem_singleton.mp hd]
  exact h hc

theorem Within.mul (hl : Within s l) (hm : Within s m) : Within s (l * m) := by
  intro w hw c hc
  obtain ⟨u, hu, v, hv, rfl⟩ := Language.mem_mul.mp hw
  rcases List.mem_append.mp hc with hc | hc
  · exact hl u hu c hc
  · exact hm v hv c hc

theorem Within.kstar (hl : Within s l) : Within s l∗ := by
  intro w hw c hc
  obtain ⟨ws, rfl, h⟩ := Language.mem_kstar.mp hw
  obtain ⟨v, hv, hcv⟩ := List.mem_flatten.mp hc
  exact hl v (h v hv) c hcv

theorem Within.repeated (hl : Within s l) : Within s (repeated l) := hl.mul hl.kstar

theorem Within.optional (hl : Within s l) : Within s (optional l) := by
  intro w hw c hc
  rcases mem_optional.mp hw with rfl | hw
  · cases hc
  · exact hl w hw c hc

/-- The characters of numbers. -/
def numberPart : Set Char := digit ∪ {'.', 'e', 'E', '+', '-'}

theorem within_exponent : Within numberPart exponent := by
  have hmark : ({'e', 'E'} : Set Char) ⊆ numberPart := by
    rintro c (rfl | rfl) <;> simp [numberPart]
  have hsign : ({'+', '-'} : Set Char) ⊆ numberPart := by
    rintro c (rfl | rfl) <;> simp [numberPart]
  apply Within.mul
  · exact (within_oneOf hmark).mul (within_oneOf hsign).optional
  · exact (within_oneOf Set.subset_union_left).repeated

theorem within_point : Within numberPart (oneOf {'.'}) :=
  within_oneOf (by simp [numberPart])

theorem within_number : Within numberPart (language .number) := by
  have hdigit : Within numberPart (oneOf digit) := within_oneOf Set.subset_union_left
  apply Within.mul
  · exact hdigit.repeated.mul (within_point.mul hdigit.kstar).optional
  · exact within_exponent.optional

theorem within_pointNumber : Within numberPart (language .pointNumber) := by
  have hdigit : Within numberPart (oneOf digit) := within_oneOf Set.subset_union_left
  exact (within_point.mul hdigit.repeated).mul within_exponent.optional

theorem within_name : Within namePart (language .name) := by
  have hstart : nameStart ⊆ namePart := by
    intro c hc
    simp only [nameStart, namePart, Set.mem_union] at hc ⊢
    tauto
  exact (within_oneOf hstart).mul (within_oneOf (le_refl namePart)).kstar

theorem within_blank : Within {' ', '\t', '\x0c', '\r'} (language .blank) :=
  (within_oneOf (le_refl _)).repeated

theorem lineEnd_not_mem_numberPart : '\n' ∉ numberPart := by
  simp [numberPart, digit, Char.le_def]

theorem lineEnd_not_mem_namePart : '\n' ∉ namePart := by
  rw [mem_namePart]
  decide

theorem slash_not_mem_numberPart : '/' ∉ numberPart := by
  simp [numberPart, digit, Char.le_def]

theorem slash_not_mem_namePart : '/' ∉ namePart := by
  rw [mem_namePart]
  decide

theorem isLexeme_of_head {c : Char} {u : List Char} (hc : c ≠ '/') (hw : c :: u ∈ language r)
    (h : ∀ v ∈ language r, v <+: c :: u ++ cs → v.length ≤ (c :: u).length) :
    IsLexeme r (c :: u) (c :: u ++ cs) where
  mem := hw
  front := List.prefix_append _ _
  longest t v hv hfront := by
    cases v with
    | nil => exact Nat.zero_le _
    | cons d v =>
      obtain rfl : d = c := (List.cons_prefix_cons.mp hfront).1
      obtain rfl := rule_unique_of_head hc hw hv
      exact h _ hv hfront

/-- A word ends in front of a character that its rule does not use. -/
theorem isLexeme_of_within (hl : Within s (language r)) (hslash : '/' ∉ s) (hw : w ∈ language r)
    (hcs : ∀ d ∈ cs.head?, d ∉ s) : IsLexeme r w (w ++ cs) := by
  obtain ⟨c, u, rfl⟩ := List.exists_cons_of_length_pos (length_pos_of_mem hw)
  have hc : c ≠ '/' := by
    rintro rfl
    exact hslash (hl _ hw _ (by simp))
  apply isLexeme_of_head hc hw
  intro v hv hfront
  rcases List.prefix_or_prefix_of_prefix hfront (List.prefix_append (c :: u) cs) with h | h
  · exact h.length_le
  · obtain ⟨rest, rfl⟩ := h
    cases rest with
    | nil => simp
    | cons d rest =>
      obtain ⟨tail, rfl⟩ := (List.prefix_append_right_inj _).mp hfront
      exact absurd (hl _ hv d (by simp)) (hcs d rfl)

theorem isLexeme_symbol {c : Char} (hc : c ≠ '/') (hw : [c] ∈ language .symbol) (cs : List Char) :
    IsLexeme .symbol [c] (c :: cs) := by
  apply isLexeme_of_head hc hw
  rintro _ ⟨d, _, rfl⟩ _
  exact Nat.le_refl 1

/-- Only a block comment goes on behind a line end. -/
theorem eq_or_blockComment_of_lineEnd (hw : w ∈ language r) (h : '\n' ∈ w) :
    w = ['\n'] ∨ r = .blockComment := by
  cases r with
  | number => exact absurd (within_number w hw _ h) lineEnd_not_mem_numberPart
  | pointNumber => exact absurd (within_pointNumber w hw _ h) lineEnd_not_mem_numberPart
  | name => exact absurd (within_name w hw _ h) lineEnd_not_mem_namePart
  | symbol =>
    obtain ⟨c, -, rfl⟩ := hw
    rw [List.mem_singleton.mp h]
    exact Or.inl rfl
  | lineComment =>
    simp only [language, mul_assoc, mem_oneOf_mul, Set.mem_singleton_iff, exists_eq_left] at hw
    obtain ⟨_, ⟨v, hv, rfl⟩, rfl⟩ := hw
    have hin : '\n' ∈ v := by simpa using h
    exact absurd (mem_kstar_oneOf.mp hv _ hin) (by simp)
  | blockComment => exact Or.inr rfl
  | blank => exact absurd (within_blank w hw _ h) (by simp)

theorem blockComment_starts (hw : w ∈ language .blockComment) : ∃ u, w = '/' :: '*' :: u := by
  simp only [language, mul_assoc, mem_oneOf_mul, Set.mem_singleton_iff, exists_eq_left] at hw
  obtain ⟨_, ⟨v, _, rfl⟩, rfl⟩ := hw
  exact ⟨v, rfl⟩

/-- The only word that a block comment is longer than is the slash it opens with. -/
theorem slash_of_blockComment {v : List Char} (hw : w ∈ language r) (hv : v ≠ [])
    (h : w ++ v ∈ language .blockComment) : w = ['/'] ∧ '*' ∈ v.head? := by
  obtain ⟨u, hu⟩ := blockComment_starts h
  obtain ⟨c, w, rfl⟩ := List.exists_cons_of_length_pos (length_pos_of_mem hw)
  obtain ⟨rfl, hbody⟩ := List.cons.inj hu
  cases w with
  | nil =>
    rw [show v = '*' :: u from hbody]
    exact ⟨rfl, rfl⟩
  | cons d w =>
    obtain ⟨rfl, -⟩ := List.cons.inj hbody
    have hrule : r = .blockComment := Option.some.inj (ruleOf?_of_mem hw).symm
    subst hrule
    have hlen := length_blockComment_append h []
    rw [List.append_nil, length_blockComment_append hw, List.length_append] at hlen
    exact absurd (List.length_eq_zero_iff.mp (by omega)) hv

/-- A lexeme other than a slash in front of a star is the same whatever follows the line. -/
theorem IsLexeme.append_lineEnd (h : IsLexeme r w (w ++ cs)) (hs : w = ['/'] → '*' ∉ cs.head?)
    (rest : List Char) : IsLexeme r w (w ++ (cs ++ '\n' :: rest)) where
  mem := h.mem
  front := List.prefix_append _ _
  longest t v hv hfront := by
    rw [← List.append_assoc] at hfront
    rcases List.prefix_or_prefix_of_prefix hfront (List.prefix_append (w ++ cs) _) with hin | hover
    · exact h.longest t v hv hin
    · obtain ⟨tail, rfl⟩ := hover
      cases tail with
      | nil =>
        rw [List.append_nil] at hv ⊢
        exact h.longest t _ hv (List.prefix_refl _)
      | cons d tail =>
        obtain ⟨_, hcons⟩ := (List.prefix_append_right_inj _).mp hfront
        obtain ⟨rfl, -⟩ := List.cons.inj hcons
        rcases eq_or_blockComment_of_lineEnd hv (by simp) with heq | rfl
        · have hpos := length_pos_of_mem h.mem
          have := congrArg List.length heq
          simp only [List.length_append, List.length_cons, List.length_nil] at this
          omega
        · rw [List.append_assoc] at hv
          obtain ⟨heq, hstar⟩ := slash_of_blockComment h.mem (by simp) hv
          cases cs with
          | nil => cases hstar
          | cons d cs => exact absurd hstar (hs heq)

/-- No slash is directly followed by a star. -/
def Unopened : List (Rule × List Char) → Prop
  | [] => True
  | (_, w) :: ps => (w = ['/'] → '*' ∉ (text ps).head?) ∧ Unopened ps

theorem Munch.cons_symbol {c : Char} {qs : List (Rule × List Char)} {rest : List Char}
    (hc : c ≠ '/') (hw : [c] ∈ language .symbol) (h : Munch cs qs rest) :
    Munch (c :: cs) ((.symbol, [c]) :: qs) rest :=
  .lexeme (isLexeme_symbol hc hw cs) h

/-- The lexemes of a text with a line end behind it are those of the text and then the others. -/
theorem Munch.append_lineEnd {a b rest : List Char} {ps qs : List (Rule × List Char)}
    (ha : Munch a ps []) (hs : Unopened ps) (hb : Munch b qs rest) :
    Munch (a ++ '\n' :: b) (ps ++ (.symbol, ['\n']) :: qs) rest := by
  generalize hnil : ([] : List Char) = stop at ha
  induction ha with
  | stuck =>
    subst hnil
    exact hb.cons_symbol (by decide) ⟨'\n', by simp, rfl⟩
  | @lexeme r w cs ps stop hl hm ih =>
    subst hnil
    obtain ⟨hw, hps⟩ := hs
    have htext : cs = text ps := by simpa using hm.eq_text_append
    rw [List.append_assoc]
    exact .lexeme (hl.append_lineEnd (htext ▸ hw) b) (ih hps rfl)

variable {line : ℕ}

theorem scan_within (hl : Within s (language r)) (hslash : '/' ∉ s) (hline : '\n' ∉ s)
    (hw : w ∈ language r) (hcs : ∀ d ∈ cs.head?, d ∉ s) :
    Token.scan line (w ++ cs) =
      (Token.scan line cs).map (((r.lexeme? w).map (⟨·, line⟩)).toList ++ ·) := by
  have hcount : w.count '\n' = 0 := List.count_eq_zero.mpr fun h => hline (hl w hw _ h)
  rw [scan_append (isLexeme_of_within hl hslash hw hcs), hcount, Nat.add_zero]

theorem scan_number (hw : w ∈ language .number) (hcs : ∀ d ∈ cs.head?, d ∉ numberPart) :
    Token.scan line (w ++ cs) =
      (Token.scan line cs).map (⟨.number (Decimal.ofLiteral w).toFloat, line⟩ :: ·) :=
  scan_within within_number slash_not_mem_numberPart lineEnd_not_mem_numberPart hw hcs

theorem scan_name (hw : w ∈ language .name) (hcs : ∀ d ∈ cs.head?, d ∉ namePart) :
    Token.scan line (w ++ cs) =
      (Token.scan line cs).map (⟨.name (String.ofList w), line⟩ :: ·) :=
  scan_within within_name slash_not_mem_namePart lineEnd_not_mem_namePart hw hcs

theorem scan_symbol {c : Char} {lexeme : Lexeme} (hc : c ≠ '/')
    (h : Rule.symbol? c = some lexeme) (cs : List Char) :
    Token.scan line (c :: cs) =
      (Token.scan (line + [c].count '\n') cs).map (⟨lexeme, line⟩ :: ·) := by
  have hw : [c] ∈ language .symbol := ⟨c, mem_symbols.mpr (by rw [h]; rfl), rfl⟩
  rw [← List.singleton_append, scan_append (isLexeme_symbol hc hw cs)]
  simp [Rule.lexeme?, h]

/-- A slash that is not the beginning of a comment. -/
theorem isLexeme_slash (h : ∀ d ∈ cs.head?, d ≠ '/' ∧ d ≠ '*') :
    IsLexeme .symbol ['/'] (['/'] ++ cs) where
  mem := ⟨'/', by simp, rfl⟩
  front := List.prefix_append _ _
  longest t v hv hfront := by
    match v, hfront with
    | [], _ => exact Nat.zero_le _
    | [_], _ => exact Nat.le_refl _
    | a :: b :: v, hfront =>
      obtain ⟨rfl, hrest⟩ := List.cons_prefix_cons.mp hfront
      obtain ⟨rest, rfl⟩ := hrest
      obtain ⟨hslash, hstar⟩ := h b rfl
      have hrule : ruleOf? ('/' :: b :: v) = some .symbol := by
        simp [ruleOf?, hslash, hstar, ruleOfHead, Rule.isNameStart, Rule.isBlank, Char.isDigit,
          Char.isAlpha, Char.isUpper, Char.isLower]
      obtain rfl : t = .symbol := Option.some.inj ((ruleOf?_of_mem hv).symm.trans hrule)
      obtain ⟨_, _, heq⟩ := hv
      cases heq

theorem scan_slash (cs : List Char) :
    Token.scan line ('/' :: ' ' :: cs) = (Token.scan line (' ' :: cs)).map (⟨.slash, line⟩ :: ·) :=
  scan_append (isLexeme_slash (by simp)) line

theorem scan_dropWhile_blank (cs : List Char) :
    Token.scan line (cs.dropWhile Rule.isBlank) = Token.scan line cs := by
  have hsplit := List.takeWhile_append_dropWhile (p := Rule.isBlank) (l := cs)
  by_cases hnil : cs.takeWhile Rule.isBlank = []
  · rw [hnil, List.nil_append] at hsplit
    rw [hsplit]
  · have hmem : cs.takeWhile Rule.isBlank ∈ language .blank := by
      rw [language, mem_repeated_oneOf]
      exact ⟨hnil, fun c hc => mem_blank.mpr (forall_mem_takeWhile c hc)⟩
    have hend : ∀ c ∈ (cs.dropWhile Rule.isBlank).head?,
        c ∉ ({' ', '\t', '\x0c', '\r'} : Set Char) := by
      intro c hc
      have := List.head?_dropWhile_not Rule.isBlank cs
      rw [Option.mem_def.mp hc] at this
      rw [mem_blank]
      exact Bool.eq_false_iff.mp this
    conv_rhs => rw [← hsplit, scan_within within_blank (by simp) (by simp) hmem hend]
    cases Token.scan line (cs.dropWhile Rule.isBlank) <;> rfl

/-- A blank changes nothing, also in front of other blanks. -/
theorem scan_blank_cons {c : Char} (hc : Rule.isBlank c = true) (cs : List Char) :
    Token.scan line (c :: cs) = Token.scan line cs := by
  rw [← scan_dropWhile_blank (c :: cs), List.dropWhile_cons_of_pos hc, scan_dropWhile_blank]

theorem scan_blank (cs : List Char) : Token.scan line (' ' :: cs) = Token.scan line cs :=
  scan_blank_cons rfl cs

end Lexical
end ScalarScript
