import ScalarScript.Proofs.Lexical.Boundary

/-!
# Layouts

A list of lexemes can be written in many ways. Between two of them stands a gap, which begins with a
blank and goes on with blanks and block comments; in front of a line end and at the end of the text
a line comment may come last, and there as well as behind a line end and at the beginning the gap
may be left out. The tokens of a text written so are the lexemes in order, whatever the gaps are,
and their lines count the line ends before them, those in comments included.

A gap begins with a blank because only that keeps its comments apart from a slash, and digits or
letters apart from each other. What follows the blank cannot touch a lexeme any more.
-/

namespace ScalarScript
namespace Lexical

open Computability

variable {line : ℕ} {r : Rule} {w u v cs : List Char} {c : Char}

theorem mem_lineComment (h : ∀ d ∈ v, Rule.isLineEnd d = false) :
    '/' :: '/' :: v ∈ language .lineComment := by
  have hv : v ∈ (oneOf {'\n', '\r'}ᶜ)∗ :=
    mem_kstar_oneOf.mpr fun d hd => mem_not_lineEnd.mpr (by rw [h d hd]; rfl)
  simp only [language, mul_assoc, mem_oneOf_mul, Set.mem_singleton_iff, exists_eq_left]
  exact ⟨_, ⟨v, hv, rfl⟩, rfl⟩

theorem length_lineComment_append (h : ∀ d ∈ v, Rule.isLineEnd d = false)
    (hcs : ∀ d ∈ cs.head?, d = '\n') :
    Rule.length .lineComment ('/' :: '/' :: v ++ cs) = ('/' :: '/' :: v).length := by
  have hstop : cs.takeWhile (!Rule.isLineEnd ·) = [] := by
    cases cs with
    | nil => rfl
    | cons d cs =>
      obtain rfl := hcs d rfl
      rfl
  rw [List.cons_append, List.cons_append, Rule.length,
    List.takeWhile_append_of_pos fun d hd => by rw [h d hd]; rfl, hstop, List.append_nil]
  exact Nat.add_comm _ _

theorem ruleOf?_slash (d : Char) (u v : List Char) :
    ruleOf? ('/' :: d :: u) = ruleOf? ('/' :: d :: v) := by
  by_cases hslash : d = '/'
  · subst hslash
    rfl
  · by_cases hstar : d = '*'
    · subst hstar
      rfl
    · simp [ruleOf?, hslash, hstar]

/-- Behind a slash the second character decides the rule, and with it the lexeme. -/
theorem isLexeme_of_slash {d : Char} (hw : '/' :: d :: w ∈ language r)
    (hlength : r.length ('/' :: d :: w ++ cs) = ('/' :: d :: w).length) :
    IsLexeme r ('/' :: d :: w) ('/' :: d :: w ++ cs) where
  mem := hw
  front := List.prefix_append _ _
  longest t v hv hfront := by
    match v with
    | [] => exact Nat.zero_le _
    | [_] => simp
    | a :: b :: v =>
      obtain ⟨rfl, hrest⟩ := List.cons_prefix_cons.mp hfront
      obtain ⟨rfl, -⟩ := List.cons_prefix_cons.mp hrest
      have hrule : some t = some r := by
        rw [← ruleOf?_of_mem hv, ← ruleOf?_of_mem hw]
        exact ruleOf?_slash b v w
      obtain rfl := Option.some.inj hrule
      exact (length_le_of_front hv hfront).trans hlength.le

/-- What a blank may be followed by: blanks and block comments. -/
inductive Filler : List Char → Prop
  | nil : Filler []
  | blank {c : Char} {u : List Char} : Rule.isBlank c = true → Filler u → Filler (c :: u)
  | comment {v u : List Char} : Unclosed v → Filler u →
    Filler ('/' :: '*' :: (v ++ '*' :: '/' :: u))

/-- A line end, or no lexeme at all, which is the beginning or the end of the text. -/
def IsEdge (lexeme : Option Lexeme) : Prop := lexeme = none ∨ lexeme = some .newLine

/-- What may stand between two lexemes. -/
inductive Gap (before after : Option Lexeme) : List Char → Prop
  | empty : IsEdge before ∨ IsEdge after → Gap before after []
  | filled {c : Char} {u : List Char} : Rule.isBlank c = true → Filler u → Gap before after (c :: u)
  | lineComment {c : Char} {u v : List Char} : Rule.isBlank c = true → Filler u → IsEdge after →
    (∀ d ∈ v, Rule.isLineEnd d = false) → Gap before after (c :: u ++ '/' :: '/' :: v)

theorem scan_skipped (h : IsLexeme r w (w ++ cs)) (hr : isSkipped r = true) :
    Token.scan line (w ++ cs) = Token.scan (line + w.count '\n') cs := by
  rw [scan_append h, lexeme?_of_skipped hr]
  cases Token.scan (line + w.count '\n') cs <;> rfl

theorem count_blank_cons (hc : Rule.isBlank c = true) (u : List Char) :
    (c :: u).count '\n' = u.count '\n' := by
  apply List.count_cons_of_ne
  rintro rfl
  cases hc

theorem Filler.scan (h : Filler u) (line : ℕ) (cs : List Char) :
    Token.scan line (u ++ cs) = Token.scan (line + u.count '\n') cs := by
  induction h generalizing line with
  | nil => rfl
  | blank hc _ ih => rw [List.cons_append, scan_blank_cons hc, ih, count_blank_cons hc]
  | @comment v u hv _ ih =>
    have hcut : ∀ rest, '/' :: '*' :: (v ++ '*' :: '/' :: rest) =
        '/' :: '*' :: (v ++ ['*', '/']) ++ rest := by simp
    have hmem := mem_blockComment hv
    have hlex := isLexeme_of_slash hmem (length_blockComment_append hmem (u ++ cs))
    rw [hcut u, List.append_assoc, scan_skipped hlex rfl, ih, List.count_append, Nat.add_assoc]

/-- No token comes out of a gap. -/
theorem Gap.scan {before after : Option Lexeme} {g : List Char} (h : Gap before after g)
    (cs : List Char) (hcs : IsEdge after → ∀ d ∈ cs.head?, d = '\n') (line : ℕ) :
    Token.scan line (g ++ cs) = Token.scan (line + g.count '\n') cs := by
  cases h with
  | empty => rfl
  | filled hc hu => exact (Filler.blank hc hu).scan line cs
  | @lineComment c u v hc hu hafter hv =>
    have hlex := isLexeme_of_slash (mem_lineComment hv) (length_lineComment_append hv (hcs hafter))
    rw [List.append_assoc, (Filler.blank hc hu).scan, scan_skipped hlex rfl, List.count_append,
      Nat.add_assoc]

/-- A lexeme that is a token, with the text it is written as. -/
structure Written where
  rule : Rule
  text : List Char
  lexeme : Lexeme
  mem : text ∈ language rule
  denotes : Denotes rule text lexeme

/-- Lexemes, each behind a gap, and a last gap. -/
def render : List (List Char × Written) → List Char → List Char
  | [], last => last
  | (g, x) :: items, last => g ++ (x.text ++ render items last)

/-- Each gap may stand where it stands. -/
def WellSpaced : Option Lexeme → List (List Char × Written) → List Char → Prop
  | before, [], last => Gap before none last
  | before, (g, x) :: items, last =>
    Gap before (some x.lexeme) g ∧ WellSpaced (some x.lexeme) items last

/-- The tokens of the lexemes in a text that begins on the given line. -/
def tokensFrom (line : ℕ) : List (List Char × Written) → List Token
  | [] => []
  | (g, x) :: items =>
    ⟨x.lexeme, line + g.count '\n'⟩ ::
      tokensFrom (line + g.count '\n' + x.text.count '\n') items

/-- What stands behind a lexeme other than a line end. -/
def EndsLexeme (d : Char) : Prop := Rule.isBlank d = true ∨ d = '\n'

theorem EndsLexeme.not_mem_numberPart {d : Char} (h : EndsLexeme d) : d ∉ numberPart := by
  rcases h with hblank | rfl
  · rcases mem_blank.mpr hblank with rfl | rfl | rfl | rfl <;>
      simp [numberPart, digit, Char.le_def]
  · exact lineEnd_not_mem_numberPart

theorem EndsLexeme.not_mem_namePart {d : Char} (h : EndsLexeme d) : d ∉ namePart := by
  rcases h with hblank | rfl
  · rw [mem_namePart]
    rcases mem_blank.mpr hblank with rfl | rfl | rfl | rfl <;> decide
  · exact lineEnd_not_mem_namePart

theorem EndsLexeme.not_slash_or_star {d : Char} (h : EndsLexeme d) : d ≠ '/' ∧ d ≠ '*' := by
  rcases h with hblank | rfl
  · rcases mem_blank.mpr hblank with rfl | rfl | rfl | rfl <;> decide
  · decide

theorem Written.isLexeme (x : Written)
    (hcs : x.lexeme = .newLine ∨ ∀ d ∈ cs.head?, EndsLexeme d) :
    IsLexeme x.rule x.text (x.text ++ cs) := by
  obtain ⟨r, w, l, hw, hd⟩ := x
  cases hd with
  | number | pointNumber | name =>
    have hends := hcs.resolve_left (by simp)
    first
      | exact isLexeme_of_within within_number slash_not_mem_numberPart hw
          fun d hd => (hends d hd).not_mem_numberPart
      | exact isLexeme_of_within within_pointNumber slash_not_mem_numberPart hw
          fun d hd => (hends d hd).not_mem_numberPart
      | exact isLexeme_of_within within_name slash_not_mem_namePart hw
          fun d hd => (hends d hd).not_mem_namePart
  | slash =>
    have hends := hcs.resolve_left (by simp)
    exact isLexeme_slash fun d hd => (hends d hd).not_slash_or_star
  | _ => exact isLexeme_symbol (by decide) hw cs

theorem Written.scan (x : Written)
    (hcs : x.lexeme = .newLine ∨ ∀ d ∈ cs.head?, EndsLexeme d) (line : ℕ) :
    Token.scan line (x.text ++ cs) =
      (Token.scan (line + x.text.count '\n') cs).map (⟨x.lexeme, line⟩ :: ·) := by
  rw [scan_append (x.isLexeme hcs), x.denotes.lexeme?_eq]
  rfl

/-- A gap may only be empty next to an edge. -/
theorem Gap.endsLexeme {l : Lexeme} {after : Option Lexeme} {g : List Char}
    (h : Gap (some l) after g) (cs : List Char) (hcs : IsEdge after → ∀ d ∈ cs.head?, d = '\n') :
    l = .newLine ∨ ∀ d ∈ (g ++ cs).head?, EndsLexeme d := by
  cases h with
  | empty hedge =>
    rcases hedge with (hnone | hl) | hafter
    · cases hnone
    · exact Or.inl (Option.some.inj hl)
    · exact Or.inr fun d hd => Or.inr (hcs hafter d hd)
  | filled hc _ | lineComment hc _ _ _ =>
    right
    intro d hd
    cases hd
    exact Or.inl hc

theorem Written.head_of_edge (x : Written) (h : IsEdge (some x.lexeme)) (cs : List Char) :
    ∀ d ∈ (x.text ++ cs).head?, d = '\n' := by
  have hnewLine : x.lexeme = .newLine := h.elim (by simp) Option.some.inj
  have htext : x.text = ['\n'] := (hnewLine ▸ x.denotes).eq_of_newLine
  rw [htext]
  rintro d ⟨⟩
  rfl

theorem WellSpaced.endsLexeme {l : Lexeme} {items : List (List Char × Written)} {last : List Char}
    (h : WellSpaced (some l) items last) :
    l = .newLine ∨ ∀ d ∈ (render items last).head?, EndsLexeme d := by
  cases items with
  | nil => simpa [render] using Gap.endsLexeme h [] (by simp)
  | cons item items =>
    obtain ⟨g, x⟩ := item
    exact h.1.endsLexeme _ fun hedge => x.head_of_edge hedge _

/-- A lexeme ends at the gap behind it, and a line comment at the lexeme behind its gap. -/
theorem scan_render {before : Option Lexeme} {items : List (List Char × Written)}
    {last : List Char} (h : WellSpaced before items last) (line : ℕ) :
    Token.scan line (render items last) = .ok (tokensFrom line items) := by
  induction items generalizing before line with
  | nil =>
    have hend := Gap.scan h [] (by simp) line
    rw [List.append_nil] at hend
    rw [render, hend, Token.scan]
    rfl
  | cons item items ih =>
    obtain ⟨g, x⟩ := item
    obtain ⟨hg, hitems⟩ := h
    rw [render, hg.scan _ (fun hedge => x.head_of_edge hedge _), x.scan hitems.endsLexeme,
      ih hitems]
    rfl

theorem length_tokensFrom (line : ℕ) (items : List (List Char × Written)) :
    (tokensFrom line items).length = items.length := by
  induction items generalizing line with
  | nil => rfl
  | cons item items ih => rw [tokensFrom, List.length_cons, ih, List.length_cons]

theorem getElem?_tokensFrom (line : ℕ) (front : List (List Char × Written)) (g : List Char)
    (x : Written) (rest : List (List Char × Written)) :
    (tokensFrom line (front ++ (g, x) :: rest))[front.length]? =
      some ⟨x.lexeme, line + (render front g).count '\n'⟩ := by
  induction front generalizing line with
  | nil => rfl
  | cons item front ih =>
    obtain ⟨h, y⟩ := item
    rw [List.cons_append, tokensFrom, List.length_cons, List.getElem?_cons_succ, ih, render,
      List.count_append, List.count_append]
    simp only [Nat.add_assoc]

/-- Whatever the gaps, the tokens of a text are the lexemes it was written from, each with one more
than the number of line ends in front of it as its line. -/
theorem ofSource_render {items : List (List Char × Written)} {last : List Char}
    (h : WellSpaced none items last) :
    ∃ ts, Token.ofSource (String.ofList (render items last)) = .ok ts ∧
      ts.length = items.length ∧
      ∀ front g x rest, items = front ++ (g, x) :: rest →
        ts[front.length]? = some ⟨x.lexeme, 1 + (render front g).count '\n'⟩ := by
  refine ⟨tokensFrom 1 items, ?_, length_tokensFrom 1 items, ?_⟩
  · rw [Token.ofSource, String.toList_ofList]
    exact scan_render h 1
  · rintro front g x rest rfl
    exact getElem?_tokensFrom 1 front g x rest

/-- Comments that look like others, and a slash in front of one. -/
theorem ofSource_render_comments :
    ∃ ts, Token.ofSource " /*/*/1.5 / /*//\n**/x //*\n-" = .ok ts ∧ ts.length = 5 ∧
      ts[2]? = some ⟨.name "x", 2⟩ ∧ ts[4]? = some ⟨.minus, 3⟩ := by
  have hnumber : ['1', '.', '5'] ∈ language .number :=
    @take_length_mem .number ['1', '.', '5'] (by decide)
  have hname : ['x'] ∈ language .name := @take_length_mem .name ['x'] (by decide)
  have hslash : ['/'] ∈ language .symbol := ⟨'/', by simp, rfl⟩
  have hlineEnd : ['\n'] ∈ language .symbol := ⟨'\n', by simp, rfl⟩
  have hminus : ['-'] ∈ language .symbol := ⟨'-', by simp, rfl⟩
  have hcomment : Unclosed ['/'] ∧ Unclosed ['/', '/', '\n', '*'] := by
    simp [unclosed_cons, unclosed_nil]
  have hspaced : WellSpaced none
      [([' ', '/', '*', '/', '*', '/'], ⟨_, _, _, hnumber, .number _⟩),
        ([' '], ⟨_, _, _, hslash, .slash⟩),
        ([' ', '/', '*', '/', '/', '\n', '*', '*', '/'], ⟨_, _, _, hname, .name _⟩),
        ([' ', '/', '/', '*'], ⟨_, _, _, hlineEnd, .newLine⟩),
        ([], ⟨_, _, _, hminus, .minus⟩)] [] := by
    refine ⟨?_, ?_, ?_, ?_, ?_, ?_⟩
    · exact .filled rfl (.comment hcomment.1 .nil)
    · exact .filled rfl .nil
    · exact .filled rfl (.comment hcomment.2 .nil)
    · exact @Gap.lineComment _ _ ' ' [] ['*'] rfl .nil (Or.inr rfl) (by simp [Rule.isLineEnd])
    · exact .empty (Or.inl (Or.inr rfl))
    · exact .empty (Or.inr (Or.inl rfl))
  obtain ⟨ts, hts, hlength, hget⟩ := ofSource_render hspaced
  exact ⟨ts, hts, hlength, hget [_, _] _ _ _ rfl, hget [_, _, _, _] _ _ _ rfl⟩

end Lexical
end ScalarScript
