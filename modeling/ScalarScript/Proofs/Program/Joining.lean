import ScalarScript.Proofs.Lexical.Boundary
import ScalarScript.Proofs.Program.Acceptance
import ScalarScript.Proofs.Program.Runs

/-!
# Joined scripts

Two scripts with a line end between them are one script: its program is that of the first script and
then that of the second, on later lines, and its run is one run after the other. A script that is
read leaves nothing open at its end. A block comment is closed in it, a line comment ends with its
line, and a slash has an operand behind it, which no star begins.
-/

namespace ScalarScript
namespace Grammar

/-- Each slash has the beginning of an expression behind it. -/
def SlashesContinued : List Token → Prop
  | [] => True
  | t :: ts =>
    (t.lexeme = .slash → ∃ u us, ts = u :: us ∧ startsExpr u.lexeme = true) ∧ SlashesContinued ts

namespace SlashesContinued

variable {t : Token} {xs ts : List Token}

theorem append (hx : SlashesContinued xs) (h : SlashesContinued ts) :
    SlashesContinued (xs ++ ts) := by
  induction xs with
  | nil => exact h
  | cons x xs ih =>
    refine ⟨?_, ih hx.2⟩
    intro heq
    obtain ⟨u, us, rfl, hu⟩ := hx.1 heq
    exact ⟨u, us ++ ts, rfl, hu⟩

theorem cons (ht : t.lexeme ≠ .slash) (h : SlashesContinued ts) : SlashesContinued (t :: ts) :=
  ⟨fun heq => absurd heq ht, h⟩

theorem singleton (ht : t.lexeme ≠ .slash) : SlashesContinued [t] := cons ht trivial

theorem cons_expr (hs : ∃ u us, ts = u :: us ∧ startsExpr u.lexeme = true)
    (h : SlashesContinued ts) : SlashesContinued (t :: ts) :=
  ⟨fun _ => hs, h⟩

end SlashesContinued

theorem hereditary_slashes :
    Hereditary (fun ts _ => SlashesContinued ts) fun ts _ => SlashesContinued ts where
  number _ _ := .singleton (by simp)
  name _ _ := .singleton (by simp)
  negation _ h := h.cons (by simp)
  binary _ _ hl hstarts hr := hl.append (.cons_expr hstarts hr)
  call _ _ _ _ h := ((h.append (.singleton (by simp))).cons (by simp)).cons (by simp)
  paren _ _ h := (h.append (.singleton (by simp))).cons (by simp)
  none := trivial
  last h := h
  more _ h _ hs := h.append (hs.cons (by simp))

theorem Statement.slashes {ts : List Token} {s : ScalarScript.Statement} (h : Statement ts s) :
    SlashesContinued ts := by
  cases h with
  | assignment h => exact ((hereditary_slashes.chain h).cons (by simp)).cons (by simp)
  | expression h => exact hereditary_slashes.chain h

theorem Separators.slashes {ts : List Token} (h : Separators ts) : SlashesContinued ts := by
  induction ts with
  | nil => trivial
  | cons t ts ih =>
    obtain ⟨ht, hts⟩ := separators_cons.mp h
    apply (ih hts).cons
    intro heq
    rw [heq] at ht
    cases ht

theorem Program.slashes {ts : List Token} {p : ScalarScript.Program} (h : Program ts p) :
    SlashesContinued ts :=
  Program.of_parts h Separators.slashes Statement.slashes SlashesContinued.append

theorem Program.separators {gap ts : List Token} {p : ScalarScript.Program} (hgap : Separators gap)
    (h : Program ts p) : Program (gap ++ ts) p := by
  induction gap with
  | nil => exact h
  | cons t gap ih =>
    obtain ⟨ht, hrest⟩ := separators_cons.mp hgap
    exact (ih hrest).separator ht

theorem Program.gap {xs gap ys : List Token} {s : ScalarScript.Statement}
    {q : ScalarScript.Program} (h : Statement xs s) (hgap : Separators gap) (hne : gap ≠ [])
    (hq : Program ys q) : Program (xs ++ gap ++ ys) (s :: q) := by
  cases gap with
  | nil => exact absurd rfl hne
  | cons t gap =>
    obtain ⟨ht, hrest⟩ := separators_cons.mp hgap
    rw [List.append_assoc]
    exact .cons h ht (hq.separators hrest)

theorem Statements.gap {xs gap ys : List Token} {p q : ScalarScript.Program} (h : Statements xs p)
    (hgap : Separators gap) (hne : gap ≠ []) (hq : Program ys q) :
    Program (xs ++ gap ++ ys) (p ++ q) := by
  induction h with
  | last h => exact .gap h hgap hne hq
  | @more zs s between vs p h hbetween hb _ ih =>
    have hsplit : zs ++ between ++ vs ++ gap ++ ys = zs ++ between ++ (vs ++ gap ++ ys) := by simp
    rw [hsplit]
    exact .gap h hbetween hb ih

theorem Program.joined {xs ys : List Token} {t : Token} {p q : ScalarScript.Program}
    (hp : Program xs p) (ht : t.lexeme.isSeparator = true) (hq : Program ys q) :
    Program (xs ++ t :: ys) (p ++ q) := by
  cases hp with
  | @none before after hb ha =>
    exact (hq.separator ht).separators (separators_append.mpr ⟨hb, ha⟩)
  | @some before ts p after hb hs ha =>
    have hgap : Separators (after ++ [t]) := by simp [ha, ht]
    have hsplit : before ++ ts ++ after ++ t :: ys = before ++ (ts ++ (after ++ [t]) ++ ys) := by
      simp
    rw [hsplit]
    exact (hs.gap hgap (by simp) hq).separators hb

end Grammar

namespace Lexical

theorem mem_symbol_star : ['*'] ∈ language .symbol := ⟨'*', by simp, rfl⟩

theorem mem_symbol_slash : ['/'] ∈ language .symbol := ⟨'/', by simp, rfl⟩

/-- A star at the front of a text is its first token. -/
theorem Munch.placed_star {ps : List (Rule × List Char)} {rest cs : List Char}
    (h : Munch cs ps rest) (hstar : '*' ∈ (text ps).head?) (line : ℕ) :
    ∃ ts, placed line ps = ⟨.star, line⟩ :: ts := by
  cases h with
  | stuck => cases hstar
  | @lexeme r w cs ps _ hl _ =>
    obtain ⟨c, w, rfl⟩ := List.exists_cons_of_length_pos (length_pos_of_mem hl.mem)
    obtain rfl : c = '*' := Option.some.inj hstar
    obtain rfl := rule_unique_of_head (by decide) hl.mem mem_symbol_star
    obtain ⟨_, _, heq⟩ := hl.mem
    obtain ⟨-, rfl⟩ := List.cons.inj heq
    exact ⟨_, rfl⟩

/-- No comment begins in a text whose slashes have operands behind them. -/
theorem Munch.unopened {ps : List (Rule × List Char)} {rest cs : List Char} (h : Munch cs ps rest)
    (line : ℕ) (hs : Grammar.SlashesContinued (placed line ps)) : Unopened ps := by
  induction h generalizing line with
  | stuck => trivial
  | @lexeme r w cs ps rest hl hm ih =>
    refine ⟨?_, ?_⟩
    · intro hw hstar
      subst hw
      obtain rfl := rule_unique hl.mem mem_symbol_slash
      obtain ⟨u, us, heq, hu⟩ := hs.1 rfl
      obtain ⟨ts, hplaced⟩ := hm.placed_star hstar (line + ['/'].count '\n')
      obtain ⟨rfl, -⟩ := List.cons.inj (heq.symm.trans hplaced)
      cases hu
    · apply ih (line + w.count '\n')
      cases hlex : r.lexeme? w with
      | none => simpa [placed, hlex] using hs
      | some lexeme =>
        have : Grammar.SlashesContinued (⟨lexeme, line⟩ :: placed (line + w.count '\n') ps) := by
          simpa [placed, hlex] using hs
        exact this.2

/-- Tokens that start on a later line are all on later lines. -/
theorem placed_add (line k : ℕ) (ps : List (Rule × List Char)) :
    placed (line + k) ps = (placed line ps).map (Token.mapLine (· + k)) := by
  induction ps generalizing line with
  | nil => rfl
  | cons p ps ih =>
    obtain ⟨r, w⟩ := p
    rw [placed, placed, List.map_append, ← ih, Nat.add_right_comm]
    cases r.lexeme? w <;> rfl

end Lexical

namespace Program

open Lexical

/-- A line end between two scripts makes them one script, which runs one after the other. -/
theorem ofSource_joined {a b : String} {p q : Program} (ha : ofSource a = .ok p)
    (hb : ofSource b = .ok q) :
    ofSource (a ++ "\n" ++ b) =
        .ok (p ++ q.mapLines (· + (1 + a.toList.count '\n'))) ∧
      (p ≠ [] → q ≠ [] → ∀ env : Environment,
        evalStatements env (p ++ q.mapLines (· + (1 + a.toList.count '\n'))) =
          (do
            let (_, env') ← evalStatements env p
            evalStatements env' q)) := by
  obtain ⟨ps, hps, hp⟩ := ofSource_eq_ok_iff.mp ha
  obtain ⟨qs, hqs, hq⟩ := ofSource_eq_ok_iff.mp hb
  refine ⟨ofSource_eq_ok_iff.mpr ⟨ps ++ (.symbol, ['\n']) :: qs, ?_, ?_⟩, ?_⟩
  · have htext : (a ++ "\n" ++ b).toList = a.toList ++ '\n' :: b.toList := by simp
    rw [htext]
    exact hps.append_lineEnd (hps.unopened 1 hp.slashes) hqs
  · have hcount : (text ps).count '\n' = a.toList.count '\n' := by
      rw [hps.eq_text_append, List.append_nil]
    have hlater : placed (1 + a.toList.count '\n' + 1) qs =
        (placed 1 qs).map (Token.mapLine (· + (1 + a.toList.count '\n'))) := by
      rw [← placed_add]
      congr 1
      omega
    rw [placed_append, hcount]
    show Grammar.Program (placed 1 ps ++ ⟨.newLine, _⟩ :: placed (1 + _ + 1) qs) _
    rw [hlater]
    exact hp.joined rfl hq.mapLines
  · intro hpne hqne env
    have hqne' : q.mapLines (· + (1 + a.toList.count '\n')) ≠ [] := by simpa [mapLines] using hqne
    rw [evalStatements_append env hpne hqne']
    simp only [evalStatements_mapLines]

/-- Comments at the seam hide neither script. -/
theorem ofSource_joined_comments :
    ofSource ("x = 2 // two" ++ "\n" ++ "/* again\n */ x") =
        .ok [.assignment "x" (.number 2 1) 1, .expression (.name "x" 3) 3] ∧
      ∀ env : Environment,
        evalStatements env [.assignment "x" (.number 2 1) 1, .expression (.name "x" 3) 3] =
          (do
            let (_, env') ← evalStatements env [.assignment "x" (.number 2 1) 1]
            evalStatements env' [.expression (.name "x" 2) 2]) := by
  have ha : ofSource "x = 2 // two" = .ok [.assignment "x" (.number 2 1) 1] :=
    @ofSource_of_tokens _ [⟨.name "x", 1⟩, ⟨.equals, 1⟩, ⟨.number 2, 1⟩] _ (by decide +kernel)
      (.single (.assignment Grammar.Primary.number.chain))
  have hb : ofSource "/* again\n */ x" = .ok [.expression (.name "x" 2) 2] :=
    @ofSource_of_tokens _ [⟨.name "x", 2⟩] _ (by decide +kernel)
      (.single (.expression Grammar.Primary.name.chain))
  obtain ⟨hread, hrun⟩ := ofSource_joined ha hb
  exact ⟨hread, hrun (by simp) (by simp)⟩

end Program
end ScalarScript
