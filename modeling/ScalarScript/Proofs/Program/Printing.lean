import ScalarScript.Proofs.Lexical.Boundary
import ScalarScript.Proofs.Program.WellFormed

/-!
# Printed programs

A program is printed one statement a line, with parentheses around each operation, so that neither
the strength of operators nor the side they lean to matters. A printed expression is read back in
front of anything that goes on neither a name nor a number, which is all that a printed program has
behind an expression. Hence the programs of texts are the well-formed ones, up to lines.
-/

namespace ScalarScript

namespace Expr

mutual

def print : Expr → String
  | .number x _ => Decimal.literal x
  | .name s _ => s
  | .negation e _ => "(-" ++ e.print ++ ")"
  | .binary op l r _ => "(" ++ l.print ++ " " ++ op.symbol ++ " " ++ r.print ++ ")"
  | .call f es _ => f ++ "(" ++ ", ".intercalate (printAll es) ++ ")"

def printAll : List Expr → List String
  | [] => []
  | e :: es => e.print :: printAll es

end

end Expr

def Statement.print : Statement → String
  | .assignment s e _ => s ++ " = " ++ e.print
  | .expression e _ => e.print

def Program.print (p : Program) : String := "\n".intercalate (p.map Statement.print)

example : Program.print
    [.assignment "x" (.binary .pow (.negation (.number 0.5 1) 1) (.name "e" 1) 1) 1,
      .expression (.call "max" [.name "x" 2, .number 2 2] 2) 2] =
    "x = ((-0.5) ^ e)\nmax(x, 2)" := by
  decide +kernel

namespace Lexical

/-- Neither a name nor a number goes on into the text. -/
def Delimited (cs : List Char) : Prop := ∀ c ∈ cs.head?, c ∉ namePart ∧ c ∉ numberPart

theorem delimited_cons {c : Char} (hc : c = ' ' ∨ c = '(' ∨ c = ')' ∨ c = ',' ∨ c = '\n')
    (cs : List Char) : Delimited (c :: cs) := by
  intro d hd
  obtain rfl : c = d := Option.some.inj hd
  rw [mem_namePart]
  rcases hc with rfl | rfl | rfl | rfl | rfl <;>
    exact ⟨by decide, by simp [numberPart, digit, Char.le_def]⟩

/-- In front of a delimiter the text is read as the lexemes, all on one line. -/
def Reads (w : List Char) (ls : List Lexeme) : Prop :=
  ∀ (line : ℕ) (cs : List Char), Delimited cs →
    Token.scan line (w ++ cs) = (Token.scan line cs).map (ls.map (⟨·, line⟩) ++ ·)

variable {w v : List Char} {ls ms : List Lexeme}

theorem reads_nil : Reads [] [] := by
  intro line cs _
  show Token.scan line cs = (Token.scan line cs).map id
  cases Token.scan line cs <;> rfl

theorem reads_of_mem_number (hw : w ∈ language .number) :
    Reads w [.number (Decimal.ofLiteral w).toFloat] := by
  intro line cs hcs
  rw [scan_number hw fun c hc => (hcs c hc).2]
  rfl

theorem reads_number {x : Float} (hx : IsLiteral x) :
    Reads (Decimal.literal x).toList [.number x] := by
  have hreads := reads_of_mem_number (Decimal.literal_mem_number hx.1 hx.2)
  rwa [Decimal.toFloat_ofLiteral_literal hx.1 hx.2] at hreads

theorem reads_name {s : String} (hs : IsName s) : Reads s.toList [.name s] := by
  intro line cs hcs
  rw [scan_name hs fun c hc => (hcs c hc).1, String.ofList_toList]
  rfl

theorem Reads.append {c : Char} (hw : Reads w ls) (hv : Reads (c :: v) ms)
    (hc : c = ' ' ∨ c = '(' ∨ c = ')' ∨ c = ',' ∨ c = '\n') :
    Reads (w ++ c :: v) (ls ++ ms) := by
  intro line cs hcs
  have hfirst : Delimited (c :: v ++ cs) := delimited_cons hc (v ++ cs)
  rw [List.append_assoc, hw line _ hfirst, hv line cs hcs]
  cases Token.scan line cs with
  | error e => rfl
  | ok ts => simp [Except.map]

theorem Reads.symbol {c : Char} {l : Lexeme} (hslash : c ≠ '/') (hline : c ≠ '\n')
    (hc : Rule.symbol? c = some l) (hw : Reads w ls) : Reads (c :: w) (l :: ls) := by
  intro line cs hcs
  have hcount : [c].count '\n' = 0 := List.count_eq_zero.mpr (by simpa using hline.symm)
  rw [List.cons_append, scan_symbol hslash hc, hcount, Nat.add_zero, hw line cs hcs]
  cases Token.scan line cs <;> rfl

theorem Reads.blank (hw : Reads w ls) : Reads (' ' :: w) ls := by
  intro line cs hcs
  rw [List.cons_append, scan_blank, hw line cs hcs]

theorem Reads.paren (hw : Reads w ls) :
    Reads ('(' :: (w ++ [')'])) (.leftParen :: (ls ++ [.rightParen])) := by
  have hclose : Reads [')'] [.rightParen] := reads_nil.symbol (by decide) (by decide) rfl
  exact (hw.append hclose (by decide)).symbol (by decide) (by decide) rfl

theorem Reads.operator (op : Operator) (hw : Reads w ls) :
    Reads (op.symbol.toList ++ ' ' :: w) (op.lexeme :: ls) := by
  cases op with
  | add => exact hw.blank.symbol (by decide) (by decide) rfl
  | sub => exact hw.blank.symbol (by decide) (by decide) rfl
  | mul => exact hw.blank.symbol (by decide) (by decide) rfl
  | div =>
    intro line cs hcs
    show Token.scan line ('/' :: ' ' :: (w ++ cs)) = _
    rw [scan_slash, scan_blank, hw line cs hcs]
    cases Token.scan line cs <;> rfl
  | pow => exact hw.blank.symbol (by decide) (by decide) rfl

end Lexical

open Lexical

theorem Grammar.Primary.binary {xs ys : List Token} {l r : Expr} (hl : Primary xs l)
    (op : Operator) (n : Nat) (hr : Primary ys r) :
    Chain .sum (xs ++ ⟨op.lexeme, n⟩ :: ys) (.binary op l r n) := by
  have hunary : Unary ys r := .power (.primary hr)
  cases op with
  | add => exact .join hl.chain .plus (.product hr.chain)
  | sub => exact .join hl.chain .minus (.product hr.chain)
  | mul => exact .single (.product (.join hl.chain .star (.unary hunary)))
  | div => exact .single (.product (.join hl.chain .slash (.unary hunary)))
  | pow => exact .single (.product (.single (.unary (.power (.caret hl hunary)))))

theorem Grammar.Arguments.some_of_cons {ts : List Token} {e : Expr} {es : List Expr}
    (h : Arguments ts (e :: es)) : SomeArguments ts (e :: es) := by
  cases h with
  | some h => exact h

namespace Expr

mutual

/-- A printed expression is read as what the grammar takes for that expression. -/
theorem reads_print : ∀ e : Expr, e.WellFormed →
    ∃ ls, Reads e.print.toList ls ∧
      ∀ line, Grammar.Primary (ls.map (⟨·, line⟩)) (e.mapLines fun _ => line)
  | .number x _, h => ⟨[.number x], reads_number h, fun _ => .number⟩
  | .name s _, h => ⟨[.name s], reads_name h, fun _ => .name⟩
  | .negation e _, h => by
    obtain ⟨ls, hreads, hgrammar⟩ := reads_print e h
    have hminus : Reads ('-' :: e.print.toList) (.minus :: ls) :=
      hreads.symbol (by decide) (by decide) rfl
    refine ⟨_, by simpa [print] using hminus.paren, fun line => ?_⟩
    have hunary := Grammar.Unary.minus (n := line) (.power (.primary (hgrammar line)))
    have hparen := Grammar.Primary.paren (m := line) (k := line)
      (.single (.product (.single (.unary hunary))))
    simpa [mapLines] using hparen
  | .binary op l r _, h => by
    obtain ⟨ls, hl, hleft⟩ := reads_print l h.1
    obtain ⟨ms, hr, hright⟩ := reads_print r h.2
    have hoperation := hl.append (hr.operator op).blank (by decide)
    refine ⟨_, by simpa [print] using hoperation.paren, fun line => ?_⟩
    have hparen := Grammar.Primary.paren (m := line) (k := line)
      ((hleft line).binary op line (hright line))
    simpa [mapLines] using hparen
  | .call f es _, h => by
    obtain ⟨ls, hreads, hgrammar⟩ := reads_printAll es h.2
    have hcall := (reads_name h.1).append hreads.paren (by decide)
    refine ⟨_, by simpa [print] using hcall, fun line => ?_⟩
    have hprimary := Grammar.Primary.call (f := f) (n := line) (m := line) (k := line)
      (hgrammar line)
    simpa [mapLines] using hprimary

theorem reads_printAll : ∀ es : List Expr, AllWellFormed es →
    ∃ ls, Reads (", ".intercalate (printAll es)).toList ls ∧
      ∀ line, Grammar.Arguments (ls.map (⟨·, line⟩)) (mapLinesAll (fun _ => line) es)
  | [], _ => ⟨[], reads_nil, fun _ => .none⟩
  | [e], h => by
    obtain ⟨ls, hreads, hgrammar⟩ := reads_print e h.1
    exact ⟨ls, by simpa [printAll] using hreads, fun line => .some (.last (hgrammar line).chain)⟩
  | e :: e' :: es, h => by
    obtain ⟨ls, hreads, hgrammar⟩ := reads_print e h.1
    obtain ⟨ms, hrest, hmore⟩ := reads_printAll (e' :: es) h.2
    have hcomma : Reads (',' :: ' ' :: (", ".intercalate (printAll (e' :: es))).toList)
        (.comma :: ms) :=
      hrest.blank.symbol (by decide) (by decide) rfl
    refine ⟨_, by simpa [printAll] using hreads.append hcomma (by decide), fun line => ?_⟩
    have harguments := Grammar.SomeArguments.more (n := line) (hgrammar line).chain
      (hmore line).some_of_cons
    simpa [mapLinesAll] using Grammar.Arguments.some harguments

end

end Expr

namespace Statement

theorem reads_print {s : Statement} (h : s.WellFormed) :
    ∃ ls, Reads s.print.toList ls ∧
      ∀ line, Grammar.Statement (ls.map (⟨·, line⟩)) (s.mapLines fun _ => line) := by
  cases s with
  | assignment x e n =>
    obtain ⟨ls, hreads, hgrammar⟩ := e.reads_print h.2
    have hequals : Reads ('=' :: ' ' :: e.print.toList) (.equals :: ls) :=
      hreads.blank.symbol (by decide) (by decide) rfl
    have hall := (reads_name h.1).append hequals.blank (by decide)
    refine ⟨_, by simpa [print] using hall, fun line => ?_⟩
    have hassignment := Grammar.Statement.assignment (s := x) (n := line) (m := line)
      (hgrammar line).chain
    simpa [mapLines] using hassignment
  | expression e n =>
    obtain ⟨ls, hreads, hgrammar⟩ := e.reads_print h
    refine ⟨ls, hreads, fun line => ?_⟩
    cases ls with
    | nil =>
      obtain ⟨t, ts, hts, -⟩ := (hgrammar line).starts
      cases hts
    | cons l ls => exact .expression (hgrammar line).chain

end Statement

namespace Program

theorem print_cons_cons (s s' : Statement) (p : Program) :
    print (s :: s' :: p) = s.print ++ "\n" ++ print (s' :: p) := by
  unfold print
  simp

/-- A printed program is read back, its first statement on the given line. -/
theorem scan_print {p : Program} (h : p.WellFormed) (line : Nat) :
    ∃ ts p', Token.scan line p.print.toList = .ok ts ∧ Grammar.Program ts p' ∧
      p'.EqUpToLines p := by
  induction p generalizing line with
  | nil =>
    refine ⟨[], [], ?_, .nil, rfl⟩
    show Token.scan line [] = .ok []
    rw [Token.scan]
  | cons s p ih =>
    obtain ⟨hs, hp⟩ := List.forall_mem_cons.mp h
    obtain ⟨ls, hreads, hgrammar⟩ := s.reads_print hs
    have hlines : (s.mapLines fun _ => line).mapLines (fun _ => 0) = s.mapLines fun _ => 0 :=
      s.mapLines_mapLines _ _
    cases p with
    | nil =>
      refine ⟨ls.map (⟨·, line⟩), [s.mapLines fun _ => line], ?_, .single (hgrammar line), ?_⟩
      · have hscan := hreads line [] (by simp [Delimited])
        rw [List.append_nil, Token.scan] at hscan
        simpa [print, Except.map] using hscan
      · show [_] = [_]
        rw [hlines]
    | cons s' p =>
      obtain ⟨ts, p', hts, hrest, hp'⟩ := ih hp (line + 1)
      refine ⟨ls.map (⟨·, line⟩) ++ ⟨.newLine, line⟩ :: ts, (s.mapLines fun _ => line) :: p', ?_,
        .cons (hgrammar line) rfl hrest, ?_⟩
      · have hscan := hreads line ('\n' :: (print (s' :: p)).toList) (delimited_cons (by decide) _)
        have hline : [('\n' : Char)].count '\n' = 1 := rfl
        rw [scan_symbol (by decide) rfl, hline, hts] at hscan
        simpa [print_cons_cons, Except.map] using hscan
      · show _ :: _ = _ :: _
        rw [hlines]
        exact congrArg (_ :: ·) hp'

/-- The programs of texts are the well-formed ones, up to lines, and each of them is read from its
printed text. -/
theorem ofSource_image :
    (∀ p : Program, (∃ source p', ofSource source = .ok p' ∧ p'.EqUpToLines p) ↔ p.WellFormed) ∧
      ∀ p : Program, p.WellFormed → ∃ p', ofSource p.print = .ok p' ∧ p'.EqUpToLines p := by
  have hprint : ∀ p : Program, p.WellFormed →
      ∃ p', ofSource p.print = .ok p' ∧ p'.EqUpToLines p := by
    intro p hp
    obtain ⟨ts, p', hts, hgrammar, hlines⟩ := scan_print hp 1
    exact ⟨p', ofSource_of_tokens hts hgrammar, hlines⟩
  refine ⟨fun p => ⟨?_, ?_⟩, hprint⟩
  · rintro ⟨source, p', hp', hlines⟩
    exact hlines.wellFormed (wellFormed_of_ofSource hp')
  · intro hp
    exact ⟨p.print, hprint p hp⟩

/-- Infinity has a literal, though it is not spelled in digits. -/
theorem ofSource_image_infinity :
    ∃ p', ofSource "(-1e999)" = .ok p' ∧
      p'.EqUpToLines
        [.expression (.negation (.number (Binary64.ofCode Binary64.infinity) 7) 7) 7] := by
  have hle : Binary64.infinity ≤ Binary64.infinity := Nat.le_refl _
  have hprint : print
      [.expression (.negation (.number (Binary64.ofCode Binary64.infinity) 7) 7) 7] =
        "(-1e999)" := by decide +kernel
  rw [← hprint]
  apply ofSource_image.2
  rintro _ (_ | ⟨_, ⟨⟩⟩)
  exact ⟨Binary64.isNaN_ofCode hle, Binary64.isNegative_ofCode hle⟩

end Program
end ScalarScript
