import ScalarScript.CommandLine
import ScalarScript.Proofs.Number.Written
import ScalarScript.Proofs.Program.Names
import ScalarScript.Proofs.Program.Printing

/-!
# Answers

A finite number that has been written is a script with that number as its value, however large
numbers are written and whether or not a line end follows. The sign is read as a negation, which
gives back every bit since it only flips the one of the sign.
-/

namespace ScalarScript

open Lexical

namespace Program

/-- A text that is read as a statement is a program, also with a line end. -/
theorem ofSource_of_reads {w : List Char} {ls : List Lexeme} {s : Statement} (hw : Reads w ls)
    (hs : Grammar.Statement (ls.map (⟨·, 1⟩)) s) :
    ofSource (String.ofList w) = .ok [s] ∧ ofSource (String.ofList w ++ "\n") = .ok [s] := by
  have hnil : ∀ line, Token.scan line [] = .ok [] := fun line => by rw [Token.scan]
  constructor
  · have hscan := hw 1 [] (by simp [Delimited])
    rw [hnil, List.append_nil] at hscan
    apply ofSource_of_tokens ?_ (.single hs)
    simpa [Token.ofSource, Except.map] using hscan
  · have hscan := hw 1 ['\n'] (delimited_cons (by decide) [])
    rw [scan_symbol (by decide) rfl, hnil] at hscan
    apply ofSource_of_tokens ?_ (Grammar.Program.cons (t := ⟨.newLine, 1⟩) hs rfl .nil)
    simpa [Token.ofSource, Except.map] using hscan

end Program

namespace NumberStyle

variable {style : NumberStyle} {x : Float}

/-- A finite number is written as an expression with that number as its value. -/
theorem reads_write (hstyle : style.wholeEnding = "" ∨ style.wholeEnding = ".0")
    (hx : x.isFinite = true) :
    ∃ ls e, Reads (style.write x).toList ls ∧
      Grammar.Statement (ls.map (⟨·, 1⟩)) (.expression e 1) ∧
      e.eval .empty = .ok (.number x) := by
  have hfinite := (Binary64.isFinite_iff x).mp hx
  have hn : x.isNaN = false := by
    rw [Bool.eq_false_iff, ne_eq, Binary64.isNaN_iff]
    omega
  obtain ⟨hmem, hvalue⟩ := spells_writeCode hstyle hfinite
  have hreads := reads_of_mem_number hmem
  rw [hvalue] at hreads
  unfold write
  rw [hn, if_neg Bool.false_ne_true, String.toList_ofList]
  cases hs : Binary64.isNegative x with
  | false =>
    rw [Binary64.ofCode_code hs] at hreads
    exact ⟨_, .number x 1, hreads, .expression (Grammar.Primary.number.chain), rfl⟩
  | true =>
    have hminus := Grammar.Unary.minus (n := 1)
      (.power (.primary (.number (x := Binary64.ofCode (Binary64.code x)) (n := 1))))
    refine ⟨_, .negation (.number (Binary64.ofCode (Binary64.code x)) 1) 1,
      hreads.symbol (by decide) (by decide) rfl,
      .expression (.single (.product (.single (.unary hminus)))), ?_⟩
    rw [Expr.eval_negation]
    show Except.ok (Value.number (-Binary64.ofCode (Binary64.code x))) = _
    rw [Binary64.neg_ofCode_code hn hs]

end NumberStyle

namespace Script

theorem run_write {style : NumberStyle} {x : Float}
    (hstyle : style.wholeEnding = "" ∨ style.wholeEnding = ".0") (hx : x.isFinite = true) :
    run (style.write x) = .ok (.number x) ∧ run (style.write x ++ "\n") = .ok (.number x) := by
  obtain ⟨ls, e, hreads, hs, he⟩ := NumberStyle.reads_write hstyle hx
  obtain ⟨hplain, hline⟩ := Program.ofSource_of_reads hreads hs
  rw [String.ofList_toList] at hplain hline
  have hvalue : Program.value .empty [.expression e 1] = .number x := by
    rw [Program.value_single]
    exact congrArg Value.ofExcept he
  unfold run runIn
  rw [hplain, hline, ← hvalue]
  exact ⟨rfl, rfl⟩

/-- A finite number is the value of its answer and of its marked form, which may start to use
exponents anywhere, each with or without a line end; so an answer that has been printed can be run
again. -/
theorem run_text (x : Float) (hx : x.isFinite = true) :
    (run (Value.text (.number x)) = .ok (.number x) ∧
      run (Value.text (.number x) ++ "\n") = .ok (.number x)) ∧
    (run (NumberStyle.marked.write x) = .ok (.number x) ∧
      run (NumberStyle.marked.write x ++ "\n") = .ok (.number x)) ∧
    (∀ positional : Int → Bool,
      run ({ NumberStyle.marked with positional := positional }.write x) = .ok (.number x) ∧
        run ({ NumberStyle.marked with positional := positional }.write x ++ "\n") =
          .ok (.number x)) ∧
    ∀ (call : CommandLine.Invocation) (source : String), call.printsValue = true →
      run source = .ok (.number x) → run (call.respondTo source).output = .ok (.number x) := by
  have hplain := @run_write .plain x (Or.inl rfl) hx
  refine ⟨hplain, run_write (Or.inr rfl) hx, fun _ => run_write (Or.inr rfl) hx, ?_⟩
  intro call source hcall hsource
  have houtput : (call.respondTo source).output = Value.text (.number x) ++ "\n" := by
    unfold CommandLine.Invocation.respondTo result
    rw [hsource, hcall]
    rfl
  rw [houtput]
  exact hplain.2

/-- Minus zero and the smallest magnitude above zero. -/
theorem run_text_minus_zero :
    run "-0" = .ok (.number (-0.0)) ∧ run "-0.0\n" = .ok (.number (-0.0)) ∧
      run "5e-324" = .ok (.number (Binary64.ofCode 1)) ∧
      run (CommandLine.Invocation.respondTo ⟨true, false, "-0"⟩ "-0").output =
        .ok (.number (-0.0)) := by
  have hzero := run_text (-0.0) (by decide +kernel)
  have hsmallest := run_text (Binary64.ofCode 1) (by decide +kernel)
  have hplain : Value.text (.number (-0.0)) = "-0" := by decide +kernel
  have hmarked : NumberStyle.marked.write (-0.0) = "-0.0" := by decide +kernel
  have hexponent : NumberStyle.marked.write (Binary64.ofCode 1) = "5e-324" := by decide +kernel
  rw [hplain, hmarked] at hzero
  rw [hexponent] at hsmallest
  exact ⟨hzero.1.1, hzero.2.1.2, hsmallest.2.1.1, hzero.2.2.2 _ _ rfl hzero.1.1⟩

end Script
end ScalarScript
