import ScalarScript.Proofs.Number.Order
import ScalarScript.Proofs.Program.Answers
import ScalarScript.Proofs.Program.Dispatch

/-!
# Domains of functions

A number reaches a function written in the call, through a variable, through a binding of the caller
or directly, and the function answers the same on all these ways. The logarithms and the square root
go by the sign of the value of the number: both zeros are zero, and a number below zero, which comes
as a negation when it is written, is outside the domain.
-/

namespace ScalarScript

open Lexical

namespace Binary64

open Float.Model (UnpackedFloat)

variable {x : Float}

/-- A double is packed from what it unpacks to. -/
theorem pack_unpack_toModel (x : Float) : Float.Model.pack x.toModel.unpack = x.toModel :=
  congrArg Float.toModel (ofBits_toBits x)

/-- Both zeros are their own square roots. -/
theorem sqrt_of_value_eq_zero (hx : x.isFinite = true) (hzero : value x = 0) : x.sqrt = x := by
  have hsqrt : UnpackedFloat.sqrt .binary64 x.toModel.unpack = x.toModel.unpack := by
    have hcompare := beq_iff_compare.mp ((beq_zero_iff hx).mpr hzero)
    rw [unpack_zero] at hcompare
    generalize x.toModel.unpack = u at hcompare
    cases u with
    | zero s => rfl
    | notANumber => rfl
    | infinity s => cases s <;> cases hcompare
    | finite s => cases s <;> cases hcompare
  show Float.ofModel (Float.Model.pack (UnpackedFloat.sqrt .binary64 x.toModel.unpack)) = x
  rw [hsqrt, pack_unpack_toModel]

end Binary64

namespace Builtin

open Binary64 (value)

variable {x : Float}

/-- A logarithm goes by the sign of the value. -/
theorem logarithm_number (name : String) (f : Float → Float) (hx : x.isFinite = true) :
    logarithm name f [.number x] =
      if value x = 0 then .ok (.number (-Float.inf))
      else if value x < 0 then .error (.negativeArgument name)
      else .ok (.number (f x)) := by
  simp only [← Binary64.beq_zero_iff hx, ← Binary64.lt_zero_iff hx]
  rfl

theorem squareRoot_number (hx : x.isFinite = true) :
    squareRoot [.number x] =
      if value x < 0 then .error (.negativeArgument "sqrt") else .ok (.number x.sqrt) := by
  simp only [← Binary64.lt_zero_iff hx]
  rfl

theorem isName_name (f : Builtin) : IsName f.name := by
  have hhead : f.name.toList.head?.any Rule.isNameStart = true := by cases f <;> decide +kernel
  have htail : f.name.toList.tail.all Rule.isNamePart = true := by cases f <;> decide +kernel
  unfold IsName
  rw [language, mem_oneOf_mul]
  generalize f.name.toList = cs at hhead htail ⊢
  cases cs with
  | nil => cases hhead
  | cons c cs =>
    exact ⟨c, mem_nameStart.mpr hhead, cs,
      mem_kstar_oneOf.mpr fun d hd => mem_namePart.mpr (List.all_eq_true.mp htail d hd), rfl⟩

end Builtin

namespace Program

variable {f : Builtin} {w v : List Char} {ls ms : List Lexeme}

/-- Two statements with a line end or a semicolon between them. -/
theorem ofSource_of_reads_pair {s : Statement} {s' : ℕ → Statement} (hw : Reads w ls)
    (hs : Grammar.Statement (ls.map (⟨·, 1⟩)) s) (hv : Reads v ms)
    (hs' : ∀ line, Grammar.Statement (ms.map (⟨·, line⟩)) (s' line)) {sep : Char}
    (hsep : sep = '\n' ∨ sep = ';') :
    ∃ line, ofSource (String.ofList (w ++ sep :: v)) = .ok [s, s' line] := by
  have hdelimited : Delimited (sep :: v) := by
    intro d hd
    obtain rfl : sep = d := Option.some.inj hd
    rw [mem_namePart]
    rcases hsep with rfl | rfl <;> exact ⟨by decide, by simp [numberPart, digit, Char.le_def]⟩
  have hnil : ∀ line, Token.scan line [] = .ok [] := fun line => by rw [Token.scan]
  have hlast : ∀ line, Token.scan line v = .ok (ms.map (⟨·, line⟩)) := by
    intro line
    have hscan := hv line [] (by simp [Delimited])
    rw [hnil, List.append_nil] at hscan
    simpa [Except.map] using hscan
  have hsymbol : ∃ l line, l.isSeparator = true ∧
      Token.scan 1 (sep :: v) = .ok (⟨l, 1⟩ :: ms.map (⟨·, line⟩)) := by
    rcases hsep with rfl | rfl
    · refine ⟨.newLine, 2, rfl, ?_⟩
      rw [scan_symbol (by decide) rfl]
      exact congrArg (Except.map (_ :: ·)) (hlast 2)
    · refine ⟨.semicolon, 1, rfl, ?_⟩
      rw [scan_symbol (by decide) rfl]
      exact congrArg (Except.map (_ :: ·)) (hlast 1)
  obtain ⟨l, line, hl, hscan⟩ := hsymbol
  have hall := hw 1 _ hdelimited
  rw [hscan] at hall
  refine ⟨line, ofSource_of_tokens ?_ (.cons (t := ⟨l, 1⟩) hs hl (.single (hs' line)))⟩
  rw [Token.ofSource, String.toList_ofList, hall]
  rfl

theorem reads_call (f : Builtin) (hw : Reads w ls) :
    Reads (f.name.toList ++ '(' :: (w ++ [')']))
      (.name f.name :: .leftParen :: (ls ++ [.rightParen])) :=
  (reads_name f.isName_name).append hw.paren (by decide)

theorem chain_of_expression {ts : List Token} {e : Expr} {n : ℕ}
    (h : Grammar.Statement ts (.expression e n)) : Grammar.Chain .sum ts e := by
  cases h
  assumption

theorem statement_call (f : Builtin) {e : Expr} {line : ℕ}
    (h : Grammar.Chain .sum (ls.map (⟨·, line⟩)) e) :
    Grammar.Statement
      ((Lexeme.name f.name :: .leftParen :: (ls ++ [.rightParen])).map (⟨·, line⟩))
      (.expression (.call f.name [e] line) line) := by
  have hcall := Grammar.Primary.call (f := f.name) (n := line) (m := line) (k := line)
    (.some (.last h))
  rw [List.map_cons, List.map_cons, List.map_append]
  exact .expression hcall.chain

theorem chain_name (v : String) (line : ℕ) :
    Grammar.Chain .sum ([Lexeme.name v].map (⟨·, line⟩)) (.name v line) :=
  Grammar.Primary.name.chain

theorem value_call {env : Environment} {e : Expr} {x : Float}
    (he : e.eval env = .ok (.number x)) (f : Builtin) (line : ℕ) :
    value env [.expression (.call f.name [e] line) line] = .ofExcept (f.handle [.number x]) := by
  have hcall : (Expr.call f.name [e] line).eval env = f.handle [.number x] := by
    rw [Expr.eval_call, Expr.evalAll_cons, he, Expr.evalAll_nil]
    exact f.call_name _
  rw [value_single, ← hcall]
  rfl

end Program

namespace Script

variable {f : Builtin} {x : Float} {r : Except SyntaxError Value} {style : NumberStyle}
  {env : Environment} {v : String}

theorem runIn_of_ofSource {source : String} {p : Program}
    (h : Program.ofSource source = .ok p) : runIn env source = .ok (p.value env) := by
  rw [runIn, h]
  rfl

theorem toList_call (f : Builtin) (t : String) :
    f.name ++ "(" ++ t ++ ")" = String.ofList (f.name.toList ++ '(' :: (t.toList ++ [')'])) := by
  apply String.toList_inj.mp
  simp

theorem run_written (hstyle : style.wholeEnding = "" ∨ style.wholeEnding = ".0")
    (hx : x.isFinite = true) :
    run (f.name ++ "(" ++ style.write x ++ ")") = .ok (.ofExcept (f.handle [.number x])) := by
  obtain ⟨ls, e, hreads, hs, he⟩ := NumberStyle.reads_write hstyle hx
  have hcall := Program.statement_call f (Program.chain_of_expression hs)
  have hsource := (Program.ofSource_of_reads (Program.reads_call f hreads) hcall).1
  rw [toList_call, run, runIn_of_ofSource hsource, Program.value_call he]

theorem runIn_bound (hv : IsName v) (hlookup : env.lookup v = .ok (.number x)) :
    runIn env (f.name ++ "(" ++ v ++ ")") = .ok (.ofExcept (f.handle [.number x])) := by
  have hcall := Program.statement_call f (Program.chain_name v 1)
  have hsource := (Program.ofSource_of_reads (Program.reads_call f (reads_name hv)) hcall).1
  have hvalue : (Expr.name v 1).eval env = .ok (.number x) := by
    rw [Expr.eval_name, hlookup]
    rfl
  rw [toList_call, runIn_of_ofSource hsource, Program.value_call hvalue]

theorem run_assigned (hstyle : style.wholeEnding = "" ∨ style.wholeEnding = ".0")
    (hv : IsName v) {sep : Char} (hsep : sep = '\n' ∨ sep = ';') (hx : x.isFinite = true) :
    run (v ++ " = " ++ style.write x ++ String.singleton sep ++ f.name ++ "(" ++ v ++ ")") =
      .ok (.ofExcept (f.handle [.number x])) := by
  obtain ⟨ls, e, hreads, hs, he⟩ := NumberStyle.reads_write hstyle hx
  have hequals : Reads ('=' :: ' ' :: (style.write x).toList) (.equals :: ls) :=
    hreads.blank.symbol (by decide) (by decide) rfl
  have hassigned := (reads_name hv).append hequals.blank (by decide)
  have hassignment := Grammar.Statement.assignment (s := v) (n := 1) (m := 1)
    (Program.chain_of_expression hs)
  have hcall := fun line => Program.statement_call f (Program.chain_name v line)
  obtain ⟨line, hsource⟩ := Program.ofSource_of_reads_pair hassigned hassignment
    (Program.reads_call f (reads_name hv)) hcall hsep
  have htext : v ++ " = " ++ style.write x ++ String.singleton sep ++ f.name ++ "(" ++ v ++ ")" =
      String.ofList (v.toList ++ ' ' :: '=' :: ' ' :: (style.write x).toList ++
        sep :: (f.name.toList ++ '(' :: (v.toList ++ [')']))) := by
    apply String.toList_inj.mp
    simp
  have hvalue : (Expr.name v line).eval
      ((Statement.assignment v e 1).after .empty (.number x)) = .ok (.number x) := by
    rw [Expr.eval_name, Environment.lookup, Statement.find?_after, Statement.target?, if_pos rfl]
    rfl
  rw [htext, run, runIn_of_ofSource hsource, Program.value_cons_ok he (by simp),
    Program.value_call hvalue]

/-- What a call of the function on the number yields, on each way that the number may come. -/
inductive Reaches (f : Builtin) (x : Float) : Except SyntaxError Value → Prop
  | written (style : NumberStyle) (hstyle : style.wholeEnding = "" ∨ style.wholeEnding = ".0") :
      Reaches f x (run (f.name ++ "(" ++ style.write x ++ ")"))
  | assigned (style : NumberStyle) (hstyle : style.wholeEnding = "" ∨ style.wholeEnding = ".0")
      {v : String} (hv : IsName v) {sep : Char} (hsep : sep = '\n' ∨ sep = ';') :
      Reaches f x
        (run (v ++ " = " ++ style.write x ++ String.singleton sep ++ f.name ++ "(" ++ v ++ ")"))
  | bound {env : Environment} {v : String} (hv : IsName v)
      (hlookup : env.lookup v = .ok (.number x)) :
      Reaches f x (runIn env (f.name ++ "(" ++ v ++ ")"))
  | called : Reaches f x (.ok (.ofExcept (Builtin.call f.name [.number x])))
  | applied : Reaches f x (.ok (.ofExcept (f.handle [.number x])))

/-- All ways lead to the function itself. -/
theorem Reaches.eq (h : Reaches f x r) (hx : x.isFinite = true) :
    r = .ok (.ofExcept (f.handle [.number x])) := by
  cases h with
  | written style hstyle => exact run_written hstyle hx
  | assigned style hstyle hv hsep => exact run_assigned hstyle hv hsep hx
  | bound hv hlookup => exact runIn_bound hv hlookup
  | called => rw [f.call_name]
  | applied => rfl

open Binary64 (value)

/-- On each way to the function, the logarithm of either zero is minus infinity and that of a number
below zero an error, as is its square root; above zero they are the functions themselves, and the
square root also is on both zeros, which it leaves as they are. -/
theorem reaches_domain (x : Float) (hx : x.isFinite = true) :
    (∀ (f : Builtin) (g : Float → Float),
      (f, g) ∈ [(.log, Float.log), (.log2, Float.log2), (.log10, Float.log10)] →
      ∀ r, Reaches f x r →
        (value x = 0 → r = .ok (.number (-Float.inf))) ∧
        (value x < 0 → r = .ok (.error ⟨.domain, f.name ++ " of negative number"⟩)) ∧
        (0 < value x → r = .ok (.number (g x)))) ∧
    ∀ r, Reaches .sqrt x r →
      (value x < 0 → r = .ok (.error ⟨.domain, "sqrt of negative number"⟩)) ∧
      (0 ≤ value x → r = .ok (.number x.sqrt)) ∧
      (value x = 0 → r = .ok (.number x)) := by
  constructor
  · intro f g hf r hr
    have hlogarithm : f.handle [.number x] = Builtin.logarithm f.name g [.number x] := by
      simp only [List.mem_cons, List.not_mem_nil, or_false, Prod.mk.injEq] at hf
      rcases hf with ⟨rfl, rfl⟩ | ⟨rfl, rfl⟩ | ⟨rfl, rfl⟩ <;> rfl
    rw [hr.eq hx, hlogarithm, Builtin.logarithm_number f.name g hx]
    refine ⟨fun hzero => ?_, fun hneg => ?_, fun hpos => ?_⟩
    · rw [if_pos hzero]
      rfl
    · rw [if_neg hneg.ne, if_pos hneg]
      rfl
    · rw [if_neg hpos.ne', if_neg hpos.not_gt]
      rfl
  · intro r hr
    have hroot : Builtin.sqrt.handle [.number x] = Builtin.squareRoot [.number x] := rfl
    rw [hr.eq hx, hroot, Builtin.squareRoot_number hx]
    refine ⟨fun hneg => ?_, fun hle => ?_, fun hzero => ?_⟩
    · rw [if_pos hneg]
      rfl
    · rw [if_neg hle.not_gt]
      rfl
    · rw [if_neg hzero.not_lt, Binary64.sqrt_of_value_eq_zero hx hzero]
      rfl

/-- Minus zero, written and through a variable, minus one and two. -/
theorem reaches_domain_minus_zero :
    run "log(-0)" = .ok (.number (-Float.inf)) ∧
      run "x = -0.0\nsqrt(x)" = .ok (.number (-0.0)) ∧
      run "log2(-1.0)" = .ok (.error ⟨.domain, "log2 of negative number"⟩) ∧
      run "log10(2)" = .ok (.number (Float.log10 2)) := by
  have hzero : (-0.0 : Float).isFinite = true := by decide +kernel
  have hone : (-1.0 : Float).isFinite = true := by decide +kernel
  have htwo : (2 : Float).isFinite = true := by decide +kernel
  have hvalue : value (-0.0) = 0 := (Binary64.beq_zero_iff hzero).mp (by decide +kernel)
  have hneg : value (-1.0) < 0 := (Binary64.lt_zero_iff hone).mp (by decide +kernel)
  have hpos : 0 < value 2 := by
    rw [← not_le, le_iff_lt_or_eq, ← Binary64.lt_zero_iff htwo, ← Binary64.beq_zero_iff htwo]
    decide +kernel
  have hx : IsName "x" := ⟨['x'], ⟨'x', by simp [nameStart, Char.le_def], rfl⟩, [],
    Language.nil_mem_kstar _, rfl⟩
  have hlog := ((reaches_domain (-0.0) hzero).1 .log Float.log (by simp) _
    (.written .plain (Or.inl rfl))).1 hvalue
  have hsqrt := ((reaches_domain (-0.0) hzero).2 _
    (.assigned .marked (Or.inr rfl) hx (Or.inl rfl))).2.2 hvalue
  have hlog2 := ((reaches_domain (-1.0) hone).1 .log2 Float.log2 (by simp) _
    (.written .marked (Or.inr rfl))).2.1 hneg
  have hlog10 := ((reaches_domain 2 htwo).1 .log10 Float.log10 (by simp) _
    (.written .plain (Or.inl rfl))).2.2 hpos
  have hplain : NumberStyle.plain.write (-0.0) = "-0" := by decide +kernel
  have hdigit : NumberStyle.plain.write 2 = "2" := by decide +kernel
  have hmarked : NumberStyle.marked.write (-0.0) = "-0.0" := by decide +kernel
  have hminus : NumberStyle.marked.write (-1.0) = "-1.0" := by decide +kernel
  rw [hplain] at hlog
  rw [hmarked] at hsqrt
  rw [hminus] at hlog2
  rw [hdigit] at hlog10
  exact ⟨hlog, hsqrt, hlog2, hlog10⟩

end Script
end ScalarScript
