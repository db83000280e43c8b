import ScalarScript.Proofs.Grammar
import ScalarScript.Evaluation

/-!
# Lines

Lines are carried along and decide nothing: a change of all lines of a token list changes the lines
of the program that the grammar derives from it in the same way, and the value of a program does not
depend on its lines.
-/

namespace ScalarScript

def Token.mapLine (f : Nat → Nat) (t : Token) : Token := ⟨t.lexeme, f t.line⟩

namespace Expr

mutual

def mapLines (f : Nat → Nat) : Expr → Expr
  | .number x n => .number x (f n)
  | .name s n => .name s (f n)
  | .negation e n => .negation (e.mapLines f) (f n)
  | .binary op l r n => .binary op (l.mapLines f) (r.mapLines f) (f n)
  | .call g es n => .call g (mapLinesAll f es) (f n)

def mapLinesAll (f : Nat → Nat) : List Expr → List Expr
  | [] => []
  | e :: es => e.mapLines f :: mapLinesAll f es

end

end Expr

def Statement.mapLines (f : Nat → Nat) : Statement → Statement
  | .assignment s e n => .assignment s (e.mapLines f) (f n)
  | .expression e n => .expression (e.mapLines f) (f n)

def Program.mapLines (f : Nat → Nat) (p : Program) : Program := p.map (Statement.mapLines f)

namespace Expr

mutual

theorem mapLines_mapLines (f g : Nat → Nat) :
    ∀ e : Expr, (e.mapLines f).mapLines g = e.mapLines (g ∘ f)
  | .number _ _ | .name _ _ => rfl
  | .negation e _ => by simp only [mapLines, mapLines_mapLines f g e, Function.comp]
  | .binary _ l r _ => by
    simp only [mapLines, mapLines_mapLines f g l, mapLines_mapLines f g r, Function.comp]
  | .call _ es _ => by simp only [mapLines, mapLinesAll_mapLinesAll f g es, Function.comp]

theorem mapLinesAll_mapLinesAll (f g : Nat → Nat) :
    ∀ es : List Expr, mapLinesAll g (mapLinesAll f es) = mapLinesAll (g ∘ f) es
  | [] => rfl
  | e :: es => by
    simp only [mapLinesAll, mapLines_mapLines f g e, mapLinesAll_mapLinesAll f g es]

end

end Expr

theorem Statement.mapLines_mapLines (f g : Nat → Nat) (s : Statement) :
    (s.mapLines f).mapLines g = s.mapLines (g ∘ f) := by
  cases s <;> simp only [mapLines, Expr.mapLines_mapLines, Function.comp]

/-- Programs that differ in their lines at most. -/
def Program.EqUpToLines (p q : Program) : Prop := p.mapLines (fun _ => 0) = q.mapLines (fun _ => 0)

namespace Grammar

variable {f : Nat → Nat}

mutual

theorem Chain.mapLines : ∀ {level : Level} {ts : List Token} {e : Expr}, Chain level ts e →
    Chain level (ts.map (Token.mapLine f)) (e.mapLines f)
  | _, _, _, .single h => .single h.mapLines
  | _, _, _, .join hl hj hr => by
    rw [List.map_append, List.map_cons]
    exact .join hl.mapLines hj hr.mapLines

theorem Operand.mapLines : ∀ {level : Level} {ts : List Token} {e : Expr}, Operand level ts e →
    Operand level (ts.map (Token.mapLine f)) (e.mapLines f)
  | _, _, _, .product h => .product h.mapLines
  | _, _, _, .unary h => .unary h.mapLines

theorem Unary.mapLines : ∀ {ts : List Token} {e : Expr}, Unary ts e →
    Unary (ts.map (Token.mapLine f)) (e.mapLines f)
  | _, _, .minus h => .minus h.mapLines
  | _, _, .power h => .power h.mapLines

theorem Power.mapLines : ∀ {ts : List Token} {e : Expr}, Power ts e →
    Power (ts.map (Token.mapLine f)) (e.mapLines f)
  | _, _, .primary h => .primary h.mapLines
  | _, _, .caret hb hx => by
    rw [List.map_append, List.map_cons]
    exact .caret hb.mapLines hx.mapLines

theorem Primary.mapLines : ∀ {ts : List Token} {e : Expr}, Primary ts e →
    Primary (ts.map (Token.mapLine f)) (e.mapLines f)
  | _, _, .number => .number
  | _, _, .name => .name
  | _, _, .call h => by
    rw [List.map_cons, List.map_cons, List.map_append]
    exact .call h.mapLines
  | _, _, .paren h => by
    rw [List.map_cons, List.map_append]
    exact .paren h.mapLines

theorem Arguments.mapLines : ∀ {ts : List Token} {es : List Expr}, Arguments ts es →
    Arguments (ts.map (Token.mapLine f)) (Expr.mapLinesAll f es)
  | _, _, .none => .none
  | _, _, .some h => .some h.mapLines

theorem SomeArguments.mapLines : ∀ {ts : List Token} {es : List Expr}, SomeArguments ts es →
    SomeArguments (ts.map (Token.mapLine f)) (Expr.mapLinesAll f es)
  | _, _, .last h => .last h.mapLines
  | _, _, .more h hs => by
    rw [List.map_append, List.map_cons]
    exact .more h.mapLines hs.mapLines

end

theorem Statement.mapLines {ts : List Token} {s : ScalarScript.Statement} (h : Statement ts s) :
    Statement (ts.map (Token.mapLine f)) (s.mapLines f) := by
  cases h with
  | assignment h => exact .assignment h.mapLines
  | @expression t ts e h => exact @Statement.expression (t.mapLine f) _ _ h.mapLines

theorem Separators.mapLine {ts : List Token} (h : Separators ts) :
    Separators (ts.map (Token.mapLine f)) := by
  intro t ht
  obtain ⟨u, hu, rfl⟩ := List.mem_map.mp ht
  exact h u hu

theorem Statements.mapLines {ts : List Token} {p : ScalarScript.Program} (h : Statements ts p) :
    Statements (ts.map (Token.mapLine f)) (p.mapLines f) := by
  induction h with
  | last h => exact .last h.mapLines
  | more h hgap hne _ ih =>
    rw [List.map_append, List.map_append]
    exact .more h.mapLines hgap.mapLine (by simpa using hne) ih

theorem Program.mapLines {ts : List Token} {p : ScalarScript.Program} (h : Program ts p) :
    Program (ts.map (Token.mapLine f)) (p.mapLines f) := by
  cases h with
  | none hb ha =>
    rw [List.map_append]
    exact .none hb.mapLine ha.mapLine
  | some hb hs ha =>
    rw [List.map_append, List.map_append]
    exact .some hb.mapLine hs.mapLines ha.mapLine

end Grammar

namespace Expr

mutual

theorem eval_mapLines (f : Nat → Nat) (env : Environment) :
    ∀ e : Expr, (e.mapLines f).eval env = e.eval env
  | .number x n => rfl
  | .name s n => by rw [mapLines, eval_name, eval_name]
  | .negation e n => by rw [mapLines, eval_negation, eval_negation, eval_mapLines f env e]
  | .binary op l r n => by
    rw [mapLines, eval_binary, eval_binary, eval_mapLines f env l, eval_mapLines f env r]
  | .call g es n => by rw [mapLines, eval_call, eval_call, evalAll_mapLines f env es]

theorem evalAll_mapLines (f : Nat → Nat) (env : Environment) :
    ∀ es : List Expr, evalAll env (mapLinesAll f es) = evalAll env es
  | [] => rfl
  | e :: es => by
    rw [mapLinesAll, evalAll_cons, evalAll_cons, eval_mapLines f env e, evalAll_mapLines f env es]

end

end Expr

end ScalarScript
