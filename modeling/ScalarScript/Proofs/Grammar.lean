import ScalarScript.Program.Phrase

/-!
# The grammar

The rules of the language, read as relations between the tokens of a phrase and what the phrase
denotes. Nothing here depends on how a phrase is found in a longer list: a relation holds of exactly
the tokens that the phrase is made of. Sums and products share their rules, which lean to the left;
parentheses add tokens and no node. The rules also fix all lines: a node has the line of its
operator, its minus sign or its name, and an expression alone that of its first token.
-/

namespace ScalarScript

def Operator.lexeme : Operator → Lexeme
  | add => .plus
  | sub => .minus
  | mul => .star
  | div => .slash
  | pow => .caret

namespace Grammar

/-- The operators that join the operands of a chain. -/
inductive Joins : Level → Lexeme → Operator → Prop
  | plus : Joins .sum .plus .add
  | minus : Joins .sum .minus .sub
  | star : Joins .product .star .mul
  | slash : Joins .product .slash .div

mutual

/-- `sum := product (("+" | "-") product)*` and `product := unary (("*" | "/") unary)*` -/
inductive Chain : Level → List Token → Expr → Prop
  | single {level ts e} : Operand level ts e → Chain level ts e
  | join {level xs l lexeme op n ys r} : Chain level xs l → Joins level lexeme op →
      Operand level ys r → Chain level (xs ++ ⟨lexeme, n⟩ :: ys) (.binary op l r n)

inductive Operand : Level → List Token → Expr → Prop
  | product {ts e} : Chain .product ts e → Operand .sum ts e
  | unary {ts e} : Unary ts e → Operand .product ts e

/-- `unary := "-" unary | power` -/
inductive Unary : List Token → Expr → Prop
  | minus {n ts e} : Unary ts e → Unary (⟨.minus, n⟩ :: ts) (.negation e n)
  | power {ts e} : Power ts e → Unary ts e

/-- `power := primary ("^" unary)?` -/
inductive Power : List Token → Expr → Prop
  | primary {ts e} : Primary ts e → Power ts e
  | caret {xs b n ys x} : Primary xs b → Unary ys x →
      Power (xs ++ ⟨.caret, n⟩ :: ys) (.binary .pow b x n)

/-- `primary := number | name | name "(" arguments ")" | "(" sum ")"` -/
inductive Primary : List Token → Expr → Prop
  | number {x n} : Primary [⟨.number x, n⟩] (.number x n)
  | name {s n} : Primary [⟨.name s, n⟩] (.name s n)
  | call {f n m ts es k} : Arguments ts es →
      Primary (⟨.name f, n⟩ :: ⟨.leftParen, m⟩ :: (ts ++ [⟨.rightParen, k⟩])) (.call f es n)
  | paren {m ts e k} : Chain .sum ts e →
      Primary (⟨.leftParen, m⟩ :: (ts ++ [⟨.rightParen, k⟩])) e

/-- `arguments := (sum ("," sum)*)?` -/
inductive Arguments : List Token → List Expr → Prop
  | none : Arguments [] []
  | some {ts es} : SomeArguments ts es → Arguments ts es

inductive SomeArguments : List Token → List Expr → Prop
  | last {ts e} : Chain .sum ts e → SomeArguments ts [e]
  | more {xs e n ys es} : Chain .sum xs e → SomeArguments ys es →
      SomeArguments (xs ++ ⟨.comma, n⟩ :: ys) (e :: es)

end

theorem Primary.chain {level : Level} {ts : List Token} {e : Expr} (h : Primary ts e) :
    Chain level ts e := by
  have hproduct : Chain .product ts e := .single (.unary (.power (.primary h)))
  cases level with
  | sum => exact .single (.product hproduct)
  | product => exact hproduct

/-- `statement := name "=" sum | sum` -/
inductive Statement : List Token → ScalarScript.Statement → Prop
  | assignment {s n m ts e} : Chain .sum ts e →
      Statement (⟨.name s, n⟩ :: ⟨.equals, m⟩ :: ts) (.assignment s e n)
  | expression {t ts e} : Chain .sum (t :: ts) e → Statement (t :: ts) (.expression e t.line)

/-- Any number of separators. -/
def Separators (ts : List Token) : Prop :=
  ∀ t ∈ ts, t.lexeme = .semicolon ∨ t.lexeme = .newLine

/-- `statements := statement (separator+ statement)*` -/
inductive Statements : List Token → ScalarScript.Program → Prop
  | last {ts s} : Statement ts s → Statements ts [s]
  | more {xs s gap ys p} : Statement xs s → Separators gap → gap ≠ [] → Statements ys p →
      Statements (xs ++ gap ++ ys) (s :: p)

/-- `program := separator* statements? separator*` -/
inductive Program : List Token → ScalarScript.Program → Prop
  | none {before after} : Separators before → Separators after → Program (before ++ after) []
  | some {before ts p after} : Separators before → Statements ts p → Separators after →
      Program (before ++ ts ++ after) p

@[simp] theorem separators_nil : Separators [] := by simp [Separators]

@[simp] theorem separators_cons {t : Token} {ts : List Token} :
    Separators (t :: ts) ↔ t.lexeme.isSeparator = true ∧ Separators ts := by
  have h : (t.lexeme = .semicolon ∨ t.lexeme = .newLine) ↔ t.lexeme.isSeparator = true := by
    cases t.lexeme <;> simp [Lexeme.isSeparator]
  simp [Separators, h]

@[simp] theorem separators_append {xs ys : List Token} :
    Separators (xs ++ ys) ↔ Separators xs ∧ Separators ys := by
  constructor
  · intro h
    exact ⟨fun t ht => h t (List.mem_append_left ys ht),
      fun t ht => h t (List.mem_append_right xs ht)⟩
  · rintro ⟨hx, hy⟩ t ht
    rcases List.mem_append.mp ht with ht | ht
    · exact hx t ht
    · exact hy t ht

/-- What an expression without a minus sign in front starts with. -/
def startsPrimary : Lexeme → Bool
  | .number _ | .name _ | .leftParen => true
  | _ => false

/-- What an expression starts with. -/
def startsExpr (lexeme : Lexeme) : Bool := lexeme = .minus || startsPrimary lexeme

theorem Primary.starts {ts : List Token} {e : Expr} (h : Primary ts e) :
    ∃ t us, ts = t :: us ∧ startsPrimary t.lexeme = true := by
  cases h <;> exact ⟨_, _, rfl, rfl⟩

theorem Power.starts {ts : List Token} {e : Expr} (h : Power ts e) :
    ∃ t us, ts = t :: us ∧ startsPrimary t.lexeme = true := by
  cases h with
  | primary h => exact h.starts
  | caret h _ =>
    obtain ⟨t, us, rfl, ht⟩ := h.starts
    exact ⟨t, _, rfl, ht⟩

theorem Unary.starts {ts : List Token} {e : Expr} (h : Unary ts e) :
    ∃ t us, ts = t :: us ∧ startsExpr t.lexeme = true := by
  cases h with
  | minus _ => exact ⟨_, _, rfl, rfl⟩
  | power h =>
    obtain ⟨t, us, rfl, ht⟩ := h.starts
    exact ⟨t, us, rfl, by simp [startsExpr, ht]⟩

mutual

theorem Chain.starts : ∀ {level : Level} {ts : List Token} {e : Expr}, Chain level ts e →
    ∃ t us, ts = t :: us ∧ startsExpr t.lexeme = true
  | _, _, _, .single h => h.starts
  | _, _, _, .join h _ _ => by
    obtain ⟨t, us, rfl, ht⟩ := h.starts
    exact ⟨t, _, rfl, ht⟩

theorem Operand.starts : ∀ {level : Level} {ts : List Token} {e : Expr}, Operand level ts e →
    ∃ t us, ts = t :: us ∧ startsExpr t.lexeme = true
  | _, _, _, .product h => h.starts
  | _, _, _, .unary h => h.starts

end

theorem SomeArguments.starts {ts : List Token} {es : List Expr} (h : SomeArguments ts es) :
    ∃ t us, ts = t :: us ∧ startsExpr t.lexeme = true := by
  cases h with
  | last h => exact h.starts
  | more h _ =>
    obtain ⟨t, us, rfl, ht⟩ := h.starts
    exact ⟨t, _, rfl, ht⟩

theorem Joins.lexeme_eq {level : Level} {lexeme : Lexeme} {op : Operator}
    (h : Joins level lexeme op) : lexeme = op.lexeme := by
  cases h <;> rfl

/-- `P` of expressions and their tokens and `Q` of arguments and theirs go from the parts to the
whole. Levels do not matter here, so sums, products and powers share one rule. -/
structure Hereditary (P : List Token → Expr → Prop) (Q : List Token → List Expr → Prop) : Prop where
  number : ∀ x n, P [⟨.number x, n⟩] (.number x n)
  name : ∀ s n, P [⟨.name s, n⟩] (.name s n)
  negation : ∀ {ts e} n, P ts e → P (⟨.minus, n⟩ :: ts) (.negation e n)
  binary : ∀ {xs l ys r} op n, P xs l →
    (∃ t us, ys = t :: us ∧ startsExpr t.lexeme = true) → P ys r →
      P (xs ++ ⟨op.lexeme, n⟩ :: ys) (.binary op l r n)
  call : ∀ {ts es} f n m k, Q ts es →
    P (⟨.name f, n⟩ :: ⟨.leftParen, m⟩ :: (ts ++ [⟨.rightParen, k⟩])) (.call f es n)
  paren : ∀ {ts e} m k, P ts e → P (⟨.leftParen, m⟩ :: (ts ++ [⟨.rightParen, k⟩])) e
  none : Q [] []
  last : ∀ {ts e}, P ts e → Q ts [e]
  more : ∀ {xs e ys es} n, P xs e → (∃ t us, ys = t :: us ∧ startsExpr t.lexeme = true) →
    Q ys es → Q (xs ++ ⟨.comma, n⟩ :: ys) (e :: es)

namespace Hereditary

variable {P : List Token → Expr → Prop} {Q : List Token → List Expr → Prop}

mutual

/-- Such a property holds of every derivation. -/
theorem chain (hP : Hereditary P Q) : ∀ {level : Level} {ts : List Token} {e : Expr},
    Chain level ts e → P ts e
  | _, _, _, .single h => hP.operand h
  | _, _, _, .join hl hj hr => by
    obtain rfl := hj.lexeme_eq
    exact hP.binary _ _ (hP.chain hl) hr.starts (hP.operand hr)

theorem operand (hP : Hereditary P Q) : ∀ {level : Level} {ts : List Token} {e : Expr},
    Operand level ts e → P ts e
  | _, _, _, .product h => hP.chain h
  | _, _, _, .unary h => hP.unary h

theorem unary (hP : Hereditary P Q) : ∀ {ts : List Token} {e : Expr}, Unary ts e → P ts e
  | _, _, .minus h => hP.negation _ (hP.unary h)
  | _, _, .power h => hP.power h

theorem power (hP : Hereditary P Q) : ∀ {ts : List Token} {e : Expr}, Power ts e → P ts e
  | _, _, .primary h => hP.primary h
  | _, _, .caret hb hx => hP.binary .pow _ (hP.primary hb) hx.starts (hP.unary hx)

theorem primary (hP : Hereditary P Q) : ∀ {ts : List Token} {e : Expr}, Primary ts e → P ts e
  | _, _, .number => hP.number _ _
  | _, _, .name => hP.name _ _
  | _, _, .call h => hP.call _ _ _ _ (hP.arguments h)
  | _, _, .paren h => hP.paren _ _ (hP.chain h)

theorem arguments (hP : Hereditary P Q) : ∀ {ts : List Token} {es : List Expr},
    Arguments ts es → Q ts es
  | _, _, .none => hP.none
  | _, _, .some h => hP.someArguments h

theorem someArguments (hP : Hereditary P Q) : ∀ {ts : List Token} {es : List Expr},
    SomeArguments ts es → Q ts es
  | _, _, .last h => hP.last (hP.chain h)
  | _, _, .more h hs => hP.more _ (hP.chain h) hs.starts (hP.someArguments hs)

end

end Hereditary

/-- A property of programs and their tokens that holds of separators and of each statement, and of
two parts together, holds of every program. -/
@[elab_as_elim]
theorem Program.of_parts {R : List Token → ScalarScript.Program → Prop} {ts : List Token}
    {p : ScalarScript.Program} (h : Program ts p) (gap : ∀ {ts}, Separators ts → R ts [])
    (single : ∀ {ts s}, Statement ts s → R ts [s])
    (append : ∀ {xs ys p q}, R xs p → R ys q → R (xs ++ ys) (p ++ q)) : R ts p := by
  have hstatements : ∀ {ts p}, Statements ts p → R ts p := by
    intro ts p h
    induction h with
    | last h => exact single h
    | more h hgap _ _ ih => exact append (append (single h) (gap hgap)) ih
  cases h with
  | none hb ha => exact append (gap hb) (gap ha)
  | some hb hs ha => simpa using append (append (gap hb) (hstatements hs)) (gap ha)

/-- What occurs in an expression. Comments and blanks are among the lexemes that do not. -/
def inExpr : Lexeme → Bool
  | .equals | .semicolon | .newLine | .lineComment | .blockComment | .blank => false
  | _ => true

theorem hereditary_inExpr : Hereditary (fun ts _ => ∀ t ∈ ts, inExpr t.lexeme = true)
    fun ts _ => ∀ t ∈ ts, inExpr t.lexeme = true where
  number _ _ := by simp [inExpr]
  name _ _ := by simp [inExpr]
  negation _ h := List.forall_mem_cons.mpr ⟨rfl, h⟩
  binary op _ hl _ hr :=
    List.forall_mem_append.mpr ⟨hl, List.forall_mem_cons.mpr ⟨by cases op <;> rfl, hr⟩⟩
  call _ _ _ _ h := by
    simp only [List.forall_mem_cons, List.forall_mem_append]
    exact ⟨rfl, rfl, h, rfl, by simp⟩
  paren _ _ h := by
    simp only [List.forall_mem_cons, List.forall_mem_append]
    exact ⟨rfl, h, rfl, by simp⟩
  none := List.forall_mem_nil _
  last h := h
  more _ h _ hs := List.forall_mem_append.mpr ⟨h, List.forall_mem_cons.mpr ⟨rfl, hs⟩⟩

end Grammar
end ScalarScript
