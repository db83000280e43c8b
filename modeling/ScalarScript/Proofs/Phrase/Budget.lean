import ScalarScript.Proofs.Outcome
import ScalarScript.Proofs.Phrase.Equations

/-!
# Readings on a budget

The readings carry with them that they take tokens, so that they end is part of their definition.
Here they stand once more without it. A reading gets a budget and spends one unit of it wherever it
calls itself or another one behind a token, which is also where a loop makes its next turn; a call
in front of the same token is free. Nothing is known about the tokens left over, and where the
budget is used up there is no answer. As many units as there are tokens are enough for the answer of
the unlimited reading, so no call and no turn is made without a token taken before it.
-/

namespace ScalarScript

/-- What comes of a limited computation; the error `none` says that its budget is used up. -/
abbrev Budgeted (α : Type) := Except (Option SyntaxError) α

/-- Goes on with one unit less. -/
def spend {α : Type} (n : Nat) (k : (m : Nat) → m < n → Budgeted α) : Budgeted α :=
  match n with
  | 0 => .error none
  | m + 1 => k m (Nat.lt_succ_self m)

namespace Phrase

mutual

def chainWithin (n : Nat) (level : Level) (ts : List Token) : Budgeted (Expr × List Token) := do
  let (first, rest) ← operandWithin n level ts
  chainFromWithin n level first rest
termination_by (n, level.height + 1)

def chainFromWithin (n : Nat) (level : Level) (left : Expr) (ts : List Token) :
    Budgeted (Expr × List Token) :=
  match ts with
  | [] => .ok (left, [])
  | t :: ts =>
    match level.operator? t.lexeme with
    | none => .ok (left, t :: ts)
    | some op => spend n fun m _ => do
      let (right, rest) ← operandWithin m level ts
      chainFromWithin m level (.binary op left right t.line) rest
termination_by (n, 0)

def operandWithin (n : Nat) (level : Level) (ts : List Token) : Budgeted (Expr × List Token) :=
  match level with
  | .sum => chainWithin n .product ts
  | .product => unaryWithin n ts
termination_by (n, level.height)
decreasing_by all_goals exact Prod.Lex.right _ (by decide)

def unaryWithin (n : Nat) (ts : List Token) : Budgeted (Expr × List Token) :=
  match ts with
  | ⟨.minus, line⟩ :: ts => spend n fun m _ => do
    let (e, rest) ← unaryWithin m ts
    return (.negation e line, rest)
  | ts => powerWithin n ts
termination_by (n, 2)

def powerWithin (n : Nat) (ts : List Token) : Budgeted (Expr × List Token) := do
  match ← primaryWithin n ts with
  | (base, ⟨.caret, line⟩ :: rest) => spend n fun m _ => do
    let (exponent, rest') ← unaryWithin m rest
    return (.binary .pow base exponent line, rest')
  | (base, rest) => return (base, rest)
termination_by (n, 1)

def primaryWithin (n : Nat) (ts : List Token) : Budgeted (Expr × List Token) :=
  match ts with
  | [] => .error (some (.unexpectedEnd 0))
  | t :: ts =>
    match t.lexeme with
    | .number x => .ok (.number x t.line, ts)
    | .name s =>
      match ts with
      | ⟨.leftParen, opening⟩ :: ts => spend n fun m _ => do
        let (es, rest) ← argumentsWithin m opening ts
        return (.call s es t.line, rest)
      | ts => .ok (.name s t.line, ts)
    | .leftParen => spend n fun m _ => do
      match ← chainWithin m .sum ts with
      | (e, ⟨.rightParen, _⟩ :: rest) => return (e, rest)
      | _ => throw (some (.unclosedParen t.line))
    | other => .error (some (.unexpectedToken other.text t.line))
termination_by (n, 0)

def argumentsWithin (n : Nat) (opening : Nat) (ts : List Token) :
    Budgeted (List Expr × List Token) :=
  match ts with
  | ⟨.rightParen, _⟩ :: ts => .ok ([], ts)
  | ts => someArgumentsWithin n opening ts
termination_by (n, 8)

def someArgumentsWithin (n : Nat) (opening : Nat) (ts : List Token) :
    Budgeted (List Expr × List Token) := do
  match ← chainWithin n .sum ts with
  | (_, []) => throw (some (.unexpectedEnd opening))
  | (e, ⟨.comma, _⟩ :: rest) => spend n fun m _ => do
    let (es, rest') ← someArgumentsWithin m opening rest
    return (e :: es, rest')
  | (e, ⟨.rightParen, _⟩ :: rest) => return ([e], rest)
  | _ => throw (some (.unclosedParen opening))
termination_by (n, 7)
decreasing_by
  · exact Prod.Lex.right _ (by decide)
  · exact Prod.Lex.left _ _ ‹_›

end

/-- What is left of the budget still covers the tokens behind the one it was spent on. -/
theorem spend_eq {α : Type} {n l : Nat} {k : (m : Nat) → m < n → Budgeted α} {y : Budgeted α}
    (hl : l < n) (h : ∀ m hm, l ≤ m → k m hm = y) : spend n k = y := by
  cases n with
  | zero => exact absurd hl (Nat.not_lt_zero l)
  | succ m => exact h m _ (Nat.le_of_lt_succ hl)

mutual

/-- The recursion is that of the readings, on the tokens; the budget only has to cover these. -/
theorem chain_within {n : Nat} {level : Level} {ts : List Token} (h : ts.length ≤ n) :
    chainWithin n level ts = (bare (chain level ts)).mapError some := by
  rw [chainWithin, bare_chain]
  apply Except.bind_eq_mapError (operand_within h)
  rintro ⟨first, rest⟩ ho
  have hlt := length_lt_of_bare ho
  exact chainFrom_within (Nat.le_trans (Nat.le_of_lt hlt) h)
termination_by (ts.length, level.height + 1)

theorem chainFrom_within {n : Nat} {level : Level} {left : Expr} {ts : List Token}
    (h : ts.length ≤ n) :
    chainFromWithin n level left ts = (bare (chainFrom level left ts)).mapError some := by
  match ts with
  | [] =>
    rw [chainFromWithin, bare_chainFrom_nil]
    rfl
  | t :: us =>
    cases hop : level.operator? t.lexeme with
    | none =>
      rw [chainFromWithin, hop, bare_chainFrom_stop hop]
      rfl
    | some op =>
      rw [chainFromWithin, hop, bare_chainFrom_join hop]
      apply spend_eq h
      intro m _ hm
      apply Except.bind_eq_mapError (operand_within hm)
      rintro ⟨right, rest⟩ ho
      have hlt := length_lt_of_bare ho
      exact chainFrom_within (Nat.le_trans (Nat.le_of_lt hlt) hm)
termination_by (ts.length, 0)

theorem operand_within {n : Nat} {level : Level} {ts : List Token} (h : ts.length ≤ n) :
    operandWithin n level ts = (bare (operand level ts)).mapError some := by
  match level with
  | .sum =>
    rw [operandWithin, bare_operand_sum]
    exact chain_within h
  | .product =>
    rw [operandWithin, bare_operand_product]
    exact unary_within h
termination_by (ts.length, level.height)
decreasing_by all_goals exact Prod.Lex.right _ (by decide)

theorem unary_within {n : Nat} {ts : List Token} (h : ts.length ≤ n) :
    unaryWithin n ts = (bare (unary ts)).mapError some := by
  rcases Token.head_cases .minus ts with ⟨line, us, rfl⟩ | hm
  · rw [unaryWithin, bare_unary_minus]
    apply spend_eq h
    intro m _ hm
    apply Except.bind_eq_mapError (unary_within hm)
    rintro ⟨e, rest⟩ -
    rfl
  · rw [unaryWithin, bare_unary_power hm]
    · exact power_within h
    · rintro line us rfl
      exact hm ⟨.minus, line⟩ rfl rfl
termination_by (ts.length, 2)

theorem power_within {n : Nat} {ts : List Token} (h : ts.length ≤ n) :
    powerWithin n ts = (bare (power ts)).mapError some := by
  rw [powerWithin, bare_power]
  apply Except.bind_eq_mapError (primary_within h)
  rintro ⟨base, rest⟩ hp
  have hlt := length_lt_of_bare hp
  rcases Token.head_cases .caret rest with ⟨line, us, rfl⟩ | hn
  · have hus : us.length < ts.length := Nat.lt_of_succ_lt hlt
    apply spend_eq (Nat.lt_of_lt_of_le hus h)
    intro m _ hm
    apply Except.bind_eq_mapError (unary_within hm)
    rintro ⟨x, rest'⟩ -
    rfl
  · match rest with
    | [] => rfl
    | ⟨lexeme, line⟩ :: us =>
      have hne : lexeme ≠ .caret := hn ⟨lexeme, line⟩ rfl
      cases lexeme <;> first | rfl | exact absurd rfl hne
termination_by (ts.length, 1)

theorem primary_within {n : Nat} {ts : List Token} (h : ts.length ≤ n) :
    primaryWithin n ts = (bare (primary ts)).mapError some := by
  match ts with
  | [] =>
    rw [primaryWithin, bare_primary_nil]
    rfl
  | ⟨lexeme, line⟩ :: us =>
    cases lexeme with
    | number x =>
      rw [primaryWithin, bare_primary_number]
      rfl
    | name s =>
      rw [primaryWithin]
      rcases Token.head_cases .leftParen us with ⟨opening, vs, rfl⟩ | hn
      · rw [bare_primary_call]
        apply spend_eq (Nat.lt_of_succ_lt h)
        intro m _ hm
        apply Except.bind_eq_mapError (arguments_within hm)
        rintro ⟨es, rest⟩ -
        rfl
      · rw [bare_primary_name hn]
        dsimp only
        split
        next opening vs => exact absurd rfl (hn ⟨.leftParen, opening⟩ rfl)
        next => rfl
    | leftParen =>
      rw [primaryWithin, bare_primary_paren]
      apply spend_eq h
      intro m _ hm
      apply Except.bind_eq_mapError (chain_within hm)
      rintro ⟨e, _ | ⟨⟨lexeme, k⟩, rest⟩⟩ -
      · rfl
      · cases lexeme <;> rfl
    | _ =>
      rw [primaryWithin, bare_primary_other rfl]
      rfl
termination_by (ts.length, 0)

theorem arguments_within {n opening : Nat} {ts : List Token} (h : ts.length ≤ n) :
    argumentsWithin n opening ts = (bare (arguments opening ts)).mapError some := by
  rcases Token.head_cases .rightParen ts with ⟨line, us, rfl⟩ | hn
  · rw [argumentsWithin, bare_arguments_none]
    rfl
  · rw [argumentsWithin, bare_arguments_some hn]
    · exact someArguments_within h
    · rintro line us rfl
      exact hn ⟨.rightParen, line⟩ rfl rfl
termination_by (ts.length, 8)

theorem someArguments_within {n opening : Nat} {ts : List Token} (h : ts.length ≤ n) :
    someArgumentsWithin n opening ts = (bare (someArguments opening ts)).mapError some := by
  rw [someArgumentsWithin, bare_someArguments]
  apply Except.bind_eq_mapError (chain_within h)
  rintro ⟨e, rest⟩ hc
  have hlt := length_lt_of_bare hc
  match rest with
  | [] => rfl
  | ⟨lexeme, line⟩ :: us =>
    cases lexeme with
    | comma =>
      have hus : us.length < ts.length := Nat.lt_of_succ_lt hlt
      apply spend_eq (Nat.lt_of_lt_of_le hus h)
      intro m _ hm
      apply Except.bind_eq_mapError (someArguments_within hm)
      rintro ⟨es, rest'⟩ -
      rfl
    | _ => rfl
termination_by (ts.length, 7)
decreasing_by
  · exact Prod.Lex.right _ (by decide)
  · exact Prod.Lex.left _ _ (Nat.lt_of_succ_lt hlt)

end

/-- A minus sign costs a unit, and without one there is no answer. -/
example : unaryWithin 0 [⟨.minus, 1⟩, ⟨.name "x", 1⟩] = .error none := by cbv

end Phrase
end ScalarScript
