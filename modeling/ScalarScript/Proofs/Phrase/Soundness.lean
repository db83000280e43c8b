import ScalarScript.Proofs.Outcome
import ScalarScript.Proofs.Phrase.Equations

/-!
# What is read is in the grammar

A reading takes tokens off the front of a list, and these tokens form a phrase of the grammar that
denotes the value returned. The proofs call each other as the functions do and descend on the same
measure.
-/

namespace ScalarScript

theorem Grammar.joins_iff {level : Level} {lexeme : Lexeme} {op : Operator} :
    Grammar.Joins level lexeme op ↔ level.operator? lexeme = some op := by
  constructor
  · intro h
    cases h <;> rfl
  · intro h
    cases level <;> cases lexeme <;> cases h <;> constructor

namespace Phrase

/-- The tokens in front of `rest` form a phrase for `a`. -/
def Taken {α : Type} (R : List Token → α → Prop) (ts : List Token) (a : α) (rest : List Token) :
    Prop :=
  ∃ front, ts = front ++ rest ∧ R front a

mutual

theorem chain_sound {level : Level} {ts : List Token} {e : Expr} {rest : List Token}
    (h : bare (chain level ts) = .ok (e, rest)) : Taken (Grammar.Chain level) ts e rest := by
  rw [bare_chain] at h
  obtain ⟨⟨first, us⟩, ho, hc⟩ := Except.bind_eq_ok h
  have hlt := length_lt_of_bare ho
  obtain ⟨front, rfl, hf⟩ := operand_sound ho
  obtain ⟨more, rfl, hm⟩ := chainFrom_sound (.single hf) hc
  exact ⟨front ++ more, (List.append_assoc ..).symm, hm⟩
termination_by (ts.length, level.height + 1)

/-- What has been read before is part of the phrase. -/
theorem chainFrom_sound {level : Level} {xs ts : List Token} {left e : Expr} {rest : List Token}
    (hl : Grammar.Chain level xs left) (h : bare (chainFrom level left ts) = .ok (e, rest)) :
    Taken (fun front => Grammar.Chain level (xs ++ front)) ts e rest := by
  match ts with
  | [] =>
    rw [bare_chainFrom_nil] at h
    cases h
    exact ⟨[], rfl, by simpa using hl⟩
  | t :: us =>
    cases hop : level.operator? t.lexeme with
    | none =>
      rw [bare_chainFrom_stop hop] at h
      cases h
      exact ⟨[], rfl, by simpa using hl⟩
    | some op =>
      rw [bare_chainFrom_join hop] at h
      obtain ⟨⟨right, vs⟩, ho, hc⟩ := Except.bind_eq_ok h
      have hlt := length_lt_of_bare ho
      obtain ⟨ys, rfl, hy⟩ := operand_sound ho
      have hj := Grammar.Chain.join (n := t.line) hl (Grammar.joins_iff.mpr hop) hy
      obtain ⟨more, rfl, hm⟩ := chainFrom_sound hj hc
      exact ⟨t :: ys ++ more, by simp, by simpa using hm⟩
termination_by (ts.length, 0)

theorem operand_sound {level : Level} {ts : List Token} {e : Expr} {rest : List Token}
    (h : bare (operand level ts) = .ok (e, rest)) : Taken (Grammar.Operand level) ts e rest := by
  match level with
  | .sum =>
    rw [bare_operand_sum] at h
    obtain ⟨front, rfl, hf⟩ := chain_sound h
    exact ⟨front, rfl, .product hf⟩
  | .product =>
    rw [bare_operand_product] at h
    obtain ⟨front, rfl, hf⟩ := unary_sound h
    exact ⟨front, rfl, .unary hf⟩
termination_by (ts.length, level.height)
decreasing_by all_goals exact Prod.Lex.right _ (by decide)

theorem unary_sound {ts : List Token} {e : Expr} {rest : List Token}
    (h : bare (unary ts) = .ok (e, rest)) : Taken Grammar.Unary ts e rest := by
  rcases Token.head_cases .minus ts with ⟨line, us, rfl⟩ | hm
  · rw [bare_unary_minus] at h
    obtain ⟨⟨x, vs⟩, hu, hx⟩ := Except.bind_eq_ok h
    cases hx
    obtain ⟨front, rfl, hf⟩ := unary_sound hu
    exact ⟨⟨.minus, line⟩ :: front, rfl, .minus hf⟩
  · rw [bare_unary_power hm] at h
    obtain ⟨front, rfl, hf⟩ := power_sound h
    exact ⟨front, rfl, .power hf⟩
termination_by (ts.length, 2)

theorem power_sound {ts : List Token} {e : Expr} {rest : List Token}
    (h : bare (power ts) = .ok (e, rest)) : Taken Grammar.Power ts e rest := by
  rw [bare_power] at h
  obtain ⟨⟨base, us⟩, hp, hx⟩ := Except.bind_eq_ok h
  have hlt := length_lt_of_bare hp
  obtain ⟨front, rfl, hf⟩ := primary_sound hp
  split at hx
  next line vs heq =>
    cases heq
    obtain ⟨⟨x, ws⟩, hu, hx⟩ := Except.bind_eq_ok hx
    cases hx
    obtain ⟨ys, rfl, hy⟩ := unary_sound hu
    exact ⟨front ++ _ :: ys, by simp, .caret hf hy⟩
  next heq =>
    cases heq
    cases hx
    exact ⟨front, rfl, .primary hf⟩
termination_by (ts.length, 1)

theorem primary_sound {ts : List Token} {e : Expr} {rest : List Token}
    (h : bare (primary ts) = .ok (e, rest)) : Taken Grammar.Primary ts e rest := by
  match ts with
  | [] =>
    rw [bare_primary_nil] at h
    cases h
  | ⟨lexeme, line⟩ :: us =>
    cases lexeme with
    | number x =>
      rw [bare_primary_number] at h
      cases h
      exact ⟨[⟨.number x, line⟩], rfl, .number⟩
    | name s =>
      rcases Token.head_cases .leftParen us with ⟨opening, vs, rfl⟩ | hn
      · rw [bare_primary_call] at h
        obtain ⟨⟨es, ws⟩, ha, hx⟩ := Except.bind_eq_ok h
        cases hx
        obtain ⟨front, k, rfl, hf⟩ := arguments_sound ha
        exact ⟨⟨.name s, line⟩ :: ⟨.leftParen, opening⟩ :: (front ++ [⟨.rightParen, k⟩]), by simp,
          .call hf⟩
      · rw [bare_primary_name hn] at h
        cases h
        exact ⟨[⟨.name s, line⟩], rfl, .name⟩
    | leftParen =>
      rw [bare_primary_paren] at h
      obtain ⟨⟨x, vs⟩, hc, hx⟩ := Except.bind_eq_ok h
      split at hx
      next k vs heq =>
        cases heq
        cases hx
        obtain ⟨front, rfl, hf⟩ := chain_sound hc
        exact ⟨⟨.leftParen, line⟩ :: (front ++ [⟨.rightParen, k⟩]), by simp, .paren hf⟩
      next => cases hx
    | _ =>
      rw [bare_primary_other rfl] at h
      cases h
termination_by (ts.length, 0)

/-- The parenthesis that closes the list is taken with it. -/
theorem arguments_sound {opening : Nat} {ts : List Token} {es : List Expr} {rest : List Token}
    (h : bare (arguments opening ts) = .ok (es, rest)) :
    ∃ front k, ts = front ++ ⟨.rightParen, k⟩ :: rest ∧ Grammar.Arguments front es := by
  rcases Token.head_cases .rightParen ts with ⟨line, us, rfl⟩ | hn
  · rw [bare_arguments_none] at h
    cases h
    exact ⟨[], line, rfl, .none⟩
  · rw [bare_arguments_some hn] at h
    obtain ⟨front, k, rfl, hf⟩ := someArguments_sound h
    exact ⟨front, k, rfl, .some hf⟩
termination_by (ts.length, 8)

theorem someArguments_sound {opening : Nat} {ts : List Token} {es : List Expr} {rest : List Token}
    (h : bare (someArguments opening ts) = .ok (es, rest)) :
    ∃ front k, ts = front ++ ⟨.rightParen, k⟩ :: rest ∧ Grammar.SomeArguments front es := by
  rw [bare_someArguments] at h
  obtain ⟨⟨x, us⟩, hc, hx⟩ := Except.bind_eq_ok h
  have hlt := length_lt_of_bare hc
  obtain ⟨front, hts, hf⟩ := chain_sound hc
  split at hx
  next => cases hx
  next n vs heq =>
    cases heq
    obtain ⟨⟨xs, ws⟩, hs, hx⟩ := Except.bind_eq_ok hx
    cases hx
    obtain ⟨ys, k, rfl, hy⟩ := someArguments_sound hs
    exact ⟨front ++ ⟨.comma, n⟩ :: ys, k, by simp [hts], .more hf hy⟩
  next k vs heq =>
    cases heq
    cases hx
    exact ⟨front, k, hts, .last hf⟩
  next => cases hx
termination_by (ts.length, 7)
decreasing_by
  · exact Prod.Lex.right _ (by decide)
  · exact Prod.Lex.left _ _ (Nat.lt_of_succ_lt hlt)

end

end Phrase
end ScalarScript
