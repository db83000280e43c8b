import ScalarScript.Proofs.Phrase.Equations
import Mathlib.Tactic

/-!
# What is in the grammar is read

Tokens that form a phrase are read as that phrase wherever the token behind them does not bind to
it. A name is taken by a parenthesis behind it, a primary by a caret, a signed power by the operator
of a product and a product by that of a sum; this order is the *strength* of a lexeme, and a phrase
ends before a token that is weak enough. The reading of a chain is described by what it has read so
far, so that the operator behind it is none of its concern.
-/

namespace ScalarScript
namespace Grammar

/-- How strongly a lexeme binds to the phrase in front of it. -/
def strength : Lexeme → Nat
  | .leftParen => 4
  | .caret => 3
  | .star | .slash => 2
  | .plus | .minus | .equals => 1
  | _ => 0

/-- The strength of the operators of a level. -/
def levelStrength : Level → Nat
  | .sum => 1
  | .product => 2

/-- The list does not start with anything stronger than `k`. -/
def Stops (k : Nat) (rest : List Token) : Prop := ∀ t ∈ rest.head?, strength t.lexeme ≤ k

@[simp] theorem stops_nil {k : Nat} : Stops k [] := by simp [Stops]

@[simp] theorem stops_cons {k : Nat} {t : Token} {ts : List Token} :
    Stops k (t :: ts) ↔ strength t.lexeme ≤ k := by
  simp [Stops]

theorem Stops.mono {j k : Nat} {rest : List Token} (h : Stops j rest) (hjk : j ≤ k) :
    Stops k rest :=
  fun t ht => (h t ht).trans hjk

theorem Stops.head_ne {k : Nat} {rest : List Token} (h : Stops k rest) {lexeme : Lexeme}
    (hl : k < strength lexeme) : ∀ t ∈ rest.head?, t.lexeme ≠ lexeme := by
  rintro t ht rfl
  exact absurd (h t ht) (Nat.not_le_of_lt hl)

theorem Joins.strength_eq {level : Level} {lexeme : Lexeme} {op : Operator}
    (h : Joins level lexeme op) : strength lexeme = levelStrength level := by
  cases h <;> rfl

theorem Joins.operator?_eq {level : Level} {lexeme : Lexeme} {op : Operator}
    (h : Joins level lexeme op) : level.operator? lexeme = some op := by
  cases h <;> rfl

theorem operator?_eq_none {level : Level} {lexeme : Lexeme}
    (h : strength lexeme < levelStrength level) : level.operator? lexeme = none := by
  cases level <;> cases lexeme <;> first | rfl | simp [strength, levelStrength] at h

end Grammar

namespace Phrase

open Grammar

theorem chainFrom_stops {level : Level} {left : Expr} {rest : List Token} {k : Nat}
    (h : Stops k rest) (hk : k < levelStrength level) :
    bare (chainFrom level left rest) = .ok (left, rest) := by
  cases rest with
  | nil => exact bare_chainFrom_nil
  | cons t rest =>
    rw [stops_cons] at h
    exact bare_chainFrom_stop (operator?_eq_none (Nat.lt_of_le_of_lt h hk))

theorem head_append_ne {ts rest : List Token} {lexeme : Lexeme} {p : Lexeme → Bool}
    (h : ∃ t us, ts = t :: us ∧ p t.lexeme = true) (hp : p lexeme = false) :
    ∀ t ∈ (ts ++ rest).head?, t.lexeme ≠ lexeme := by
  obtain ⟨t, us, rfl, ht⟩ := h
  simp only [List.cons_append, List.head?_cons, Option.mem_def, Option.some.injEq, forall_eq']
  rintro rfl
  rw [hp] at ht
  cases ht

mutual

/-- A chain in front of other tokens is read as its value, still to be extended by them. -/
theorem chain_append : ∀ {level : Level} {ts : List Token} {e : Expr}, Chain level ts e →
    ∀ {rest : List Token}, Stops (levelStrength level) rest →
      bare (chain level (ts ++ rest)) = bare (chainFrom level e rest)
  | level, ts, e, .single h, rest, hs => by
    rw [bare_chain, operand_complete h hs]
    rfl
  | level, _, _, @Chain.join _ xs l lexeme op n ys r hl hj hr, rest, hs => by
    have hstop : Stops (levelStrength level) (⟨lexeme, n⟩ :: (ys ++ rest)) := by
      rw [stops_cons]
      exact Nat.le_of_eq hj.strength_eq
    rw [List.append_assoc, List.cons_append, chain_append hl hstop,
      bare_chainFrom_join hj.operator?_eq, operand_complete hr hs]
    rfl

theorem operand_complete : ∀ {level : Level} {ts : List Token} {e : Expr}, Operand level ts e →
    ∀ {rest : List Token}, Stops (levelStrength level) rest →
      bare (operand level (ts ++ rest)) = .ok (e, rest)
  | _, _, _, .product h, rest, hs => by
    rw [bare_operand_sum, chain_append h (hs.mono (by decide))]
    exact chainFrom_stops hs (by decide)
  | _, _, _, .unary h, rest, hs => by
    rw [bare_operand_product]
    exact unary_complete h hs

theorem unary_complete : ∀ {ts : List Token} {e : Expr}, Unary ts e →
    ∀ {rest : List Token}, Stops 2 rest → bare (unary (ts ++ rest)) = .ok (e, rest)
  | _, _, .minus h, rest, hs => by
    rw [List.cons_append, bare_unary_minus, unary_complete h hs]
    rfl
  | _, _, .power h, rest, hs => by
    rw [bare_unary_power (head_append_ne h.starts rfl)]
    exact power_complete h hs

theorem power_complete : ∀ {ts : List Token} {e : Expr}, Power ts e →
    ∀ {rest : List Token}, Stops 2 rest → bare (power (ts ++ rest)) = .ok (e, rest)
  | _, _, .primary h, rest, hs =>
    bare_power_base (primary_complete h (hs.mono (by decide))) (hs.head_ne (by decide))
  | _, _, @Power.caret xs b n ys x hb hx, rest, hs => by
    have hbase : bare (primary (xs ++ ⟨.caret, n⟩ :: (ys ++ rest))) =
        .ok (b, ⟨.caret, n⟩ :: (ys ++ rest)) := primary_complete hb (by simp [strength])
    rw [List.append_assoc, List.cons_append, bare_power_caret hbase, unary_complete hx hs]
    rfl

theorem primary_complete : ∀ {ts : List Token} {e : Expr}, Primary ts e →
    ∀ {rest : List Token}, Stops 3 rest → bare (primary (ts ++ rest)) = .ok (e, rest)
  | _, _, .number, rest, _ => bare_primary_number
  | _, _, .name, rest, hs => bare_primary_name (hs.head_ne (by decide))
  | _, _, .call h, rest, hs => by
    rw [List.cons_append, List.cons_append, bare_primary_call, List.append_assoc,
      List.singleton_append, arguments_complete h]
    rfl
  | _, _, .paren h, rest, hs => by
    rw [List.cons_append, bare_primary_paren, List.append_assoc, List.singleton_append,
      chain_append h (by simp [strength]),
      chainFrom_stops (k := 0) (by simp [strength]) (by decide)]
    rfl

theorem arguments_complete : ∀ {ts : List Token} {es : List Expr}, Arguments ts es →
    ∀ {opening k : Nat} {rest : List Token},
      bare (arguments opening (ts ++ ⟨.rightParen, k⟩ :: rest)) = .ok (es, rest)
  | _, _, .none, opening, k, rest => bare_arguments_none
  | _, _, .some h, opening, k, rest => by
    rw [bare_arguments_some (head_append_ne h.starts rfl)]
    exact someArguments_complete h

theorem someArguments_complete : ∀ {ts : List Token} {es : List Expr}, SomeArguments ts es →
    ∀ {opening k : Nat} {rest : List Token},
      bare (someArguments opening (ts ++ ⟨.rightParen, k⟩ :: rest)) = .ok (es, rest)
  | _, _, @SomeArguments.last ts e h, opening, k, rest => by
    have hlast : bare (chain .sum (ts ++ ⟨.rightParen, k⟩ :: rest)) =
        .ok (e, ⟨.rightParen, k⟩ :: rest) := by
      rw [chain_append h (by simp [strength])]
      exact chainFrom_stops (k := 0) (by simp [strength]) (by decide)
    exact bare_someArguments_last hlast
  | _, _, @SomeArguments.more xs e n ys es h hs, opening, k, rest => by
    have hfirst : bare (chain .sum (xs ++ ⟨.comma, n⟩ :: (ys ++ ⟨.rightParen, k⟩ :: rest))) =
        .ok (e, ⟨.comma, n⟩ :: (ys ++ ⟨.rightParen, k⟩ :: rest)) := by
      rw [chain_append h (by simp [strength])]
      exact chainFrom_stops (k := 0) (by simp [strength]) (by decide)
    rw [List.append_assoc, List.cons_append, bare_someArguments_more hfirst,
      someArguments_complete hs]
    rfl

end

/-- A chain is read to its end before a token that is weaker than its operators. -/
theorem chain_complete {level : Level} {ts : List Token} {e : Expr} (h : Chain level ts e)
    {rest : List Token} {k : Nat} (hs : Stops k rest) (hk : k < levelStrength level) :
    bare (chain level (ts ++ rest)) = .ok (e, rest) := by
  rw [chain_append h (hs.mono hk.le)]
  exact chainFrom_stops hs hk

end Phrase
end ScalarScript
