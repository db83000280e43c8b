import ScalarScript.Proofs.Phrase.Completeness
import ScalarScript.Proofs.Phrase.Soundness

/-!
# Readings look one token ahead

A reading that succeeds depends on the tokens it has taken and on the one behind them, at which it
stopped. The grammar alone does not say so: a number ends in front of an opening parenthesis, which
would go on a name, so what may follow a phrase depends on how the phrase ends. Nothing that comes
later has been looked at.
-/

namespace ScalarScript
namespace Phrase

open Grammar

variable {α : Type} {ts : List Token}

/-- The tokens in front of `rest` are read as `a` in front of every list that starts like `rest`. -/
def Settled (g : List Token → Except SyntaxError (α × List Token)) (ts : List Token) (a : α)
    (rest : List Token) : Prop :=
  ∃ front, ts = front ++ rest ∧ ∀ us, us.head? = rest.head? → g (front ++ us) = .ok (a, us)

/-- What was taken is a phrase, and it is taken from each such list. -/
theorem Settled.taken {g : List Token → Except SyntaxError (α × List Token)}
    {R : List Token → α → Prop} {a : α} {rest : List Token} (hs : Settled g ts a rest)
    (ht : Taken R ts a rest) :
    ∃ front, ts = front ++ rest ∧ R front a ∧
      ∀ us, us.head? = rest.head? → g (front ++ us) = .ok (a, us) := by
  obtain ⟨front, hts, hg⟩ := hs
  obtain ⟨front', hts', hR⟩ := ht
  obtain rfl : front = front' := List.append_cancel_right (hts.symm.trans hts')
  exact ⟨front, hts, hR, hg⟩

theorem head?_append_congr (xs : List Token) {us vs : List Token} (h : us.head? = vs.head?) :
    (xs ++ us).head? = (xs ++ vs).head? := by
  rw [List.head?_append, List.head?_append, h]

section Parts

variable {β : Type} {g : List Token → Except SyntaxError (α × List Token)}
  {g' : List Token → Except SyntaxError (β × List Token)} {a : α} {b : β} {rest : List Token}

/-- A part that is settled, behind the tokens `xs`, settles the whole. -/
theorem Settled.after (hs : Settled g ts a rest) (xs : List Token)
    (hg : ∀ us vs, us.head? = ts.head? → g us = .ok (a, vs) → g' (xs ++ us) = .ok (b, vs)) :
    Settled g' (xs ++ ts) b rest := by
  obtain ⟨front, rfl, hf⟩ := hs
  refine ⟨xs ++ front, (List.append_assoc ..).symm, ?_⟩
  intro us hus
  rw [List.append_assoc]
  exact hg _ _ (head?_append_congr front hus) (hf us hus)

/-- A part that is settled and begins where the whole does settles it. -/
theorem Settled.imp (hs : Settled g ts a rest)
    (hg : ∀ us vs, us.head? = ts.head? → g us = .ok (a, vs) → g' us = .ok (b, vs)) :
    Settled g' ts b rest :=
  hs.after [] hg

end Parts

theorem forall_head?_congr {us vs : List Token} (h : us.head? = vs.head?) {lexeme : Lexeme}
    (hvs : ∀ t ∈ vs.head?, t.lexeme ≠ lexeme) : ∀ t ∈ us.head?, t.lexeme ≠ lexeme := by
  rwa [h]

theorem primary_settled {e : Expr} {rest : List Token} (h : bare (primary ts) = .ok (e, rest)) :
    Settled (fun us => bare (primary us)) ts e rest := by
  cases ts with
  | nil =>
    rw [bare_primary_nil] at h
    cases h
  | cons t us =>
    obtain ⟨lexeme, line⟩ := t
    cases lexeme with
    | number x =>
      rw [bare_primary_number] at h
      cases h
      exact ⟨[⟨.number x, line⟩], rfl, fun vs _ => bare_primary_number⟩
    | name s =>
      rcases Token.head_cases .leftParen us with ⟨opening, vs, rfl⟩ | hn
      · rw [bare_primary_call] at h
        obtain ⟨⟨es, ws⟩, ha, hx⟩ := Except.bind_eq_ok h
        cases hx
        obtain ⟨front, k, rfl, hf⟩ := arguments_sound ha
        refine ⟨⟨.name s, line⟩ :: ⟨.leftParen, opening⟩ :: (front ++ [⟨.rightParen, k⟩]), by simp,
          fun vs _ => ?_⟩
        beta_reduce
        rw [List.cons_append, List.cons_append, bare_primary_call, List.append_assoc,
          List.singleton_append, arguments_complete hf]
        rfl
      · rw [bare_primary_name hn] at h
        cases h
        exact ⟨[⟨.name s, line⟩], rfl, fun vs hvs => bare_primary_name (forall_head?_congr hvs hn)⟩
    | leftParen =>
      rw [bare_primary_paren] at h
      obtain ⟨⟨x, vs⟩, hc, hx⟩ := Except.bind_eq_ok h
      split at hx
      next k vs heq =>
        cases heq
        cases hx
        obtain ⟨front, rfl, hf⟩ := chain_sound hc
        refine ⟨⟨.leftParen, line⟩ :: (front ++ [⟨.rightParen, k⟩]), by simp, fun ws _ => ?_⟩
        have hinner : bare (chain .sum (front ++ ⟨.rightParen, k⟩ :: ws)) =
            .ok (e, ⟨.rightParen, k⟩ :: ws) :=
          chain_complete (k := 0) hf (by simp [strength]) (by decide)
        beta_reduce
        rw [List.cons_append, List.append_assoc, List.singleton_append, bare_primary_paren, hinner]
        rfl
      next => cases hx
    | _ =>
      rw [bare_primary_other rfl] at h
      cases h

mutual

theorem unary_settled {ts : List Token} {e : Expr} {rest : List Token}
    (h : bare (unary ts) = .ok (e, rest)) : Settled (fun us => bare (unary us)) ts e rest := by
  rcases Token.head_cases .minus ts with ⟨line, us, rfl⟩ | hm
  · rw [bare_unary_minus] at h
    obtain ⟨⟨x, vs⟩, hu, hx⟩ := Except.bind_eq_ok h
    cases hx
    apply (unary_settled hu).after [⟨.minus, line⟩]
    intro vs ws _ hvs
    rw [List.singleton_append, bare_unary_minus, hvs]
    rfl
  · rw [bare_unary_power hm] at h
    apply (power_settled h).imp
    intro us vs hhead hus
    exact (bare_unary_power (forall_head?_congr hhead hm)).trans hus
termination_by (ts.length, 2)

theorem power_settled {ts : List Token} {e : Expr} {rest : List Token}
    (h : bare (power ts) = .ok (e, rest)) : Settled (fun us => bare (power us)) ts e rest := by
  have hp := h
  rw [bare_power] at hp
  obtain ⟨⟨base, us⟩, hp, -⟩ := Except.bind_eq_ok hp
  have hlt := length_lt_of_bare hp
  obtain ⟨front, hts, hf⟩ := primary_settled hp
  rcases Token.head_cases .caret us with ⟨line, vs, rfl⟩ | hn
  · rw [bare_power_caret hp] at h
    obtain ⟨⟨x, ws⟩, hu, hx⟩ := Except.bind_eq_ok h
    cases hx
    rw [hts, List.append_cons]
    apply (unary_settled hu).after
    intro us ws _ hus
    have hbase := hf (⟨.caret, line⟩ :: us) rfl
    rw [← List.append_cons, bare_power_caret hbase, hus]
    rfl
  · rw [bare_power_base hp hn] at h
    cases h
    exact ⟨front, hts, fun vs hvs => bare_power_base (hf vs hvs) (forall_head?_congr hvs hn)⟩
termination_by (ts.length, 1)

end

section Chains

variable {level : Level}

/-- A chain is settled where its operands are. -/
theorem chainFrom_settled {ts : List Token} {left e : Expr} {rest : List Token}
    (ho : ∀ {ts : List Token} {e : Expr} {rest : List Token},
      bare (operand level ts) = .ok (e, rest) →
        Settled (fun us => bare (operand level us)) ts e rest)
    (h : bare (chainFrom level left ts) = .ok (e, rest)) :
    Settled (fun us => bare (chainFrom level left us)) ts e rest := by
  cases ts with
  | nil =>
    have hend := h
    rw [bare_chainFrom_nil] at hend
    cases hend
    refine ⟨[], rfl, fun us hus => ?_⟩
    obtain rfl : us = [] := List.head?_eq_none_iff.mp hus
    exact h
  | cons t us =>
    cases hop : level.operator? t.lexeme with
    | none =>
      rw [bare_chainFrom_stop hop] at h
      cases h
      refine ⟨[], rfl, fun vs hvs => ?_⟩
      obtain ⟨ws, rfl⟩ := List.head?_eq_some_iff.mp hvs
      exact bare_chainFrom_stop hop
    | some op =>
      rw [bare_chainFrom_join hop] at h
      obtain ⟨⟨right, vs⟩, hr, hc⟩ := Except.bind_eq_ok h
      have hlt := length_lt_of_bare hr
      obtain ⟨front, rfl, hf⟩ := ho hr
      apply (chainFrom_settled ho hc).after (t :: front)
      intro us ws hhead hus
      have hoperand : bare (operand level (front ++ us)) = .ok (right, us) := hf us hhead
      rw [List.cons_append, bare_chainFrom_join hop, hoperand]
      exact hus
termination_by ts.length

theorem chain_settled_of_operand {e : Expr} {rest : List Token}
    (ho : ∀ {ts : List Token} {e : Expr} {rest : List Token},
      bare (operand level ts) = .ok (e, rest) →
        Settled (fun us => bare (operand level us)) ts e rest)
    (h : bare (chain level ts) = .ok (e, rest)) :
    Settled (fun us => bare (chain level us)) ts e rest := by
  rw [bare_chain] at h
  obtain ⟨⟨first, us⟩, hfirst, hc⟩ := Except.bind_eq_ok h
  obtain ⟨front, rfl, hf⟩ := ho hfirst
  apply (chainFrom_settled ho hc).after front
  intro us vs hhead hus
  have hoperand : bare (operand level (front ++ us)) = .ok (first, us) := hf us hhead
  rw [bare_chain, hoperand]
  exact hus

theorem operand_settled {e : Expr} {rest : List Token}
    (h : bare (operand level ts) = .ok (e, rest)) :
    Settled (fun us => bare (operand level us)) ts e rest := by
  have hproduct : ∀ {ts : List Token} {e : Expr} {rest : List Token},
      bare (operand .product ts) = .ok (e, rest) →
        Settled (fun us => bare (operand .product us)) ts e rest := by
    intro ts e rest h
    rw [bare_operand_product] at h
    apply (unary_settled h).imp
    intro us vs _ hus
    exact bare_operand_product.trans hus
  cases level with
  | sum =>
    rw [bare_operand_sum] at h
    apply (chain_settled_of_operand hproduct h).imp
    intro us vs _ hus
    exact bare_operand_sum.trans hus
  | product => exact hproduct h

theorem chain_settled {e : Expr} {rest : List Token} (h : bare (chain level ts) = .ok (e, rest)) :
    Settled (fun us => bare (chain level us)) ts e rest :=
  chain_settled_of_operand operand_settled h

end Chains

end Phrase
end ScalarScript
