import ScalarScript.Proofs.Phrase.Soundness

/-!
# Lines of errors

An error of a phrase carries the line of one of its tokens: the token that it refuses, or the open
parenthesis that it misses the other one of. The only exception is an end of the tokens where an
operand is awaited, which has no token to stand at and carries no line. So an error of a part is
placed in the whole, and only that one end is left to be placed.
-/

namespace ScalarScript

namespace SyntaxError

/-- The error is on the line of some token, or it is an end without a line. -/
def Placed (e : SyntaxError) (ts : List Token) : Prop :=
  e = unexpectedEnd 0 ∨ ∃ t ∈ ts, t.line = e.line

variable {e : SyntaxError} {ts us : List Token} {t : Token}

theorem Placed.mono (h : e.Placed us) (hsub : us ⊆ ts) : e.Placed ts :=
  h.imp_right fun ⟨t, ht, hline⟩ => ⟨t, hsub ht, hline⟩

theorem Placed.cons (h : e.Placed ts) (t : Token) : e.Placed (t :: ts) :=
  h.mono (List.subset_cons_self t ts)

theorem placed_of_line_eq (h : e.line = t.line) : e.Placed (t :: ts) :=
  Or.inr ⟨t, List.mem_cons_self, h.symm⟩

end SyntaxError

namespace Phrase

open SyntaxError

theorem Taken.subset {α : Type} {R : List Token → α → Prop} {ts rest : List Token} {a : α}
    (h : Taken R ts a rest) : rest ⊆ ts := by
  obtain ⟨front, rfl, -⟩ := h
  exact List.subset_append_right front rest

mutual

theorem chain_placed {level : Level} {ts : List Token} {e : SyntaxError}
    (h : bare (chain level ts) = .error e) : e.Placed ts := by
  rw [bare_chain] at h
  rcases Except.bind_eq_error h with ho | ⟨⟨first, rest⟩, ho, hc⟩
  · exact operand_placed ho
  · have hlt := length_lt_of_bare ho
    exact (chainFrom_placed hc).mono (operand_sound ho).subset
termination_by (ts.length, level.height + 1)

theorem chainFrom_placed {level : Level} {ts : List Token} {left : Expr} {e : SyntaxError}
    (h : bare (chainFrom level left ts) = .error e) : e.Placed ts := by
  match ts with
  | [] =>
    rw [bare_chainFrom_nil] at h
    cases h
  | t :: us =>
    cases hop : level.operator? t.lexeme with
    | none =>
      rw [bare_chainFrom_stop hop] at h
      cases h
    | some op =>
      rw [bare_chainFrom_join hop] at h
      rcases Except.bind_eq_error h with ho | ⟨⟨right, rest⟩, ho, hc⟩
      · exact (operand_placed ho).cons t
      · have hlt := length_lt_of_bare ho
        exact ((chainFrom_placed hc).mono (operand_sound ho).subset).cons t
termination_by (ts.length, 0)

theorem operand_placed {level : Level} {ts : List Token} {e : SyntaxError}
    (h : bare (operand level ts) = .error e) : e.Placed ts := by
  match level with
  | .sum =>
    rw [bare_operand_sum] at h
    exact chain_placed h
  | .product =>
    rw [bare_operand_product] at h
    exact unary_placed h
termination_by (ts.length, level.height)
decreasing_by all_goals exact Prod.Lex.right _ (by decide)

theorem unary_placed {ts : List Token} {e : SyntaxError} (h : bare (unary ts) = .error e) :
    e.Placed ts := by
  rcases Token.head_cases .minus ts with ⟨line, us, rfl⟩ | hm
  · rw [bare_unary_minus] at h
    rcases Except.bind_eq_error h with hu | ⟨_, _, hx⟩
    · exact (unary_placed hu).cons _
    · cases hx
  · rw [bare_unary_power hm] at h
    exact power_placed h
termination_by (ts.length, 2)

theorem power_placed {ts : List Token} {e : SyntaxError} (h : bare (power ts) = .error e) :
    e.Placed ts := by
  have hp := h
  rw [bare_power] at hp
  rcases Except.bind_eq_error hp with hp | ⟨⟨base, rest⟩, hp, -⟩
  · exact primary_placed hp
  · have hlt := length_lt_of_bare hp
    rcases Token.head_cases .caret rest with ⟨line, us, rfl⟩ | hn
    · rw [bare_power_caret hp] at h
      rcases Except.bind_eq_error h with hu | ⟨_, _, hx⟩
      · obtain ⟨front, rfl, -⟩ := primary_sound hp
        exact ((unary_placed hu).cons _).mono (List.subset_append_right front _)
      · cases hx
    · rw [bare_power_base hp hn] at h
      cases h
termination_by (ts.length, 1)

theorem primary_placed {ts : List Token} {e : SyntaxError} (h : bare (primary ts) = .error e) :
    e.Placed ts := by
  match ts with
  | [] =>
    rw [bare_primary_nil] at h
    cases h
    exact Or.inl rfl
  | ⟨lexeme, line⟩ :: us =>
    cases lexeme with
    | number x =>
      rw [bare_primary_number] at h
      cases h
    | name s =>
      rcases Token.head_cases .leftParen us with ⟨opening, vs, rfl⟩ | hn
      · rw [bare_primary_call] at h
        rcases Except.bind_eq_error h with ha | ⟨_, _, hx⟩
        · refine Placed.cons ?_ _
          rcases arguments_placed ha with hin | hopening
          · exact hin.cons _
          · exact placed_of_line_eq hopening
        · cases hx
      · rw [bare_primary_name hn] at h
        cases h
    | leftParen =>
      rw [bare_primary_paren] at h
      rcases Except.bind_eq_error h with hc | ⟨⟨x, vs⟩, _, hx⟩
      · exact (chain_placed hc).cons _
      · split at hx
        next => cases hx
        next =>
          cases hx
          exact placed_of_line_eq rfl
    | _ =>
      rw [bare_primary_other rfl] at h
      cases h
      exact placed_of_line_eq rfl
termination_by (ts.length, 0)

/-- The parenthesis that opens the arguments is in front of them. -/
theorem arguments_placed {opening : Nat} {ts : List Token} {e : SyntaxError}
    (h : bare (arguments opening ts) = .error e) : e.Placed ts ∨ e.line = opening := by
  rcases Token.head_cases .rightParen ts with ⟨line, us, rfl⟩ | hn
  · rw [bare_arguments_none] at h
    cases h
  · rw [bare_arguments_some hn] at h
    exact someArguments_placed h
termination_by (ts.length, 8)

theorem someArguments_placed {opening : Nat} {ts : List Token} {e : SyntaxError}
    (h : bare (someArguments opening ts) = .error e) : e.Placed ts ∨ e.line = opening := by
  rw [bare_someArguments] at h
  rcases Except.bind_eq_error h with hc | ⟨⟨x, us⟩, hc, hx⟩
  · exact Or.inl (chain_placed hc)
  · have hlt := length_lt_of_bare hc
    split at hx
    next =>
      cases hx
      exact Or.inr rfl
    next k vs heq =>
      cases heq
      rcases Except.bind_eq_error hx with hs | ⟨_, _, hx⟩
      · exact (someArguments_placed hs).imp_left fun hin =>
          (hin.cons _).mono (chain_sound hc).subset
      · cases hx
    next => cases hx
    next =>
      cases hx
      exact Or.inr rfl
termination_by (ts.length, 7)
decreasing_by
  · exact Prod.Lex.right _ (by decide)
  · exact Prod.Lex.left _ _ (Nat.lt_of_succ_lt hlt)

end

end Phrase
end ScalarScript
