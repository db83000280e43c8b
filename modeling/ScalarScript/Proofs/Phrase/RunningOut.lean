import ScalarScript.Proofs.Phrase.Failure

/-!
# Where tokens run out

Tokens run out at one of two places. Where an operand is awaited, the last token is one that no
expression ends with, and the error carries no line yet. Behind a complete argument of a call a
comma or a parenthesis is missing instead, and the error carries the line of the parenthesis that
opened the call, which may be far from the end.
-/

namespace ScalarScript

namespace Grammar

/-- What an expression ends with. -/
def endsExpr : Lexeme → Bool
  | .number _ | .name _ | .rightParen => true
  | _ => false

/-- The list has a last token, and an expression may end with it. -/
def Ended (ts : List Token) : Prop := ∃ t ∈ ts.getLast?, endsExpr t.lexeme = true

/-- The list may go on with an expression but no expression ends with it. -/
def Awaiting (ts : List Token) : Prop := ∀ t ∈ ts.getLast?, endsExpr t.lexeme = false

variable {xs ts : List Token} {t : Token}

theorem ended_append_singleton : Ended (xs ++ [t]) ↔ endsExpr t.lexeme = true := by
  simp [Ended]

theorem Ended.append (h : Ended ts) (xs : List Token) : Ended (xs ++ ts) := by
  obtain ⟨t, ht, hends⟩ := h
  exact ⟨t, by rw [List.getLast?_append, Option.mem_def.mp ht]; rfl, hends⟩

theorem Ended.cons (h : Ended ts) (t : Token) : Ended (t :: ts) := h.append [t]

theorem awaiting_append_singleton : Awaiting (xs ++ [t]) ↔ endsExpr t.lexeme = false := by
  simp [Awaiting]

theorem Awaiting.append (h : Awaiting ts) (hxs : ts = [] → Awaiting xs) : Awaiting (xs ++ ts) := by
  cases ts with
  | nil =>
    rw [List.append_nil]
    exact hxs rfl
  | cons t ts =>
    unfold Awaiting
    rw [List.getLast?_append_of_ne_nil _ (List.cons_ne_nil t ts)]
    exact h

theorem hereditary_ended : Hereditary (fun ts _ => Ended ts) fun ts _ => ts ≠ [] → Ended ts where
  number _ _ := ⟨_, rfl, rfl⟩
  name _ _ := ⟨_, rfl, rfl⟩
  negation _ h := h.cons _
  binary _ _ _ _ hr := (hr.cons _).append _
  call _ _ _ _ _ := ((ended_append_singleton.mpr rfl).cons _).cons _
  paren _ _ _ := (ended_append_singleton.mpr rfl).cons _
  none hne := absurd rfl hne
  last h _ := h
  more _ _ hstarts hs _ := by
    obtain ⟨t, us, rfl, -⟩ := hstarts
    exact ((hs (List.cons_ne_nil t us)).cons _).append _

theorem SomeArguments.ended {es : List Expr} (h : SomeArguments ts es) : Ended ts := by
  obtain ⟨t, us, rfl, -⟩ := h.starts
  exact hereditary_ended.someArguments h (List.cons_ne_nil t us)

end Grammar

/-- The tokens end behind an argument of a call whose parenthesis is on line `n`. -/
def InCall (ts : List Token) (n : Nat) : Prop :=
  ∃ front f m inside es, ts = front ++ ⟨.name f, m⟩ :: ⟨.leftParen, n⟩ :: inside ∧
    Grammar.SomeArguments inside es

/-- The tokens end too early, and `n` is the line that the error carries. -/
def RunsOut (ts : List Token) (n : Nat) : Prop := n = 0 ∧ Grammar.Awaiting ts ∨ InCall ts n

theorem InCall.ended {ts : List Token} {n : Nat} (h : InCall ts n) : Grammar.Ended ts := by
  obtain ⟨front, f, m, inside, es, rfl, hes⟩ := h
  exact ((hes.ended.cons _).cons _).append front

theorem RunsOut.after {ts : List Token} {n : Nat} (h : RunsOut ts n) (xs : List Token)
    (hxs : ts = [] → Grammar.Awaiting xs) : RunsOut (xs ++ ts) n := by
  rcases h with ⟨hn, hawait⟩ | ⟨front, f, m, inside, es, rfl, hes⟩
  · exact Or.inl ⟨hn, hawait.append hxs⟩
  · exact Or.inr ⟨xs ++ front, f, m, inside, es, (List.append_assoc ..).symm, hes⟩

/-- A part that ends too early behind a token that no expression ends with. -/
theorem RunsOut.afterToken {ts : List Token} {n : Nat} (h : RunsOut ts n) (xs : List Token)
    {t : Token} (ht : Grammar.endsExpr t.lexeme = false) : RunsOut (xs ++ t :: ts) n := by
  rw [List.append_cons]
  exact h.after _ fun _ => Grammar.awaiting_append_singleton.mpr ht

namespace Phrase

open Grammar

variable {n : Nat}

theorem endsExpr_of_operator? {level : Level} {lexeme : Lexeme} {op : Operator}
    (h : level.operator? lexeme = some op) : endsExpr lexeme = false := by
  cases joins_iff.mpr h <;> rfl

mutual

/-- Behind a complete operand a chain only fails at an operator, so some tokens are left there. -/
theorem chain_runsOut {level : Level} {ts : List Token}
    (h : bare (chain level ts) = .error (.unexpectedEnd n)) : RunsOut ts n := by
  rw [bare_chain] at h
  rcases Except.bind_eq_error h with ho | ⟨⟨first, rest⟩, ho, hc⟩
  · exact operand_runsOut ho
  · have hlt := length_lt_of_bare ho
    obtain ⟨front, rfl, -⟩ := operand_sound ho
    obtain ⟨hrest, hne⟩ := chainFrom_runsOut hc
    exact hrest.after front fun hnil => absurd hnil hne
termination_by (ts.length, level.height + 1)

/-- A chain that ends in front of the tokens could end there. -/
theorem chainFrom_runsOut {level : Level} {ts : List Token} {left : Expr}
    (h : bare (chainFrom level left ts) = .error (.unexpectedEnd n)) : RunsOut ts n ∧ ts ≠ [] := by
  match ts with
  | [] =>
    rw [bare_chainFrom_nil] at h
    cases h
  | t :: us =>
    refine ⟨?_, List.cons_ne_nil t us⟩
    cases hop : level.operator? t.lexeme with
    | none =>
      rw [bare_chainFrom_stop hop] at h
      cases h
    | some op =>
      rw [bare_chainFrom_join hop] at h
      rcases Except.bind_eq_error h with ho | ⟨⟨right, rest⟩, ho, hc⟩
      · exact (operand_runsOut ho).afterToken [] (endsExpr_of_operator? hop)
      · have hlt := length_lt_of_bare ho
        obtain ⟨front, rfl, -⟩ := operand_sound ho
        obtain ⟨hrest, hne⟩ := chainFrom_runsOut hc
        exact hrest.after (t :: front) fun hnil => absurd hnil hne
termination_by (ts.length, 0)

theorem operand_runsOut {level : Level} {ts : List Token}
    (h : bare (operand level ts) = .error (.unexpectedEnd n)) : RunsOut ts n := by
  match level with
  | .sum =>
    rw [bare_operand_sum] at h
    exact chain_runsOut h
  | .product =>
    rw [bare_operand_product] at h
    exact unary_runsOut h
termination_by (ts.length, level.height)
decreasing_by all_goals exact Prod.Lex.right _ (by decide)

theorem unary_runsOut {ts : List Token} (h : bare (unary ts) = .error (.unexpectedEnd n)) :
    RunsOut ts n := by
  rcases Token.head_cases .minus ts with ⟨line, us, rfl⟩ | hm
  · rw [bare_unary_minus] at h
    rcases Except.bind_eq_error h with hu | ⟨_, _, hx⟩
    · exact (unary_runsOut hu).afterToken [] rfl
    · cases hx
  · rw [bare_unary_power hm] at h
    exact power_runsOut h
termination_by (ts.length, 2)

theorem power_runsOut {ts : List Token} (h : bare (power ts) = .error (.unexpectedEnd n)) :
    RunsOut ts n := by
  have hp := h
  rw [bare_power] at hp
  rcases Except.bind_eq_error hp with hp | ⟨⟨base, rest⟩, hp, -⟩
  · exact primary_runsOut hp
  · have hlt := length_lt_of_bare hp
    rcases Token.head_cases .caret rest with ⟨line, us, rfl⟩ | hn
    · rw [bare_power_caret hp] at h
      rcases Except.bind_eq_error h with hu | ⟨_, _, hx⟩
      · obtain ⟨front, rfl, -⟩ := primary_sound hp
        exact (unary_runsOut hu).afterToken front rfl
      · cases hx
    · rw [bare_power_base hp hn] at h
      cases h
termination_by (ts.length, 1)

theorem primary_runsOut {ts : List Token} (h : bare (primary ts) = .error (.unexpectedEnd n)) :
    RunsOut ts n := by
  match ts with
  | [] =>
    rw [bare_primary_nil] at h
    cases h
    exact Or.inl ⟨rfl, by simp [Awaiting]⟩
  | ⟨lexeme, line⟩ :: us =>
    cases lexeme with
    | number x =>
      rw [bare_primary_number] at h
      cases h
    | name s =>
      rcases Token.head_cases .leftParen us with ⟨opening, vs, rfl⟩ | hn
      · rw [bare_primary_call] at h
        rcases Except.bind_eq_error h with ha | ⟨_, _, hx⟩
        · rcases arguments_runsOut ha with hout | ⟨rfl, es, hes⟩
          · exact hout.afterToken [⟨.name s, line⟩] rfl
          · exact Or.inr ⟨[], s, line, vs, es, rfl, hes⟩
        · cases hx
      · rw [bare_primary_name hn] at h
        cases h
    | leftParen =>
      rw [bare_primary_paren] at h
      rcases Except.bind_eq_error h with hc | ⟨⟨x, vs⟩, _, hx⟩
      · exact (chain_runsOut hc).afterToken [] rfl
      · split at hx <;> cases hx
    | _ =>
      rw [bare_primary_other rfl] at h
      cases h
termination_by (ts.length, 0)

/-- Arguments may also end behind one of them, and the call that they belong to is on the line
`opening`. -/
theorem arguments_runsOut {opening : Nat} {ts : List Token}
    (h : bare (arguments opening ts) = .error (.unexpectedEnd n)) :
    RunsOut ts n ∨ n = opening ∧ ∃ es, SomeArguments ts es := by
  rcases Token.head_cases .rightParen ts with ⟨line, us, rfl⟩ | hn
  · rw [bare_arguments_none] at h
    cases h
  · rw [bare_arguments_some hn] at h
    exact someArguments_runsOut h
termination_by (ts.length, 8)

theorem someArguments_runsOut {opening : Nat} {ts : List Token}
    (h : bare (someArguments opening ts) = .error (.unexpectedEnd n)) :
    RunsOut ts n ∨ n = opening ∧ ∃ es, SomeArguments ts es := by
  rw [bare_someArguments] at h
  rcases Except.bind_eq_error h with hc | ⟨⟨x, us⟩, hc, hx⟩
  · exact Or.inl (chain_runsOut hc)
  · have hlt := length_lt_of_bare hc
    obtain ⟨front, hts, hf⟩ := chain_sound hc
    split at hx
    next heq =>
      cases heq
      cases hx
      rw [hts, List.append_nil]
      exact Or.inr ⟨rfl, _, .last hf⟩
    next k vs heq =>
      cases heq
      rcases Except.bind_eq_error hx with hs | ⟨_, _, hx⟩
      · rw [hts]
        rcases someArguments_runsOut hs with hout | ⟨rfl, es, hes⟩
        · exact Or.inl (hout.afterToken front rfl)
        · exact Or.inr ⟨rfl, _, .more hf hes⟩
      · cases hx
    next => cases hx
    next => cases hx
termination_by (ts.length, 7)
decreasing_by
  · exact Prod.Lex.right _ (by decide)
  · exact Prod.Lex.left _ _ (Nat.lt_of_succ_lt hlt)

end

end Phrase
end ScalarScript
