import ScalarScript.Proofs.Phrase.Locality

/-!
# Where readings fail

A reading fails for one of two reasons. Either the tokens end in the middle of a phrase, which other
tokens would complete, or there is a first token after which nothing does: what stands in front of
it can still be completed, and with it the reading fails whatever comes behind. An error says which
of the two it was and, of a token, which one. The proofs follow the readings; a failure of a part is
a failure of the whole behind the tokens already taken, and looking one token ahead is enough to see
that it stays one.
-/

namespace ScalarScript

namespace SyntaxError

/-- The errors of tokens that end too early. -/
def IsUnfinished (e : SyntaxError) : Prop := (∃ n, e = unexpectedEnd n) ∨ ∃ n, e = unclosedParen n

/-- The errors at a token: they quote it with its line, or miss a parenthesis in its place. -/
def Refuses (e : SyntaxError) (t : Token) : Prop :=
  e = unexpectedToken t.lexeme.text t.line ∨ e = trailingToken t.lexeme.text t.line ∨
    ∃ n, e = unclosedParen n

end SyntaxError

/-- Some tokens behind the list complete it. -/
def Opens {α : Type} (R : List Token → α → Prop) (ts : List Token) : Prop := ∃ us a, R (ts ++ us) a

theorem Opens.map {α β : Type} {R : List Token → α → Prop} {R' : List Token → β → Prop} {f : α → β}
    {ts : List Token} (h : Opens R ts) (hR : ∀ us a, R us a → R' us (f a)) : Opens R' ts := by
  obtain ⟨us, a, ha⟩ := h
  exact ⟨us, f a, hR _ a ha⟩

theorem opens_primary_nil : Opens Grammar.Primary [] := ⟨[⟨.number 0, 0⟩], _, .number⟩

theorem Opens.call {ts : List Token} {f : String} {n m : Nat} (h : Opens Grammar.Arguments ts) :
    Opens Grammar.Primary (⟨.name f, n⟩ :: ⟨.leftParen, m⟩ :: ts) := by
  obtain ⟨us, es, hes⟩ := h
  exact ⟨us ++ [⟨.rightParen, 0⟩], _, by simpa using Grammar.Primary.call (k := 0) hes⟩

theorem Opens.paren {ts : List Token} {n : Nat} (h : Opens (Grammar.Chain .sum) ts) :
    Opens Grammar.Primary (⟨.leftParen, n⟩ :: ts) := by
  obtain ⟨us, e, he⟩ := h
  exact ⟨us ++ [⟨.rightParen, 0⟩], e, by simpa using Grammar.Primary.paren (k := 0) he⟩

/-- Why `g` fails on `ts` with `e`, where `opens` tells what can be completed. -/
inductive Blame {α : Type} (opens : List Token → Prop) (g : List Token → Except SyntaxError α)
    (ts : List Token) (e : SyntaxError) : Prop
  | atEnd : opens ts → e.IsUnfinished → Blame opens g ts e
  | atToken {front t rest} : ts = front ++ t :: rest → opens front → e.Refuses t →
      (∀ us, g (front ++ t :: us) = .error e) → Blame opens g ts e

section Parts

variable {α β : Type} {opens opens' : List Token → Prop} {g : List Token → Except SyntaxError α}
  {g' : List Token → Except SyntaxError β} {ts : List Token} {e : SyntaxError}

/-- A failure of a part, behind the tokens `xs`, is a failure of the whole. -/
theorem Blame.after (hb : Blame opens g ts e) (xs : List Token)
    (hopens : ∀ front, opens front → opens' (xs ++ front))
    (hfail : ∀ us, us.head? = ts.head? → g us = .error e → g' (xs ++ us) = .error e) :
    Blame opens' g' (xs ++ ts) e := by
  cases hb with
  | atEnd hopen he => exact .atEnd (hopens ts hopen) he
  | @atToken front t rest hts hopen he hg =>
    have hwhole : xs ++ ts = xs ++ front ++ t :: rest := by rw [hts, List.append_assoc]
    refine .atToken hwhole (hopens front hopen) he ?_
    intro us
    have hhead : (front ++ t :: us).head? = ts.head? := by
      rw [hts]
      cases front <;> rfl
    rw [List.append_assoc]
    exact hfail _ hhead (hg us)

/-- A failure of a part at the beginning is a failure of the whole. -/
theorem Blame.imp (hb : Blame opens g ts e) (hopens : ∀ front, opens front → opens' front)
    (hfail : ∀ us, us.head? = ts.head? → g us = .error e → g' us = .error e) :
    Blame opens' g' ts e :=
  hb.after [] hopens hfail

end Parts

namespace Phrase

open Grammar

variable {ts : List Token}

theorem bare_primary_unclosed {e : Expr} {t : Token} {us : List Token} {line : Nat}
    (h : bare (chain .sum ts) = .ok (e, t :: us)) (ht : t.lexeme ≠ .rightParen) :
    bare (primary (⟨.leftParen, line⟩ :: ts)) = .error (.unclosedParen line) := by
  obtain ⟨lexeme, n⟩ := t
  rw [bare_primary_paren, h]
  cases lexeme <;> first | rfl | exact absurd rfl ht

theorem bare_someArguments_unclosed {e : Expr} {t : Token} {us : List Token} {opening : Nat}
    (h : bare (chain .sum ts) = .ok (e, t :: us)) (hc : t.lexeme ≠ .comma)
    (hp : t.lexeme ≠ .rightParen) :
    bare (someArguments opening ts) = .error (.unclosedParen opening) := by
  obtain ⟨lexeme, n⟩ := t
  rw [bare_someArguments, h]
  cases lexeme <;> first | rfl | exact absurd rfl hc | exact absurd rfl hp

mutual

theorem chain_blame {level : Level} {ts : List Token} {e : SyntaxError}
    (h : bare (chain level ts) = .error e) :
    Blame (Opens (Chain level)) (fun us => bare (chain level us)) ts e := by
  rw [bare_chain] at h
  rcases Except.bind_eq_error h with ho | ⟨⟨first, rest⟩, ho, hc⟩
  · apply (operand_blame ho).imp
    · intro front hopen
      exact hopen.map fun _ _ => .single
    · intro us _ hus
      rw [bare_chain, hus]
      rfl
  · have hlt := length_lt_of_bare ho
    obtain ⟨front, rfl, hf, hg⟩ := (operand_settled ho).taken (operand_sound ho)
    apply (chainFrom_blame (.single hf) hc).after
    · exact fun _ hopen => hopen
    · intro us hhead hus
      rw [bare_chain, hg us hhead]
      exact hus
termination_by (ts.length, level.height + 1)

/-- What has been read before can be completed along with the tokens. -/
theorem chainFrom_blame {level : Level} {xs ts : List Token} {left : Expr} {e : SyntaxError}
    (hl : Chain level xs left) (h : bare (chainFrom level left ts) = .error e) :
    Blame (fun front => Opens (Chain level) (xs ++ front))
      (fun us => bare (chainFrom level left us)) ts e := by
  match ts with
  | [] =>
    rw [bare_chainFrom_nil] at h
    cases h
  | t :: us =>
    cases hop : level.operator? t.lexeme with
    | none =>
      rw [bare_chainFrom_stop hop] at h
      cases h
    | some op =>
      have hj := joins_iff.mpr hop
      rw [bare_chainFrom_join hop] at h
      rcases Except.bind_eq_error h with ho | ⟨⟨right, rest⟩, ho, hc⟩
      · apply (operand_blame ho).after [t]
        · rintro front ⟨vs, x, hx⟩
          exact ⟨vs, _, by simpa using Chain.join (n := t.line) hl hj hx⟩
        · intro vs _ hvs
          rw [List.singleton_append, bare_chainFrom_join hop, hvs]
          rfl
      · have hlt := length_lt_of_bare ho
        obtain ⟨front, rfl, hf, hg⟩ := (operand_settled ho).taken (operand_sound ho)
        apply (chainFrom_blame (.join hl hj hf) hc).after (t :: front)
        · intro more hopen
          simpa using hopen
        · intro vs hhead hvs
          rw [List.cons_append, bare_chainFrom_join hop, hg vs hhead]
          exact hvs
termination_by (ts.length, 0)

theorem operand_blame {level : Level} {ts : List Token} {e : SyntaxError}
    (h : bare (operand level ts) = .error e) :
    Blame (Opens (Operand level)) (fun us => bare (operand level us)) ts e := by
  match level with
  | .sum =>
    rw [bare_operand_sum] at h
    apply (chain_blame h).imp
    · intro front hopen
      exact hopen.map fun _ _ => .product
    · intro us _ hus
      exact bare_operand_sum.trans hus
  | .product =>
    rw [bare_operand_product] at h
    apply (unary_blame h).imp
    · intro front hopen
      exact hopen.map fun _ _ => .unary
    · intro us _ hus
      exact bare_operand_product.trans hus
termination_by (ts.length, level.height)
decreasing_by all_goals exact Prod.Lex.right _ (by decide)

theorem unary_blame {ts : List Token} {e : SyntaxError} (h : bare (unary ts) = .error e) :
    Blame (Opens Unary) (fun us => bare (unary us)) ts e := by
  rcases Token.head_cases .minus ts with ⟨line, us, rfl⟩ | hm
  · rw [bare_unary_minus] at h
    rcases Except.bind_eq_error h with hu | ⟨_, _, hx⟩
    · apply (unary_blame hu).after [⟨.minus, line⟩]
      · rintro front ⟨vs, x, hx⟩
        exact ⟨vs, _, .minus hx⟩
      · intro vs _ hvs
        rw [List.singleton_append, bare_unary_minus, hvs]
        rfl
    · cases hx
  · rw [bare_unary_power hm] at h
    apply (power_blame h).imp
    · intro front hopen
      exact hopen.map fun _ _ => .power
    · intro us hhead hus
      exact (bare_unary_power (forall_head?_congr hhead hm)).trans hus
termination_by (ts.length, 2)

theorem power_blame {ts : List Token} {e : SyntaxError} (h : bare (power ts) = .error e) :
    Blame (Opens Power) (fun us => bare (power us)) ts e := by
  have hp := h
  rw [bare_power] at hp
  rcases Except.bind_eq_error hp with hp | ⟨⟨base, us⟩, hp, -⟩
  · apply (primary_blame hp).imp
    · intro front hopen
      exact hopen.map fun _ _ => .primary
    · intro us _ hus
      rw [bare_power, hus]
      rfl
  · have hlt := length_lt_of_bare hp
    obtain ⟨front, hts, hf, hg⟩ := (primary_settled hp).taken (primary_sound hp)
    rcases Token.head_cases .caret us with ⟨line, vs, rfl⟩ | hn
    · rw [bare_power_caret hp] at h
      rcases Except.bind_eq_error h with hu | ⟨_, _, hx⟩
      · rw [hts, List.append_cons]
        apply (unary_blame hu).after
        · rintro more ⟨ws, x, hx⟩
          exact ⟨ws, _, by simpa using Power.caret (n := line) hf hx⟩
        · intro ws _ hws
          have hbase := hg (⟨.caret, line⟩ :: ws) rfl
          rw [← List.append_cons, bare_power_caret hbase, hws]
          rfl
      · cases hx
    · rw [bare_power_base hp hn] at h
      cases h
termination_by (ts.length, 1)

theorem primary_blame {ts : List Token} {e : SyntaxError} (h : bare (primary ts) = .error e) :
    Blame (Opens Primary) (fun us => bare (primary us)) ts e := by
  match ts with
  | [] =>
    rw [bare_primary_nil] at h
    cases h
    exact .atEnd opens_primary_nil (Or.inl ⟨0, rfl⟩)
  | ⟨lexeme, line⟩ :: us =>
    cases lexeme with
    | number x =>
      rw [bare_primary_number] at h
      cases h
    | name s =>
      rcases Token.head_cases .leftParen us with ⟨opening, vs, rfl⟩ | hn
      · rw [bare_primary_call] at h
        rcases Except.bind_eq_error h with ha | ⟨_, _, hx⟩
        · apply (arguments_blame ha).after [⟨.name s, line⟩, ⟨.leftParen, opening⟩]
          · intro front hopen
            exact .call hopen
          · intro ws _ hws
            rw [List.cons_append, List.singleton_append, bare_primary_call, hws]
            rfl
        · cases hx
      · rw [bare_primary_name hn] at h
        cases h
    | leftParen =>
      have hc := h
      rw [bare_primary_paren] at hc
      rcases Except.bind_eq_error hc with hc | ⟨⟨x, vs⟩, hc, hx⟩
      · apply (chain_blame hc).after [⟨.leftParen, line⟩]
        · intro front hopen
          exact .paren hopen
        · intro vs _ hvs
          rw [List.singleton_append, bare_primary_paren, hvs]
          rfl
      · obtain ⟨front, rfl, hf, hg⟩ := (chain_settled hc).taken (chain_sound hc)
        have hopen : Opens Primary (⟨.leftParen, line⟩ :: front) :=
          .paren ⟨[], x, by simpa using hf⟩
        cases vs with
        | nil =>
          cases hx
          rw [List.append_nil]
          exact .atEnd hopen (Or.inr ⟨line, rfl⟩)
        | cons t vs =>
          by_cases ht : t.lexeme = .rightParen
          · obtain ⟨_, n⟩ := t
            obtain rfl := ht
            cases hx
          · rw [bare_primary_unclosed hc ht] at h
            cases h
            refine .atToken rfl hopen (Or.inr (Or.inr ⟨line, rfl⟩)) fun ws => ?_
            exact bare_primary_unclosed (hg (t :: ws) rfl) ht
    | _ =>
      rw [bare_primary_other rfl] at h
      cases h
      exact .atToken (List.nil_append _).symm opens_primary_nil (Or.inl rfl) fun ws =>
        bare_primary_other rfl
termination_by (ts.length, 0)

theorem arguments_blame {opening : Nat} {ts : List Token} {e : SyntaxError}
    (h : bare (arguments opening ts) = .error e) :
    Blame (Opens Arguments) (fun us => bare (arguments opening us)) ts e := by
  rcases Token.head_cases .rightParen ts with ⟨line, us, rfl⟩ | hn
  · rw [bare_arguments_none] at h
    cases h
  · rw [bare_arguments_some hn] at h
    apply (someArguments_blame h).imp
    · intro front hopen
      exact hopen.map fun _ _ => .some
    · intro us hhead hus
      exact (bare_arguments_some (forall_head?_congr hhead hn)).trans hus
termination_by (ts.length, 8)

theorem someArguments_blame {opening : Nat} {ts : List Token} {e : SyntaxError}
    (h : bare (someArguments opening ts) = .error e) :
    Blame (Opens SomeArguments) (fun us => bare (someArguments opening us)) ts e := by
  have hc := h
  rw [bare_someArguments] at hc
  rcases Except.bind_eq_error hc with hc | ⟨⟨x, us⟩, hc, hx⟩
  · apply (chain_blame hc).imp
    · intro front hopen
      exact hopen.map fun _ _ => .last
    · intro us _ hus
      rw [bare_someArguments, hus]
      rfl
  · have hlt := length_lt_of_bare hc
    obtain ⟨front, hts, hf, hg⟩ := (chain_settled hc).taken (chain_sound hc)
    have hopen : Opens SomeArguments front := ⟨[], _, by simpa using SomeArguments.last hf⟩
    cases us with
    | nil =>
      cases hx
      rw [hts, List.append_nil]
      exact .atEnd hopen (Or.inl ⟨opening, rfl⟩)
    | cons t us =>
      obtain ⟨lexeme, n⟩ := t
      by_cases hcomma : lexeme = .comma
      · obtain rfl := hcomma
        rw [bare_someArguments_more hc] at h
        rcases Except.bind_eq_error h with hs | ⟨_, _, hx⟩
        · rw [hts, List.append_cons]
          apply (someArguments_blame hs).after
          · rintro more ⟨vs, es, hes⟩
            exact ⟨vs, _, by simpa using SomeArguments.more (n := n) hf hes⟩
          · intro vs _ hvs
            have hfirst := hg (⟨.comma, n⟩ :: vs) rfl
            rw [← List.append_cons, bare_someArguments_more hfirst, hvs]
            rfl
        · cases hx
      · by_cases hparen : lexeme = .rightParen
        · obtain rfl := hparen
          cases hx
        · rw [bare_someArguments_unclosed hc hcomma hparen] at h
          cases h
          refine .atToken hts hopen (Or.inr (Or.inr ⟨opening, rfl⟩)) fun vs => ?_
          exact bare_someArguments_unclosed (hg (⟨lexeme, n⟩ :: vs) rfl) hcomma hparen
termination_by (ts.length, 7)
decreasing_by
  · exact Prod.Lex.right _ (by decide)
  · exact Prod.Lex.left _ _ (Nat.lt_of_succ_lt hlt)

end

end Phrase
end ScalarScript
