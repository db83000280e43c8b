import ScalarScript.Proofs.Grammar
import ScalarScript.Program.Reading

/-!
# Readings as plain functions

A reading returns the rest of the tokens with a proof that some were taken, which its recursion
needs and no statement about it. Here a reading is seen without that proof, as a value and a rest or
an error, and each of the functions gets the equations that it satisfies in this view. All later
arguments use these equations and leave the definitions closed.
-/

namespace ScalarScript

/-- A list starts with a lexeme or does not. -/
theorem Token.head_cases (lexeme : Lexeme) (ts : List Token) :
    (∃ n us, ts = ⟨lexeme, n⟩ :: us) ∨ ∀ t ∈ ts.head?, t.lexeme ≠ lexeme := by
  match ts with
  | [] => exact Or.inr (by simp)
  | ⟨found, n⟩ :: us =>
    by_cases h : found = lexeme
    · exact Or.inl ⟨n, us, by rw [h]⟩
    · exact Or.inr (by simpa using h)

namespace Phrase

variable {α β : Type} {m n : Nat}

/-- A reading without the proof that it took a token. -/
def bare (r : Reading α n) : Except SyntaxError (α × List Token) := r.map fun p => (p.value, p.rest)

@[simp] theorem bare_ok (p : Phrase α n) : bare (.ok p) = .ok (p.value, p.rest) := rfl

@[simp] theorem bare_error (e : SyntaxError) : bare (.error e : Reading α n) = .error e := rfl

theorem length_lt_of_bare {r : Reading α n} {a : α} {rest : List Token}
    (h : bare r = .ok (a, rest)) : rest.length < n := by
  cases r with
  | error e => cases h
  | ok p =>
    cases h
    exact p.shorter

theorem eq_ok_of_bare {r : Reading α n} {a : α} {rest : List Token}
    (h : bare r = .ok (a, rest)) : ∃ lt, r = .ok ⟨a, rest, lt⟩ := by
  cases r with
  | error e => cases h
  | ok p =>
    cases h
    exact ⟨p.shorter, rfl⟩

theorem bare_bind {r : Reading α m} {f : Phrase α m → Reading β n}
    {g : α × List Token → Except SyntaxError (β × List Token)}
    (h : ∀ p, bare (f p) = g (p.value, p.rest)) : bare (r >>= f) = bare r >>= g := by
  cases r with
  | error e => rfl
  | ok p => exact h p

variable {level : Level} {ts : List Token}

theorem bare_chain :
    bare (chain level ts) =
      (do
        let (first, rest) ← bare (operand level ts)
        bare (chainFrom level first rest)) := by
  rw [chain]
  apply bare_bind
  intro p
  exact (bare_bind (g := pure) fun q => rfl).trans (bind_pure _)

theorem bare_chainFrom_nil {left : Expr} : bare (chainFrom level left []) = .ok (left, []) := by
  rw [chainFrom]
  rfl

theorem bare_chainFrom_stop {left : Expr} {t : Token} (h : level.operator? t.lexeme = none) :
    bare (chainFrom level left (t :: ts)) = .ok (left, t :: ts) := by
  rw [chainFrom, h]
  rfl

theorem bare_chainFrom_join {left : Expr} {t : Token} {op : Operator}
    (h : level.operator? t.lexeme = some op) :
    bare (chainFrom level left (t :: ts)) =
      (do
        let (right, rest) ← bare (operand level ts)
        bare (chainFrom level (.binary op left right t.line) rest)) := by
  rw [chainFrom, h]
  apply bare_bind
  intro p
  exact (bare_bind (g := pure) fun q => rfl).trans (bind_pure _)

theorem bare_operand_sum : bare (operand .sum ts) = bare (chain .product ts) := by
  rw [operand]

theorem bare_operand_product : bare (operand .product ts) = bare (unary ts) := by
  rw [operand]

theorem bare_unary_minus {line : Nat} :
    bare (unary (⟨.minus, line⟩ :: ts)) =
      (do
        let (e, rest) ← bare (unary ts)
        return (.negation e line, rest)) := by
  rw [unary]
  exact bare_bind fun p => rfl

theorem bare_unary_power (h : ∀ t ∈ ts.head?, t.lexeme ≠ .minus) :
    bare (unary ts) = bare (power ts) := by
  rw [unary]
  rintro line us rfl
  exact h ⟨.minus, line⟩ rfl rfl

theorem bare_power :
    bare (power ts) =
      (do
        match ← bare (primary ts) with
        | (base, ⟨.caret, line⟩ :: rest) =>
          let (x, rest') ← bare (unary rest)
          return (.binary .pow base x line, rest')
        | (base, rest) => return (base, rest)) := by
  rw [power]
  apply bare_bind
  rintro ⟨base, _ | ⟨⟨lexeme, line⟩, rest⟩, hlt⟩
  · rfl
  · dsimp only
    split
    next h =>
      subst h
      exact bare_bind fun p => rfl
    next h =>
      cases lexeme <;> first | rfl | exact absurd rfl h

theorem bare_power_base {e : Expr} {rest : List Token} (h : bare (primary ts) = .ok (e, rest))
    (hn : ∀ t ∈ rest.head?, t.lexeme ≠ .caret) : bare (power ts) = .ok (e, rest) := by
  rw [bare_power, h]
  cases rest with
  | nil => rfl
  | cons t us =>
    obtain ⟨lexeme, line⟩ := t
    have hne : lexeme ≠ .caret := hn ⟨lexeme, line⟩ rfl
    cases lexeme <;> first | rfl | exact absurd rfl hne

theorem bare_power_caret {b : Expr} {line : Nat} {rest : List Token}
    (h : bare (primary ts) = .ok (b, ⟨.caret, line⟩ :: rest)) :
    bare (power ts) =
      (do
        let (x, rest') ← bare (unary rest)
        return (.binary .pow b x line, rest')) := by
  rw [bare_power, h]
  rfl

theorem bare_primary_nil : bare (primary []) = .error (.unexpectedEnd 0) := by
  rw [primary]
  rfl

theorem bare_primary_number {x : Float} {line : Nat} :
    bare (primary (⟨.number x, line⟩ :: ts)) = .ok (.number x line, ts) := by
  rw [primary]
  rfl

theorem bare_primary_call {f : String} {line opening : Nat} :
    bare (primary (⟨.name f, line⟩ :: ⟨.leftParen, opening⟩ :: ts)) =
      (do
        let (es, rest) ← bare (arguments opening ts)
        return (.call f es line, rest)) := by
  rw [primary]
  exact bare_bind fun p => rfl

theorem bare_primary_name {s : String} {line : Nat}
    (h : ∀ t ∈ ts.head?, t.lexeme ≠ .leftParen) :
    bare (primary (⟨.name s, line⟩ :: ts)) = .ok (.name s line, ts) := by
  rw [primary]
  dsimp only
  split
  next opening us => exact absurd rfl (h ⟨.leftParen, opening⟩ rfl)
  next => rfl

theorem bare_primary_paren {line : Nat} :
    bare (primary (⟨.leftParen, line⟩ :: ts)) =
      (do
        match ← bare (chain .sum ts) with
        | (e, ⟨.rightParen, _⟩ :: rest) => return (e, rest)
        | _ => throw (.unclosedParen line)) := by
  rw [primary]
  apply bare_bind
  rintro ⟨e, _ | ⟨⟨lexeme, n⟩, rest⟩, hlt⟩
  · rfl
  · dsimp only
    split
    next h =>
      subst h
      rfl
    next h => cases lexeme <;> first | rfl | exact absurd rfl h

theorem bare_primary_other {t : Token} (h : Grammar.startsPrimary t.lexeme = false) :
    bare (primary (t :: ts)) = .error (.unexpectedToken t.lexeme.text t.line) := by
  obtain ⟨lexeme, line⟩ := t
  rw [primary]
  cases lexeme <;> first | rfl | cases h

theorem bare_arguments_none {opening line : Nat} :
    bare (arguments opening (⟨.rightParen, line⟩ :: ts)) = .ok ([], ts) := by
  rw [arguments]
  rfl

theorem bare_arguments_some {opening : Nat} (h : ∀ t ∈ ts.head?, t.lexeme ≠ .rightParen) :
    bare (arguments opening ts) = bare (someArguments opening ts) := by
  rw [arguments]
  rintro line us rfl
  exact h ⟨.rightParen, line⟩ rfl rfl

theorem bare_someArguments {opening : Nat} :
    bare (someArguments opening ts) =
      (do
        match ← bare (chain .sum ts) with
        | (_, []) => throw (.unexpectedEnd opening)
        | (e, ⟨.comma, _⟩ :: rest) =>
          let (es, rest') ← bare (someArguments opening rest)
          return (e :: es, rest')
        | (e, ⟨.rightParen, _⟩ :: rest) => return ([e], rest)
        | _ => throw (.unclosedParen opening)) := by
  rw [someArguments]
  apply bare_bind
  rintro ⟨e, _ | ⟨⟨lexeme, n⟩, rest⟩, hlt⟩
  · rfl
  · cases lexeme <;> first | rfl | exact bare_bind fun p => rfl

theorem bare_someArguments_more {opening line : Nat} {e : Expr} {rest : List Token}
    (h : bare (chain .sum ts) = .ok (e, ⟨.comma, line⟩ :: rest)) :
    bare (someArguments opening ts) =
      (do
        let (es, rest') ← bare (someArguments opening rest)
        return (e :: es, rest')) := by
  rw [bare_someArguments, h]
  rfl

theorem bare_someArguments_last {opening line : Nat} {e : Expr} {rest : List Token}
    (h : bare (chain .sum ts) = .ok (e, ⟨.rightParen, line⟩ :: rest)) :
    bare (someArguments opening ts) = .ok ([e], rest) := by
  rw [bare_someArguments, h]
  rfl

end Phrase
end ScalarScript
