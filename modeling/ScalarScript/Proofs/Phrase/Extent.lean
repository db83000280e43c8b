import ScalarScript.Proofs.Phrase.Failure

/-!
# How far readings reach

A reading that succeeds takes as many tokens as any phrase could: with the next token nothing is a
phrase any more, whatever comes behind. In particular the next token is none of the operators that
the phrase could go on with. The tokens taken are read in the same way in front of every other list,
unless it starts with a token that may go on with a phrase. One that fails has either come to the
end of the tokens or fails in the same way whatever stands behind the token that it refuses.
-/

namespace ScalarScript
namespace Grammar

/-- The lexemes that may go on with a phrase in front of them. -/
def continuing : List Lexeme := [.plus, .minus, .star, .slash, .caret, .leftParen, .equals]

theorem strength_of_not_mem_continuing {lexeme : Lexeme} (h : lexeme ∉ continuing) :
    strength lexeme = 0 := by
  cases lexeme <;> first | rfl | simp [continuing] at h

theorem stops_of_not_continuing {ts : List Token}
    (h : ∀ t ∈ ts.head?, t.lexeme ∉ continuing) : Stops 0 ts :=
  fun t ht => Nat.le_of_eq (strength_of_not_mem_continuing (h t ht))

/-- The operators of a level and the caret, which all levels share. -/
def Continues (level : Level) (lexeme : Lexeme) : Prop :=
  level.operator? lexeme ≠ none ∨ lexeme = .caret

mutual

theorem Chain.opens_caret {n : Nat} : ∀ {level : Level} {ts : List Token} {e : Expr},
    Chain level ts e → Opens (Chain level) (ts ++ [⟨.caret, n⟩])
  | _, _, _, .single h => h.opens_caret.map fun _ _ => .single
  | _, _, _, .join hl hj hr => by
    obtain ⟨us, x, hx⟩ := hr.opens_caret (n := n)
    exact ⟨us, _, by simpa using Chain.join hl hj hx⟩

theorem Operand.opens_caret {n : Nat} : ∀ {level : Level} {ts : List Token} {e : Expr},
    Operand level ts e → Opens (Operand level) (ts ++ [⟨.caret, n⟩])
  | _, _, _, .product h => h.opens_caret.map fun _ _ => .product
  | _, _, _, .unary h => h.opens_caret.map fun _ _ => .unary

theorem Unary.opens_caret {n : Nat} : ∀ {ts : List Token} {e : Expr},
    Unary ts e → Opens Unary (ts ++ [⟨.caret, n⟩])
  | _, _, .minus h => by
    obtain ⟨us, x, hx⟩ := h.opens_caret (n := n)
    exact ⟨us, _, .minus hx⟩
  | _, _, .power h => h.opens_caret.map fun _ _ => .power

/-- Behind an exponent the caret belongs to the exponent. -/
theorem Power.opens_caret {n : Nat} : ∀ {ts : List Token} {e : Expr},
    Power ts e → Opens Power (ts ++ [⟨.caret, n⟩])
  | _, _, .primary h =>
    ⟨[⟨.number 0, 0⟩], _, by simpa using Power.caret h (.power (.primary .number))⟩
  | _, _, .caret hb hx => by
    obtain ⟨us, y, hy⟩ := hx.opens_caret (n := n)
    exact ⟨us, _, by simpa using Power.caret hb hy⟩

end

variable {level : Level} {ts : List Token} {t : Token}

theorem Primary.operand {e : Expr} (h : Primary ts e) : Operand level ts e := by
  cases level with
  | sum => exact .product h.chain
  | product => exact .unary (.power (.primary h))

theorem Chain.opens {e : Expr} (h : Chain level ts e) (ht : Continues level t.lexeme) :
    Opens (Chain level) (ts ++ [t]) := by
  rcases ht with hop | hcaret
  · obtain ⟨op, hop⟩ := Option.ne_none_iff_exists'.mp hop
    have hnumber : Operand level [⟨.number 0, 0⟩] (.number 0 0) := Primary.number.operand
    exact ⟨_, _, by simpa using Chain.join (n := t.line) h (joins_iff.mpr hop) hnumber⟩
  · obtain ⟨lexeme, n⟩ := t
    obtain rfl : lexeme = .caret := hcaret
    exact h.opens_caret

theorem Statement.opens {s : ScalarScript.Statement} (h : Statement ts s)
    (ht : Continues .sum t.lexeme) : Opens Statement (ts ++ [t]) := by
  cases h with
  | assignment h =>
    obtain ⟨us, e, he⟩ := h.opens ht
    exact ⟨us, _, .assignment he⟩
  | expression h =>
    obtain ⟨us, e, he⟩ := h.opens ht
    exact ⟨us, _, .expression he⟩

end Grammar

namespace Phrase

open Grammar

variable {α : Type} {g : List Token → Except SyntaxError (α × List Token)}
  {R : List Token → α → Prop} {level : Level} {ts : List Token} {a : α} {rest : List Token}

theorem ne_nil_of_length_lt {front rest : List Token} (h : rest.length < (front ++ rest).length) :
    front ≠ [] := by
  rintro rfl
  exact Nat.lt_irrefl _ h

/-- What `g` takes of `ts`: a phrase of the kind `R`, which ends where a chain of the level does. It
is taken by what stands in it and directly behind it. -/
structure Extent (g : List Token → Except SyntaxError (α × List Token))
    (R : List Token → α → Prop) (level : Level) (ts : List Token) (a : α)
    (front rest : List Token) : Prop where
  eq_append : ts = front ++ rest
  ne_nil : front ≠ []
  phrase : R front a
  maximal : ∀ t ∈ rest.head?, ¬ Opens R (front ++ [t])
  stops : ∀ t ∈ rest.head?, level.operator? t.lexeme = none ∧ t.lexeme ≠ .caret
  replace : ∀ us, (∀ t ∈ us.head?, t.lexeme ∉ continuing) → g (front ++ us) = .ok (a, us)
  lookahead : ∀ us, us.head? = rest.head? → g (front ++ us) = .ok (a, us)

/-- A longer phrase would be read to its end, where the reading has stopped before. -/
theorem Settled.extent (hs : Settled g ts a rest) (ht : Taken R ts a rest)
    (hlt : rest.length < ts.length)
    (hcomplete : ∀ {xs b us}, R xs b → Stops 0 us → g (xs ++ us) = .ok (b, us))
    (hopens : ∀ {xs b t}, R xs b → Continues level t.lexeme → Opens R (xs ++ [t])) :
    ∃ front, Extent g R level ts a front rest := by
  obtain ⟨front, rfl, hR, hg⟩ := hs.taken ht
  have hmaximal : ∀ t ∈ rest.head?, ¬ Opens R (front ++ [t]) := by
    rintro t hhead ⟨us, b, hb⟩
    have hlonger := hcomplete hb stops_nil
    rw [List.append_nil, List.append_assoc, List.singleton_append,
      hg (t :: us) hhead.symm] at hlonger
    cases hlonger
  refine ⟨front, rfl, ne_nil_of_length_lt hlt, hR, hmaximal, ?_, ?_, hg⟩
  · intro t hhead
    have hends : ¬ Continues level t.lexeme := fun hcont => hmaximal t hhead (hopens hR hcont)
    exact ⟨by_contra fun hop => hends (Or.inl hop), fun hcaret => hends (Or.inr hcaret)⟩
  · intro us hus
    exact hcomplete hR (stops_of_not_continuing hus)

/-- Readings reach as far as phrases of the kind `R` do, and look at most one token further. -/
structure Greedy (g : List Token → Except SyntaxError (α × List Token))
    (R : List Token → α → Prop) (level : Level) : Prop where
  extent : ∀ {ts a rest}, g ts = .ok (a, rest) → ∃ front, Extent g R level ts a front rest
  blame : ∀ {ts e}, g ts = .error e → Blame (Opens R) g ts e

theorem chain_greedy : Greedy (fun us => bare (chain level us)) (Chain level) level where
  extent h := by
    apply (chain_settled h).extent (chain_sound h) (length_lt_of_bare h)
    · intro xs b us hb hus
      exact chain_complete hb hus (by cases level <;> decide)
    · intro xs b t hb ht
      exact hb.opens ht
  blame := chain_blame

end Phrase
end ScalarScript
