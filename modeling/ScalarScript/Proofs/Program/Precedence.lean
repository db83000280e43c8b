import ScalarScript.Evaluation
import ScalarScript.Proofs.Outcome
import ScalarScript.Proofs.Phrase.Completeness

/-!
# Precedence in flat arithmetic

Arithmetic without parentheses is a row of numbers, each with minus signs in front of it, and with
operators between them. Its value can be told without a tree: the row is cut at the sums and each
piece at the products, so that only powers are left; these are taken from the right, where minus
signs negate all of the power behind them, and then the products and at last the sums from the left.
The tokens of a row form an expression with just this value, however long the row is.
-/

namespace ScalarScript

/-- One item or more, with operators between them. -/
structure Row (α : Type) where
  first : α
  rest : List (Operator × α)

/-- A number with minus signs in front of it. -/
structure Signed where
  signs : Nat
  number : Float

def Signed.lexemes (a : Signed) : List Lexeme :=
  List.replicate a.signs .minus ++ [.number a.number]

namespace Row

variable {α : Type}

def items (row : Row α) : List α := row.first :: row.rest.map Prod.snd

/-- The lexemes of the items, with those of the operators between them. -/
def lexemes (item : α → List Lexeme) (row : Row α) : List Lexeme :=
  item row.first ++ row.rest.flatMap fun (op, a) => op.lexeme :: item a

/-- The items put together from left to right, as `operation` says for the operators. -/
def foldLeft (operation : Operator → Float → Float → Float) (value : α → Float) (row : Row α) :
    Float :=
  row.rest.foldl (fun x (op, a) => operation op x (value a)) (value row.first)

/-- The pieces of a row that begins with `a`. -/
def piecesFrom (cut : Operator → Bool) (a : α) : List (Operator × α) → Row (Row α)
  | [] => ⟨⟨a, []⟩, []⟩
  | (op, b) :: rest =>
    let pieces := piecesFrom cut b rest
    if cut op then ⟨⟨a, []⟩, (op, pieces.first) :: pieces.rest⟩
    else ⟨⟨a, (op, pieces.first.first) :: pieces.first.rest⟩, pieces.rest⟩

/-- The pieces between the operators that are cut out. -/
def pieces (cut : Operator → Bool) (row : Row α) : Row (Row α) := piecesFrom cut row.first row.rest

/-- The value of a row of powers that begins with `a`. The signs of an item negate the value of its
number raised to the rest of the row. -/
def powersFrom (a : Signed) : List (Operator × Signed) → Float
  | [] => Nat.iterate Neg.neg a.signs a.number
  | (_, b) :: rest => Nat.iterate Neg.neg a.signs (a.number.pow (powersFrom b rest))

def powers (row : Row Signed) : Float := powersFrom row.first row.rest

/-- What an operator does between the pieces of a sum. -/
def additive (op : Operator) (x y : Float) : Float := if op = .sub then x - y else x + y

/-- What an operator does between the pieces of a product. -/
def multiplicative (op : Operator) (x y : Float) : Float := if op = .div then x / y else x * y

/-- The value of flat arithmetic: a sum of products of powers. Nothing here is taken from the
evaluator; the operations are those of the doubles themselves. -/
def value (row : Row Signed) : Float :=
  (row.pieces (· ∈ [Operator.add, .sub])).foldLeft additive fun piece =>
    (piece.pieces (· ∈ [Operator.mul, .div])).foldLeft multiplicative powers

variable (cut : Operator → Bool)

theorem lexemes_piecesFrom (item : α → List Lexeme) (a : α) (rest : List (Operator × α)) :
    (piecesFrom cut a rest).lexemes (lexemes item) = lexemes item ⟨a, rest⟩ := by
  induction rest generalizing a with
  | nil => simp [piecesFrom, lexemes]
  | cons r rest ih =>
    obtain ⟨op, b⟩ := r
    have hrest := ih b
    by_cases hop : cut op
    · simp_all [piecesFrom, lexemes]
    · simp_all [piecesFrom, lexemes]

/-- The pieces with the operators between them are the row. -/
theorem lexemes_pieces (item : α → List Lexeme) (row : Row α) :
    (row.pieces cut).lexemes (lexemes item) = row.lexemes item :=
  lexemes_piecesFrom cut item row.first row.rest

/-- The operators between the pieces are those that are cut out, and none inside a piece is. -/
theorem operators_pieces {P : Operator → Prop} (row : Row α) (h : ∀ r ∈ row.rest, P r.1) :
    (∀ r ∈ (row.pieces cut).rest, P r.1 ∧ cut r.1 = true) ∧
      ∀ piece ∈ (row.pieces cut).items, ∀ r ∈ piece.rest, P r.1 ∧ cut r.1 = false := by
  obtain ⟨a, rest⟩ := row
  simp only [pieces] at h ⊢
  induction rest generalizing a with
  | nil => simp [piecesFrom, items]
  | cons r rest ih =>
    obtain ⟨op, b⟩ := r
    obtain ⟨hop, hrest⟩ := List.forall_mem_cons.mp h
    obtain ⟨hcut, hpieces⟩ := ih b hrest
    obtain ⟨hfirst, hothers⟩ := List.forall_mem_cons.mp hpieces
    by_cases hc : cut op = true
    · simp only [piecesFrom, if_pos hc]
      exact ⟨List.forall_mem_cons.mpr ⟨⟨hop, hc⟩, hcut⟩,
        List.forall_mem_cons.mpr ⟨by simp, hpieces⟩⟩
    · simp only [piecesFrom, if_neg hc]
      rw [Bool.not_eq_true] at hc
      exact ⟨hcut, List.forall_mem_cons.mpr
        ⟨List.forall_mem_cons.mpr ⟨⟨hop, hc⟩, hfirst⟩, hothers⟩⟩

/-- A row whose operators are all cut out falls into its items. -/
theorem piecesFrom_of_forall {a : α} {rest : List (Operator × α)}
    (h : ∀ r ∈ rest, cut r.1 = true) :
    piecesFrom cut a rest = ⟨⟨a, []⟩, rest.map fun (op, b) => (op, ⟨b, []⟩)⟩ := by
  induction rest generalizing a with
  | nil => rfl
  | cons r rest ih =>
    obtain ⟨hop, hrest⟩ := List.forall_mem_cons.mp h
    simp [piecesFrom, hop, ih hrest]

end Row

namespace Grammar

/-- Tokens with these lexemes form a phrase with the value `x`, whatever their lines are. -/
def Means (R : List Token → Expr → Prop) (ls : List Lexeme) (x : Float) : Prop :=
  ∀ ts : List Token, ts.map Token.lexeme = ls →
    ∃ e, R ts e ∧ ∀ env, e.eval env = .ok (.number x)

variable {ls xs ys : List Lexeme} {x y : Float}

theorem Means.imp {R R' : List Token → Expr → Prop} (h : Means R ls x)
    (hR : ∀ ts e, R ts e → R' ts e) : Means R' ls x := by
  intro ts hts
  obtain ⟨e, he, hx⟩ := h ts hts
  exact ⟨e, hR ts e he, hx⟩

theorem means_number (x : Float) : Means Unary [.number x] x := by
  intro ts hts
  obtain ⟨⟨_, n⟩, rest, rfl, rfl, hrest⟩ := List.map_eq_cons_iff.mp hts
  obtain rfl := List.map_eq_nil_iff.mp hrest
  exact ⟨.number x n, .power (.primary .number), fun env => rfl⟩

theorem Means.minus (h : Means Unary ls x) : Means Unary (.minus :: ls) (-x) := by
  intro ts hts
  obtain ⟨⟨_, n⟩, rest, rfl, rfl, hrest⟩ := List.map_eq_cons_iff.mp hts
  obtain ⟨e, he, hx⟩ := h rest hrest
  refine ⟨.negation e n, .minus he, ?_⟩
  intro env
  simp [hx, Value.asNumber]

theorem Means.signs (h : Means Unary ls x) (k : Nat) :
    Means Unary (List.replicate k .minus ++ ls) (Nat.iterate Neg.neg k x) := by
  induction k with
  | zero => exact h
  | succ k ih =>
    rw [List.replicate_succ, List.cons_append, Function.iterate_succ_apply']
    exact ih.minus

theorem Means.caret (h : Means Unary ls y) (x : Float) :
    Means Unary (.number x :: .caret :: ls) (x.pow y) := by
  intro ts hts
  obtain ⟨⟨_, n⟩, rest, rfl, rfl, hrest⟩ := List.map_eq_cons_iff.mp hts
  obtain ⟨⟨_, m⟩, us, rfl, rfl, hus⟩ := List.map_eq_cons_iff.mp hrest
  obtain ⟨e, he, hy⟩ := h us hus
  refine ⟨.binary .pow (.number x n) e m, .power (.caret .number he), ?_⟩
  intro env
  simp [hy, Operator.applyValues, Operator.apply, Value.asNumber]

theorem Means.join {level : Level} {op : Operator} (hx : Means (Chain level) xs x)
    (hop : Joins level op.lexeme op) (hy : Means (Operand level) ys y) :
    Means (Chain level) (xs ++ op.lexeme :: ys) (op.apply x y) := by
  intro ts hts
  obtain ⟨us, rest, rfl, hus, hrest⟩ := List.map_eq_append_iff.mp hts
  obtain ⟨⟨_, n⟩, vs, rfl, rfl, hvs⟩ := List.map_eq_cons_iff.mp hrest
  obtain ⟨l, hl, hlx⟩ := hx us hus
  obtain ⟨r, hr, hry⟩ := hy vs hvs
  refine ⟨.binary op l r n, .join hl hop hr, ?_⟩
  intro env
  simp [hlx, hry, Operator.applyValues, Value.asNumber]

/-- A chain is evaluated from the left. This is shown for any chain in front of the row, as the fold
makes that longer by one item after the other. -/
theorem means_foldl {α : Type} {level : Level} {item : α → List Lexeme} {value : α → Float}
    {operation : Operator → Float → Float → Float} (rest : List (Operator × α))
    (hitems : ∀ r ∈ rest, Means (Operand level) (item r.2) (value r.2))
    (hops : ∀ r ∈ rest, Joins level r.1.lexeme r.1 ∧ operation r.1 = r.1.apply)
    (h : Means (Chain level) xs x) :
    Means (Chain level) (xs ++ rest.flatMap fun (op, a) => op.lexeme :: item a)
      (rest.foldl (fun x (op, a) => operation op x (value a)) x) := by
  induction rest generalizing xs x with
  | nil => simpa using h
  | cons r rest ih =>
    obtain ⟨op, b⟩ := r
    obtain ⟨⟨hjoins, hoperation⟩, hops⟩ := List.forall_mem_cons.mp hops
    obtain ⟨hb, hitems⟩ := List.forall_mem_cons.mp hitems
    have hlonger := ih hitems hops (h.join hjoins hb)
    simpa [hoperation] using hlonger

theorem means_foldLeft {α : Type} {level : Level} {item : α → List Lexeme} {value : α → Float}
    {operation : Operator → Float → Float → Float} (row : Row α)
    (hitems : ∀ a ∈ row.items, Means (Operand level) (item a) (value a))
    (hops : ∀ r ∈ row.rest, Joins level r.1.lexeme r.1 ∧ operation r.1 = r.1.apply) :
    Means (Chain level) (row.lexemes item) (row.foldLeft operation value) := by
  obtain ⟨hfirst, hrest⟩ := List.forall_mem_cons.mp hitems
  exact means_foldl row.rest (List.forall_mem_map.mp hrest) hops (hfirst.imp fun _ _ => .single)

/-- Powers are evaluated from the right, each minus sign behind all that it stands in front of. -/
theorem means_powersFrom (a : Signed) (rest : List (Operator × Signed))
    (hops : ∀ r ∈ rest, r.1 = .pow) :
    Means Unary (Row.lexemes Signed.lexemes ⟨a, rest⟩) (Row.powersFrom a rest) := by
  induction rest generalizing a with
  | nil =>
    simpa [Row.lexemes, Signed.lexemes, Row.powersFrom] using
      (means_number a.number).signs a.signs
  | cons r rest ih =>
    obtain ⟨op, b⟩ := r
    obtain ⟨rfl, hrest⟩ := List.forall_mem_cons.mp hops
    have hpower := ((ih b hrest).caret a.number).signs a.signs
    simpa [Row.lexemes, Signed.lexemes, Row.powersFrom, Operator.lexeme] using hpower

theorem joins_sum : ∀ op ∈ [Operator.add, .sub],
    Joins .sum op.lexeme op ∧ Row.additive op = op.apply := by
  simpa using ⟨⟨Joins.plus, rfl⟩, Joins.minus, rfl⟩

theorem joins_product : ∀ op ∈ [Operator.mul, .div],
    Joins .product op.lexeme op ∧ Row.multiplicative op = op.apply := by
  simpa using ⟨⟨Joins.star, rfl⟩, Joins.slash, rfl⟩

theorem means_value (row : Row Signed) :
    Means (Chain .sum) (row.lexemes Signed.lexemes) row.value := by
  obtain ⟨hsums, hpieces⟩ := row.operators_pieces (P := fun _ => True)
    (· ∈ [Operator.add, .sub]) (by simp)
  rw [← Row.lexemes_pieces (· ∈ [Operator.add, .sub])]
  apply means_foldLeft
  · intro piece hpiece
    have hrest : ∀ r ∈ piece.rest, r.1 ∉ [Operator.add, .sub] := by
      simpa using hpieces piece hpiece
    obtain ⟨hproducts, hchains⟩ := piece.operators_pieces (P := (· ∉ [Operator.add, .sub]))
      (· ∈ [Operator.mul, .div]) hrest
    rw [← Row.lexemes_pieces (· ∈ [Operator.mul, .div])]
    apply Means.imp _ fun _ _ => Operand.product
    apply means_foldLeft
    · intro chain hchain
      apply Means.imp _ fun _ _ => Operand.unary
      apply means_powersFrom
      intro r hr
      obtain ⟨hsum, hproduct⟩ := hchains chain hchain r hr
      cases h : r.1 <;> simp_all
    · intro r hr
      exact joins_product _ (by simpa using (hproducts r hr).2)
  · intro r hr
    exact joins_sum _ (by simpa using (hsums r hr).2)

/-- An expression with a value is read from all of its tokens. -/
theorem Means.expression (h : Means (Chain .sum) ls x) {ts : List Token}
    (hts : ts.map Token.lexeme = ls) :
    ∃ e lt, Phrase.expression ts = .ok ⟨e, [], lt⟩ ∧ ∀ env, e.eval env = .ok (.number x) := by
  obtain ⟨e, he, hx⟩ := h ts hts
  have hread : Phrase.bare (Phrase.expression (ts ++ [])) = .ok (e, []) :=
    Phrase.chain_complete he (stops_nil (k := 0)) (by decide)
  rw [List.append_nil] at hread
  obtain ⟨lt, hphrase⟩ := Phrase.eq_ok_of_bare hread
  exact ⟨e, lt, hphrase, hx⟩

end Grammar

namespace Row

theorem value_sum (x : Float) (xs : List Float) :
    value ⟨⟨0, x⟩, xs.map fun y => (.add, ⟨0, y⟩)⟩ = xs.foldl (· + ·) x := by
  rw [value, pieces, piecesFrom_of_forall _ (by simp)]
  simp [foldLeft, pieces, piecesFrom, powers, powersFrom, List.foldl_map, additive]

/-- Tokens of flat arithmetic are read as one expression that uses them up, and its value is that of
the row in every environment. A row of additions is added up from the left. -/
theorem expression_flat (ts : List Token) :
    (∀ row : Row Signed, ts.map Token.lexeme = row.lexemes Signed.lexemes →
      ∃ e lt, Phrase.expression ts = .ok ⟨e, [], lt⟩ ∧
        ∀ env, e.eval env = .ok (.number row.value)) ∧
    ∀ (x : Float) (xs : List Float),
      ts.map Token.lexeme = .number x :: xs.flatMap (fun y => [.plus, .number y]) →
        ∃ e lt, Phrase.expression ts = .ok ⟨e, [], lt⟩ ∧
          ∀ env, e.eval env = .ok (.number (xs.foldl (· + ·) x)) := by
  constructor
  · intro row hts
    exact (Grammar.means_value row).expression hts
  · intro x xs hts
    rw [← value_sum]
    apply (Grammar.means_value _).expression
    simpa [lexemes, Signed.lexemes, Operator.lexeme, List.flatMap_map] using hts

/-- In `-2 ^ -3 * 5 / 4 - 7` the first minus sign negates the power and the second one the
exponent, and the product is divided. -/
theorem expression_flat_signs :
    (∃ e lt, Phrase.expression [⟨.minus, 1⟩, ⟨.number 2, 1⟩, ⟨.caret, 1⟩, ⟨.minus, 1⟩,
        ⟨.number 3, 1⟩, ⟨.star, 2⟩, ⟨.number 5, 2⟩, ⟨.slash, 2⟩, ⟨.number 4, 2⟩, ⟨.minus, 2⟩,
        ⟨.number 7, 3⟩] = .ok ⟨e, [], lt⟩ ∧
      ∀ env, e.eval env = .ok (.number (-(Float.pow 2 (-3)) * 5 / 4 - 7))) ∧
    ∃ e lt, Phrase.expression [⟨.number 1, 1⟩, ⟨.plus, 1⟩, ⟨.number 2, 1⟩, ⟨.plus, 2⟩,
        ⟨.number 3, 2⟩] = .ok ⟨e, [], lt⟩ ∧
      ∀ env, e.eval env = .ok (.number (1 + 2 + 3)) :=
  ⟨(expression_flat _).1
      ⟨⟨1, 2⟩, [(.pow, ⟨1, 3⟩), (.mul, ⟨0, 5⟩), (.div, ⟨0, 4⟩), (.sub, ⟨0, 7⟩)]⟩ rfl,
    (expression_flat _).2 1 [2, 3] rfl⟩

end Row
end ScalarScript
