import ScalarScript.Proofs.Number.Literal
import ScalarScript.Proofs.Program.Acceptance
import ScalarScript.Proofs.Program.Lines

/-!
# Well-formed programs

In a program that was read from a text each number is the value of a literal and each name is a
word of the name rule. This holds of the tokens, where the lexical rules see to it, and a derivation
takes all numbers and names from its tokens.
-/

namespace ScalarScript

/-- The doubles that literals stand for. A sign is not part of a literal. -/
def IsLiteral (x : Float) : Prop := x.isNaN = false ∧ Binary64.isNegative x = false

/-- The words of `[a-zA-Z_][a-zA-Z0-9_]*`. -/
def IsName (s : String) : Prop := s.toList ∈ Lexical.language .name

namespace Expr

mutual

def WellFormed : Expr → Prop
  | .number x _ => IsLiteral x
  | .name s _ => IsName s
  | .negation e _ => e.WellFormed
  | .binary _ l r _ => l.WellFormed ∧ r.WellFormed
  | .call f es _ => IsName f ∧ AllWellFormed es

def AllWellFormed : List Expr → Prop
  | [] => True
  | e :: es => e.WellFormed ∧ AllWellFormed es

end

end Expr

def Statement.WellFormed : Statement → Prop
  | .assignment s e _ => IsName s ∧ e.WellFormed
  | .expression e _ => e.WellFormed

def Program.WellFormed (p : Program) : Prop := ∀ s ∈ p, s.WellFormed

namespace Expr

mutual

theorem wellFormed_mapLines (f : Nat → Nat) :
    ∀ e : Expr, (e.mapLines f).WellFormed ↔ e.WellFormed
  | .number _ _ | .name _ _ => Iff.rfl
  | .negation e _ => wellFormed_mapLines f e
  | .binary _ l r _ => and_congr (wellFormed_mapLines f l) (wellFormed_mapLines f r)
  | .call _ es _ => and_congr_right fun _ => allWellFormed_mapLinesAll f es

theorem allWellFormed_mapLinesAll (f : Nat → Nat) :
    ∀ es : List Expr, AllWellFormed (mapLinesAll f es) ↔ AllWellFormed es
  | [] => Iff.rfl
  | e :: es => and_congr (wellFormed_mapLines f e) (allWellFormed_mapLinesAll f es)

end

end Expr

theorem Statement.wellFormed_mapLines (f : Nat → Nat) (s : Statement) :
    (s.mapLines f).WellFormed ↔ s.WellFormed := by
  cases s with
  | assignment _ e _ => exact and_congr_right fun _ => e.wellFormed_mapLines f
  | expression e _ => exact e.wellFormed_mapLines f

namespace Program

theorem wellFormed_mapLines (f : Nat → Nat) (p : Program) :
    (p.mapLines f).WellFormed ↔ p.WellFormed := by
  unfold mapLines WellFormed
  rw [List.forall_mem_map]
  exact forall₂_congr fun s _ => s.wellFormed_mapLines f

theorem EqUpToLines.wellFormed {p q : Program} (h : p.EqUpToLines q) (hp : p.WellFormed) :
    q.WellFormed := by
  rw [← wellFormed_mapLines fun _ => 0] at hp ⊢
  rwa [← h]

end Program

def Lexeme.WellFormed : Lexeme → Prop
  | .number x => IsLiteral x
  | .name s => IsName s
  | _ => True

namespace Lexical

theorem Denotes.wellFormed {r : Rule} {w : List Char} {l : Lexeme} (h : Denotes r w l)
    (hw : w ∈ language r) : l.WellFormed := by
  cases h with
  | number | pointNumber =>
    exact ⟨(Decimal.ofLiteral w).isNaN_toFloat, (Decimal.ofLiteral w).isNegative_toFloat⟩
  | name =>
    show (String.ofList w).toList ∈ language .name
    rwa [String.toList_ofList]
  | _ => trivial

theorem Munch.wellFormed {cs rest : List Char} {ps : List (Rule × List Char)} (h : Munch cs ps rest)
    (line : ℕ) : ∀ t ∈ placed line ps, t.lexeme.WellFormed := by
  induction h generalizing line with
  | stuck => simp [placed]
  | @lexeme r w cs ps rest hl _ ih =>
    rw [placed, List.forall_mem_append]
    refine ⟨?_, ih _⟩
    cases hr : isSkipped r with
    | true => simp [lexeme?_of_skipped hr]
    | false =>
      obtain ⟨l, heq, hd⟩ := lexeme?_of_mem hl.mem hr
      simpa [heq] using hd.wellFormed hl.mem

end Lexical

namespace Grammar

/-- An expression takes all its numbers and names from its tokens. -/
theorem hereditary_wellFormed :
    Hereditary (fun ts e => (∀ t ∈ ts, t.lexeme.WellFormed) → e.WellFormed)
      fun ts es => (∀ t ∈ ts, t.lexeme.WellFormed) → Expr.AllWellFormed es where
  number _ _ ht := ht _ (List.mem_singleton_self _)
  name _ _ ht := ht _ (List.mem_singleton_self _)
  negation _ h ht := h (List.forall_mem_cons.mp ht).2
  binary _ _ hl _ hr ht := by
    obtain ⟨hxs, hys⟩ := List.forall_mem_append.mp ht
    exact ⟨hl hxs, hr (List.forall_mem_cons.mp hys).2⟩
  call _ _ _ _ h ht := by
    obtain ⟨hname, hrest⟩ := List.forall_mem_cons.mp ht
    obtain ⟨harguments, -⟩ := List.forall_mem_append.mp (List.forall_mem_cons.mp hrest).2
    exact ⟨hname, h harguments⟩
  paren _ _ h ht := by
    obtain ⟨hinner, -⟩ := List.forall_mem_append.mp (List.forall_mem_cons.mp ht).2
    exact h hinner
  none _ := trivial
  last h ht := ⟨h ht, trivial⟩
  more _ h _ hs ht := by
    obtain ⟨hxs, hys⟩ := List.forall_mem_append.mp ht
    exact ⟨h hxs, hs (List.forall_mem_cons.mp hys).2⟩

theorem Statement.wellFormed {ts : List Token} {s : ScalarScript.Statement} (h : Statement ts s)
    (ht : ∀ t ∈ ts, t.lexeme.WellFormed) : s.WellFormed := by
  cases h with
  | assignment h =>
    obtain ⟨hname, hrest⟩ := List.forall_mem_cons.mp ht
    exact ⟨hname, hereditary_wellFormed.chain h (List.forall_mem_cons.mp hrest).2⟩
  | expression h => exact hereditary_wellFormed.chain h ht

theorem Program.wellFormed {ts : List Token} {p : ScalarScript.Program} (h : Program ts p) :
    (∀ t ∈ ts, t.lexeme.WellFormed) → p.WellFormed := by
  refine Program.of_parts h ?_ ?_ ?_
  · intro ts _ _
    exact List.forall_mem_nil _
  · intro ts s hs ht
    exact List.forall_mem_singleton.mpr (hs.wellFormed ht)
  · intro xs ys p q hp hq ht
    obtain ⟨hxs, hys⟩ := List.forall_mem_append.mp ht
    exact List.forall_mem_append.mpr ⟨hp hxs, hq hys⟩

end Grammar

theorem Program.wellFormed_of_ofSource {source : String} {p : Program}
    (h : ofSource source = .ok p) : p.WellFormed := by
  obtain ⟨ps, hm, hp⟩ := ofSource_eq_ok_iff.mp h
  exact hp.wellFormed (hm.wellFormed 1)

end ScalarScript
