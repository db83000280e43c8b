import ScalarScript.Proofs.Lexical.Longest

/-!
# Block comments

The scan for a closing mark finds the first one. The regular language of block comments says the
same in another way: its words are the texts in which the first closing mark ends the text. One
direction follows a word through its runs of stars; the other reads the text character by character
and keeps whether the last one was a star.
-/

namespace ScalarScript
namespace Lexical

open Computability

/-- A text without a closing mark. -/
def Unclosed (u : List Char) : Prop := ¬ ['*', '/'] <:+: u

theorem unclosed_nil : Unclosed [] := by
  intro h
  have := h.length_le
  simp at this

theorem unclosed_cons {c : Char} {u : List Char} :
    Unclosed (c :: u) ↔ (c = '*' → u.head? ≠ some '/') ∧ Unclosed u := by
  rw [Unclosed, List.infix_cons_iff, not_or, Unclosed]
  refine and_congr_left fun _ => ?_
  cases u <;> simp [List.cons_prefix_cons, eq_comm]

theorem throughClose_cons {c : Char} {cs : List Char} (h : c = '*' → cs.head? ≠ some '/') :
    Rule.throughClose (c :: cs) = (Rule.throughClose cs).map (· + 1) := by
  rw [Rule.throughClose]
  rintro rest rfl rfl
  exact h rfl rfl

theorem throughClose_unclosed {u : List Char} (h : Unclosed u) (rest : List Char) :
    Rule.throughClose (u ++ '*' :: '/' :: rest) = some (u.length + 2) := by
  induction u with
  | nil => rfl
  | cons c u ih =>
    obtain ⟨hc, hu⟩ := unclosed_cons.mp h
    have hhead : c = '*' → (u ++ '*' :: '/' :: rest).head? ≠ some '/' := by
      intro heq
      cases u with
      | nil => simp
      | cons d u => simpa using hc heq
    rw [List.cons_append, throughClose_cons hhead, ih hu]
    rfl

/-- The scan stops behind the first closing mark. -/
theorem throughClose_eq_some_iff {cs : List Char} {n : ℕ} :
    Rule.throughClose cs = some n ↔
      ∃ u rest, cs = u ++ '*' :: '/' :: rest ∧ Unclosed u ∧ n = u.length + 2 := by
  constructor
  · intro h
    induction cs using Rule.throughClose.induct generalizing n with
    | case1 => cases h
    | case2 rest =>
      cases h
      exact ⟨[], rest, rfl, unclosed_nil, rfl⟩
    | case3 c cs hclose ih =>
      have hhead : c = '*' → cs.head? ≠ some '/' := by
        intro hc hcs
        obtain ⟨us, rfl⟩ := List.head?_eq_some_iff.mp hcs
        exact hclose us hc rfl
      rw [throughClose_cons hhead] at h
      obtain ⟨m, hm, rfl⟩ := Option.map_eq_some_iff.mp h
      obtain ⟨u, rest, rfl, hu, rfl⟩ := ih hm
      refine ⟨c :: u, rest, rfl, unclosed_cons.mpr ⟨?_, hu⟩, rfl⟩
      intro hc hus
      apply hhead hc
      obtain ⟨us, rfl⟩ := List.head?_eq_some_iff.mp hus
      rfl
  · rintro ⟨u, rest, rfl, hu, rfl⟩
    exact throughClose_unclosed hu rest

theorem throughClose_stars {s : List Char} (hs : s ∈ repeated (oneOf {'*'})) {c : Char}
    (hc : c ≠ '*') (v : List Char) :
    Rule.throughClose (s ++ c :: v) =
      if c = '/' then some (s.length + 1)
      else (Rule.throughClose v).map (· + (s.length + 1)) := by
  obtain ⟨hne, hall⟩ := mem_repeated_oneOf.mp hs
  clear hs
  induction s with
  | nil => exact absurd rfl hne
  | cons d s ih =>
    obtain ⟨rfl, htail⟩ := List.forall_mem_cons.mp hall
    cases s with
    | nil =>
      split
      next heq =>
        subst heq
        rfl
      next hslash =>
        have h₁ : Rule.throughClose ('*' :: c :: v) = (Rule.throughClose (c :: v)).map (· + 1) :=
          throughClose_cons (by simpa using hslash)
        have h₂ : Rule.throughClose (c :: v) = (Rule.throughClose v).map (· + 1) :=
          throughClose_cons fun heq => absurd heq hc
        rw [List.singleton_append, h₁, h₂, Option.map_map]
        rfl
    | cons e s =>
      have hstar : e = '*' := htail e (by simp)
      have hhead : '*' = '*' → (e :: s ++ c :: v).head? ≠ some '/' := by
        simp [hstar]
      rw [List.cons_append, throughClose_cons hhead, ih (by simp) htail]
      split
      · rfl
      · rw [Option.map_map]
        rfl

theorem throughClose_starred {a : List Char} (ha : a ∈ starred) {c : Char} (hc : c ≠ '*')
    (v : List Char) :
    Rule.throughClose (a ++ c :: v) =
      if c = '/' then some (a.length + 1)
      else (Rule.throughClose v).map (· + (a.length + 1)) := by
  obtain ⟨u, hu, s, hs, rfl⟩ := Language.mem_mul.mp ha
  rw [mem_kstar_oneOf] at hu
  rw [List.append_assoc]
  induction u with
  | nil => exact throughClose_stars hs hc v
  | cons d u ih =>
    obtain ⟨hd, hu⟩ := List.forall_mem_cons.mp hu
    have hhead : d = '*' → (u ++ (s ++ c :: v)).head? ≠ some '/' := fun heq => absurd heq hd
    rw [List.cons_append, throughClose_cons hhead, ih hu]
    · split
      · rfl
      · rw [Option.map_map]
        rfl
    · exact Language.append_mem_mul (mem_kstar_oneOf.mpr hu) hs

theorem throughClose_of_mem {w : List Char} (h : w ∈ starred * commentEnd) (rest : List Char) :
    Rule.throughClose (w ++ rest) = some w.length := by
  obtain ⟨a, ha, _, he, rfl⟩ := Language.mem_mul.mp h
  obtain ⟨_, ⟨L, rfl, hL⟩, _, ⟨_, rfl, rfl⟩, rfl⟩ := Language.mem_mul.mp he
  clear h he
  induction L generalizing a with
  | nil => simpa using throughClose_starred (c := '/') ha (by decide) rest
  | cons d L ih =>
    obtain ⟨hd, htail⟩ := List.forall_mem_cons.mp hL
    obtain ⟨x, hx, b, hb, rfl⟩ := mem_oneOf_mul.mp hd
    obtain ⟨hslash, hstar⟩ : x ≠ '/' ∧ x ≠ '*' := by simpa using hx
    have hsplit : a ++ (((x :: b) :: L).flatten ++ ['/']) ++ rest =
        a ++ x :: (b ++ (L.flatten ++ ['/']) ++ rest) := by simp
    rw [hsplit, throughClose_starred ha hstar, if_neg hslash, ih b hb htail]
    simp only [Option.map_some, Option.some.injEq, List.length_append, List.flatten_cons,
      List.length_cons]
    omega

theorem starred_cons {c : Char} {w : List Char} {l : Language Char} (hc : c ≠ '*')
    (h : w ∈ starred * l) : c :: w ∈ starred * l := by
  obtain ⟨a, ha, v, hv, rfl⟩ := Language.mem_mul.mp h
  obtain ⟨u, hu, s, hs, rfl⟩ := Language.mem_mul.mp ha
  have hmem : c :: u ∈ (oneOf {'*'}ᶜ)∗ := by
    rw [mem_kstar_oneOf] at hu ⊢
    exact List.forall_mem_cons.mpr ⟨hc, hu⟩
  exact Language.append_mem_mul (Language.append_mem_mul hmem hs) hv

theorem starred_of_stars {w : List Char} {l : Language Char}
    (h : w ∈ repeated (oneOf {'*'}) * l) : w ∈ starred * l := by
  rw [starred, mul_assoc]
  exact Language.append_mem_mul (Language.nil_mem_kstar _) h

theorem star_mem : ['*'] ∈ repeated (oneOf {'*'}) :=
  mem_repeated_oneOf.mpr ⟨by simp, by simp⟩

theorem stars_cons {w : List Char} {l : Language Char} (h : w ∈ repeated (oneOf {'*'}) * l) :
    '*' :: w ∈ repeated (oneOf {'*'}) * l := by
  obtain ⟨s, hs, v, hv, rfl⟩ := Language.mem_mul.mp h
  have hmem : '*' :: s ∈ repeated (oneOf {'*'}) := by
    rw [mem_repeated_oneOf] at hs ⊢
    exact ⟨by simp, List.forall_mem_cons.mpr ⟨rfl, hs.2⟩⟩
  exact Language.append_mem_mul hmem hv

theorem commentEnd_cons {c : Char} {w : List Char} (hslash : c ≠ '/') (hstar : c ≠ '*')
    (h : w ∈ starred * commentEnd) : c :: w ∈ commentEnd := by
  obtain ⟨a, ha, v, hv, rfl⟩ := Language.mem_mul.mp h
  obtain ⟨L, hL, e, he, rfl⟩ := Language.mem_mul.mp hv
  have hblock : c :: a ∈ oneOf {'/', '*'}ᶜ * starred :=
    mem_oneOf_mul.mpr ⟨c, by simp [hslash, hstar], a, ha, rfl⟩
  have := Language.append_mem_mul (append_mem_kstar hblock hL) he
  simpa [commentEnd] using this

mutual

theorem mem_of_throughClose : ∀ {w : List Char}, Rule.throughClose w = some w.length →
    w ∈ starred * commentEnd
  | [], h => by cases h
  | c :: w, h => by
    by_cases hc : c = '*'
    · subst hc
      exact starred_of_stars (mem_of_throughClose_star h)
    · rw [throughClose_cons fun heq => absurd heq hc] at h
      obtain ⟨m, hm, heq⟩ := Option.map_eq_some_iff.mp h
      cases heq
      exact starred_cons hc (mem_of_throughClose hm)

theorem mem_of_throughClose_star : ∀ {w : List Char},
    Rule.throughClose ('*' :: w) = some (w.length + 1) →
      '*' :: w ∈ repeated (oneOf {'*'}) * commentEnd
  | [], h => by cases h
  | c :: w, h => by
    by_cases hslash : c = '/'
    · subst hslash
      have hnil : w = [] := by
        cases w with
        | nil => rfl
        | cons d w => cases h
      subst hnil
      have hend : ['/'] ∈ commentEnd :=
        Language.append_mem_mul (Language.nil_mem_kstar _) ⟨'/', rfl, rfl⟩
      exact Language.append_mem_mul star_mem hend
    · rw [throughClose_cons (by simpa using hslash)] at h
      obtain ⟨m, hm, heq⟩ := Option.map_eq_some_iff.mp h
      cases heq
      by_cases hstar : c = '*'
      · subst hstar
        exact stars_cons (mem_of_throughClose_star hm)
      · rw [throughClose_cons fun heq => absurd heq hstar] at hm
        obtain ⟨n, hn, heq⟩ := Option.map_eq_some_iff.mp hm
        cases heq
        exact Language.append_mem_mul star_mem
          (commentEnd_cons hslash hstar (mem_of_throughClose hn))

end

theorem exists_of_blockComment_pos {cs : List Char} (h : 0 < Rule.length .blockComment cs) :
    ∃ u n, cs = '/' :: '*' :: u ∧ Rule.throughClose u = some n := by
  by_contra hn
  unfold Rule.length at h
  split at h <;> first | contradiction | skip
  next u heq =>
    cases hu : Rule.throughClose u with
    | none =>
      rw [hu] at h
      cases h
    | some n => exact hn ⟨u, n, rfl, hu⟩

/-- Whatever follows a block comment, it is the only one there. -/
theorem length_blockComment_append {w : List Char} (h : w ∈ language .blockComment)
    (rest : List Char) : Rule.length .blockComment (w ++ rest) = w.length := by
  simp only [language, mul_assoc, mem_oneOf_mul, Set.mem_singleton_iff, exists_eq_left] at h
  obtain ⟨_, ⟨v, hv, rfl⟩, rfl⟩ := h
  rw [List.cons_append, List.cons_append, Rule.length, throughClose_of_mem hv]
  simp only [List.length_cons, Option.map_some, Option.getD_some]
  omega

/-- A text without a closing mark between the two marks. -/
theorem mem_blockComment {u : List Char} (h : Unclosed u) :
    '/' :: '*' :: (u ++ ['*', '/']) ∈ language .blockComment := by
  have hclose : Rule.throughClose (u ++ ['*', '/']) = some (u ++ ['*', '/']).length := by
    simpa using throughClose_unclosed h []
  simp only [language, mul_assoc, mem_oneOf_mul, Set.mem_singleton_iff, exists_eq_left]
  exact ⟨_, ⟨_, mem_of_throughClose hclose, rfl⟩, rfl⟩

theorem measures_blockComment :
    Measures (language .blockComment) (Rule.length .blockComment) where
  take_mem {cs} h := by
    obtain ⟨u, n, rfl, hn⟩ := exists_of_blockComment_pos h
    obtain ⟨v, rest, rfl, hv, rfl⟩ := throughClose_eq_some_iff.mp hn
    have hsplit : '/' :: '*' :: (v ++ '*' :: '/' :: rest) =
        '/' :: '*' :: (v ++ ['*', '/']) ++ rest := by simp
    rw [hsplit, length_blockComment_append (mem_blockComment hv), List.take_left]
    exact mem_blockComment hv
  length_le {w rest} h := (length_blockComment_append h rest).ge

end Lexical
end ScalarScript
