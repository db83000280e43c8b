import ScalarScript.Proofs.Lexical.Language

/-!
# The lengths of longest words

For each rule the scanned length is that of the longest word of the rule's language in front of the
text, and zero if there is no word. A scan that takes as much as it can at each step is longest
because the parts of a word are told apart by one character: a fraction starts with a point, an
exponent with a letter, and neither is a digit.
-/

namespace ScalarScript
namespace Lexical

open Computability

/-- The length of the longest word in front of each text, or zero if there is none. -/
structure Measures (l : Language Char) (n : List Char → Nat) : Prop where
  take_mem : ∀ {cs : List Char}, 0 < n cs → cs.take (n cs) ∈ l
  length_le : ∀ {w rest : List Char}, w ∈ l → w.length ≤ n (w ++ rest)

theorem take_length_takeWhile (p : Char → Bool) (cs : List Char) :
    cs.take (cs.takeWhile p).length = cs.takeWhile p :=
  (List.prefix_iff_eq_take.mp (List.takeWhile_prefix p)).symm

theorem length_takeWhile_append {p : Char → Bool} {w : List Char} (h : ∀ c ∈ w, p c = true)
    (rest : List Char) :
    ((w ++ rest).takeWhile p).length = w.length + (rest.takeWhile p).length := by
  rw [List.takeWhile_append_of_pos h, List.length_append]

theorem length_takeWhile_of_head {p : Char → Bool} {cs : List Char}
    (h : ∀ c ∈ cs.head?, p c = false) : (cs.takeWhile p).length = 0 := by
  cases cs with
  | nil => rfl
  | cons c cs =>
    have hc : p c = false := h c rfl
    simp [hc]

theorem forall_mem_takeWhile {p : Char → Bool} {cs : List Char} :
    ∀ c ∈ cs.takeWhile p, p c = true :=
  List.all_eq_true.mp List.all_takeWhile

/-- A text of digits. -/
def Digits (cs : List Char) : Prop := ∀ c ∈ cs, c.isDigit = true

theorem Digits.append {u v : List Char} (hu : Digits u) (hv : Digits v) : Digits (u ++ v) :=
  List.forall_mem_append.mpr ⟨hu, hv⟩

theorem mem_kstar_digit {w : List Char} : w ∈ (oneOf digit)∗ ↔ Digits w := by
  simp only [mem_kstar_oneOf, mem_digit, Digits]

theorem mem_repeated_digit {w : List Char} : w ∈ repeated (oneOf digit) ↔ w ≠ [] ∧ Digits w := by
  simp only [mem_repeated_oneOf, mem_digit, Digits]

theorem digitsLength_append {w : List Char} (h : Digits w) (rest : List Char) :
    Rule.digitsLength (w ++ rest) = w.length + Rule.digitsLength rest :=
  length_takeWhile_append h rest

theorem digits_take (cs : List Char) : Digits (cs.take (Rule.digitsLength cs)) := by
  rw [Rule.digitsLength, take_length_takeWhile]
  exact forall_mem_takeWhile

theorem mem_exponent {w : List Char} :
    w ∈ exponent ↔ ∃ m sign ds, w = m :: (sign ++ ds) ∧ Decimal.isExponentMark m = true ∧
      (sign = [] ∨ sign = ['+'] ∨ sign = ['-']) ∧ ds ≠ [] ∧ Digits ds := by
  rw [exponent, mul_assoc, mem_oneOf_mul]
  simp only [Language.mem_mul, mem_optional, mem_oneOf, mem_repeated_digit]
  constructor
  · rintro ⟨m, hm, _, ⟨sign, hs, ds, hds, rfl⟩, rfl⟩
    refine ⟨m, sign, ds, rfl, ?_, ?_, hds⟩
    · rcases hm with rfl | rfl <;> rfl
    · rcases hs with rfl | ⟨c, rfl | rfl, rfl⟩ <;> simp
  · rintro ⟨m, sign, ds, rfl, hm, hs, hds⟩
    refine ⟨m, ?_, sign ++ ds, ⟨sign, ?_, ds, hds, rfl⟩, rfl⟩
    · simpa [Decimal.isExponentMark] using hm
    · rcases hs with rfl | rfl | rfl <;> simp

theorem signLength_append {sign ds : List Char} (hs : sign = [] ∨ sign = ['+'] ∨ sign = ['-'])
    (hne : ds ≠ []) (hds : Digits ds) (rest : List Char) :
    Rule.signLength (sign ++ ds ++ rest) = sign.length := by
  rcases hs with rfl | rfl | rfl
  · cases ds with
    | nil => exact absurd rfl hne
    | cons d ds =>
      have hd : d.isDigit = true := hds d (by simp)
      show Rule.signLength (d :: (ds ++ rest)) = 0
      unfold Rule.signLength
      split
      next heq =>
        cases heq
        cases hd
      next heq =>
        cases heq
        cases hd
      next => rfl
  · rfl
  · rfl

theorem exponentLength_append {w : List Char} (h : w ∈ exponent) (rest : List Char) :
    Rule.exponentLength (w ++ rest) = w.length + Rule.digitsLength rest := by
  obtain ⟨m, sign, ds, rfl, hm, hs, hne, hds⟩ := mem_exponent.mp h
  have hpos : 0 < ds.length := List.length_pos_of_ne_nil hne
  have hdrop : (sign ++ ds ++ rest).drop sign.length = ds ++ rest := by simp
  rw [List.cons_append, Rule.exponentLength, signLength_append hs hne hds, hdrop,
    digitsLength_append hds]
  simp only [hm, Bool.true_and, List.length_cons, List.length_append]
  rw [if_pos (by simpa using Or.inl hpos)]
  omega

theorem take_exponentLength (cs : List Char) :
    cs.take (Rule.exponentLength cs) ∈ optional exponent := by
  rw [mem_optional]
  cases cs with
  | nil => exact Or.inl rfl
  | cons m cs =>
    rw [Rule.exponentLength]
    split
    next h =>
      obtain ⟨hm, hd⟩ := Bool.and_eq_true_iff.mp h
      have hle := Rule.digitsLength_le (cs.drop (Rule.signLength cs))
      refine Or.inr (mem_exponent.mpr ⟨m, cs.take (Rule.signLength cs),
        (cs.drop (Rule.signLength cs)).take (Rule.digitsLength (cs.drop (Rule.signLength cs))),
        ?_, hm, ?_, ?_, digits_take _⟩)
      · rw [← List.take_add, Nat.add_assoc, Nat.add_comm, List.take_succ_cons]
      · unfold Rule.signLength
        split <;> simp
      · apply List.ne_nil_of_length_pos
        rw [List.length_take, Nat.min_eq_left hle]
        exact of_decide_eq_true hd
    next => exact Or.inl rfl

theorem mem_fraction {w : List Char} :
    w ∈ oneOf {'.'} * (oneOf digit)∗ ↔ ∃ ds, w = '.' :: ds ∧ Digits ds := by
  simp only [mem_oneOf_mul, Set.mem_singleton_iff, exists_eq_left, mem_kstar_digit]
  exact exists_congr fun ds => and_comm

theorem fractionLength_point {ds : List Char} (h : Digits ds) (rest : List Char) :
    Rule.fractionLength ('.' :: ds ++ rest) = 1 + ds.length + Rule.digitsLength rest := by
  rw [List.cons_append, Rule.fractionLength, digitsLength_append h, Nat.add_assoc]

theorem fractionLength_of_head {cs : List Char} (h : ∀ c ∈ cs.head?, c ≠ '.') :
    Rule.fractionLength cs = 0 := by
  unfold Rule.fractionLength
  split
  next => exact absurd rfl (h '.' rfl)
  next => rfl

theorem take_fractionLength (cs : List Char) :
    cs.take (Rule.fractionLength cs) ∈ optional (oneOf {'.'} * (oneOf digit)∗) := by
  rw [mem_optional, mem_fraction]
  unfold Rule.fractionLength
  split
  next cs =>
    refine Or.inr ⟨cs.take (Rule.digitsLength cs), ?_, digits_take cs⟩
    rw [Nat.add_comm, List.take_succ_cons]
  next => exact Or.inl rfl

/-- The length of a fraction with the exponent behind it, either of which may be missing. -/
def tailLength (cs : List Char) : ℕ :=
  Rule.fractionLength cs + Rule.exponentLength (cs.drop (Rule.fractionLength cs))

theorem exponent_head {e : List Char} (h : e ∈ exponent) (rest : List Char) :
    ∀ c ∈ (e ++ rest).head?, c.isDigit = false ∧ c ≠ '.' := by
  obtain ⟨m, sign, ds, rfl, hm, -⟩ := mem_exponent.mp h
  have hmark : m = 'e' ∨ m = 'E' := by simpa [Decimal.isExponentMark] using hm
  rcases hmark with rfl | rfl <;> simp

theorem length_le_tailLength {f e : List Char}
    (hf : f ∈ optional (oneOf {'.'} * (oneOf digit)∗)) (he : e ∈ optional exponent)
    (rest : List Char) : f.length + e.length ≤ tailLength (f ++ (e ++ rest)) := by
  rw [mem_optional, mem_fraction] at hf
  rw [mem_optional] at he
  unfold tailLength
  rcases hf with rfl | ⟨ds, rfl, hds⟩
  · rcases he with rfl | he
    · exact Nat.zero_le _
    · rw [List.nil_append, fractionLength_of_head fun c hc => (exponent_head he rest c hc).2,
        List.drop_zero, exponentLength_append he]
      simp
  · rw [fractionLength_point hds]
    rcases he with rfl | he
    · simp only [List.length_cons, List.length_nil]
      omega
    · have hdigits : Rule.digitsLength (e ++ rest) = 0 :=
        length_takeWhile_of_head fun c hc => (exponent_head he rest c hc).1
      have hdrop : ('.' :: ds ++ (e ++ rest)).drop (1 + ds.length) = e ++ rest := by
        rw [Nat.add_comm]
        simp
      rw [hdigits, Nat.add_zero, hdrop, exponentLength_append he, List.length_cons]
      omega

theorem take_tailLength (cs : List Char) :
    cs.take (tailLength cs) ∈
      optional (oneOf {'.'} * (oneOf digit)∗) * optional exponent := by
  rw [tailLength, List.take_add]
  exact Language.append_mem_mul (take_fractionLength cs) (take_exponentLength _)

theorem numberLength_eq (cs : List Char) :
    Rule.numberLength cs =
      if Rule.digitsLength cs = 0 then 0
      else Rule.digitsLength cs + tailLength (cs.drop (Rule.digitsLength cs)) := by
  simp only [Rule.numberLength, tailLength, List.drop_drop, Nat.add_assoc]

theorem measures_number : Measures (language .number) Rule.numberLength where
  take_mem {cs} h := by
    rw [numberLength_eq] at h ⊢
    split at h
    next => cases h
    next hd =>
      rw [if_neg hd, List.take_add, language, mul_assoc]
      refine Language.append_mem_mul (mem_repeated_digit.mpr ⟨?_, digits_take cs⟩)
        (take_tailLength _)
      apply List.ne_nil_of_length_pos
      rw [List.length_take, Nat.min_eq_left (Rule.digitsLength_le cs)]
      exact Nat.pos_of_ne_zero hd
  length_le {w rest} h := by
    rw [language, mul_assoc, Language.mem_mul] at h
    obtain ⟨ds, hds, _, ht, rfl⟩ := h
    obtain ⟨f, hf, e, he, rfl⟩ := Language.mem_mul.mp ht
    obtain ⟨hne, hds⟩ := mem_repeated_digit.mp hds
    have hpos : 0 < ds.length := List.length_pos_of_ne_nil hne
    have htail := length_le_tailLength hf he rest
    have hsplit : ds ++ (f ++ e) ++ rest = ds ++ (f ++ (e ++ rest)) := by simp
    rw [numberLength_eq, hsplit, digitsLength_append hds, if_neg (by omega)]
    by_cases hrun : Rule.digitsLength (f ++ (e ++ rest)) = 0
    · rw [hrun, Nat.add_zero, List.drop_left]
      simp only [List.length_append]
      omega
    · have hf' : f = [] := by
        rcases mem_optional.mp hf with rfl | hf
        · rfl
        · obtain ⟨us, rfl, -⟩ := mem_fraction.mp hf
          exact absurd (length_takeWhile_of_head (by simp)) hrun
      have he' : e = [] := by
        rcases mem_optional.mp he with rfl | he
        · rfl
        · subst hf'
          exact absurd (length_takeWhile_of_head fun c hc => (exponent_head he rest c hc).1) hrun
      subst hf' he'
      simp only [List.append_nil]
      omega

theorem measures_pointNumber : Measures (language .pointNumber) Rule.pointNumberLength where
  take_mem {cs} h := by
    have hlen : Rule.pointNumberLength cs =
        if Rule.fractionLength cs ≤ 1 then 0 else tailLength cs := rfl
    rw [hlen] at h ⊢
    split at h
    next => cases h
    next hf =>
      rw [if_neg hf, tailLength, List.take_add, language]
      refine Language.append_mem_mul ?_ (take_exponentLength _)
      have hle := Rule.fractionLength_le cs
      rcases mem_optional.mp (take_fractionLength cs) with hnil | hmem
      · have := congrArg List.length hnil
        rw [List.length_take, Nat.min_eq_left hle] at this
        simp only [List.length_nil] at this
        omega
      · obtain ⟨ds, heq, hds⟩ := mem_fraction.mp hmem
        rw [heq, mem_oneOf_mul]
        refine ⟨'.', rfl, ds, mem_repeated_digit.mpr ⟨?_, hds⟩, rfl⟩
        rintro rfl
        have := congrArg List.length heq
        rw [List.length_take, Nat.min_eq_left hle] at this
        simp only [List.length_cons, List.length_nil] at this
        omega
  length_le {w rest} h := by
    rw [language, Language.mem_mul] at h
    obtain ⟨_, hf, e, he, rfl⟩ := h
    obtain ⟨_, rfl, ds, hds, rfl⟩ := mem_oneOf_mul.mp hf
    obtain ⟨hne, hds⟩ := mem_repeated_digit.mp hds
    have hpos : 0 < ds.length := List.length_pos_of_ne_nil hne
    have hfrac : '.' :: ds ∈ optional (oneOf {'.'} * (oneOf digit)∗) :=
      mem_optional.mpr (Or.inr (mem_fraction.mpr ⟨ds, rfl, hds⟩))
    have htail := length_le_tailLength hfrac he rest
    have hlen := fractionLength_point hds (e ++ rest)
    show _ ≤ if Rule.fractionLength _ ≤ 1 then 0 else tailLength _
    rw [List.append_assoc, hlen, if_neg (by omega), List.length_append]
    exact htail

theorem measures_name : Measures (language .name) Rule.nameLength where
  take_mem {cs} h := by
    cases cs with
    | nil => cases h
    | cons c cs =>
      rw [Rule.nameLength] at h ⊢
      split at h
      next hc =>
        rw [if_pos hc, Nat.add_comm, List.take_succ_cons, take_length_takeWhile, language,
          mem_oneOf_mul]
        refine ⟨c, mem_nameStart.mpr hc, _, mem_kstar_oneOf.mpr ?_, rfl⟩
        intro d hd
        exact mem_namePart.mpr (forall_mem_takeWhile d hd)
      next => cases h
  length_le {w rest} h := by
    rw [language, mem_oneOf_mul] at h
    obtain ⟨c, hc, v, hv, rfl⟩ := h
    have hparts : ∀ d ∈ v, Rule.isNamePart d = true := fun d hd =>
      mem_namePart.mp (mem_kstar_oneOf.mp hv d hd)
    rw [List.cons_append, Rule.nameLength, if_pos (mem_nameStart.mp hc),
      length_takeWhile_append hparts, List.length_cons]
    omega

theorem measures_symbol : Measures (language .symbol) (Rule.length .symbol) where
  take_mem {cs} h := by
    cases cs with
    | nil => cases h
    | cons c cs =>
      rw [Rule.length] at h ⊢
      split at h
      next hc =>
        rw [if_pos hc]
        exact ⟨c, mem_symbols.mpr hc, rfl⟩
      next => cases h
  length_le {w rest} h := by
    obtain ⟨c, hc, rfl⟩ := h
    rw [List.singleton_append, Rule.length, if_pos (mem_symbols.mp hc), List.length_singleton]

theorem exists_of_lineComment_pos {cs : List Char} (h : 0 < Rule.length .lineComment cs) :
    ∃ u, cs = '/' :: '/' :: u := by
  by_contra hn
  unfold Rule.length at h
  split at h <;> first | contradiction | exact hn ⟨_, rfl⟩

theorem measures_lineComment : Measures (language .lineComment) (Rule.length .lineComment) where
  take_mem {cs} h := by
    obtain ⟨u, rfl⟩ := exists_of_lineComment_pos h
    have htake : ('/' :: '/' :: u).take (Rule.length .lineComment ('/' :: '/' :: u)) =
        '/' :: '/' :: u.takeWhile (!Rule.isLineEnd ·) := by
      rw [Rule.length, Nat.add_comm, List.take_succ_cons, List.take_succ_cons,
        take_length_takeWhile]
    simp only [htake, language, mul_assoc, mem_oneOf_mul, Set.mem_singleton_iff, exists_eq_left]
    refine ⟨_, ⟨_, mem_kstar_oneOf.mpr ?_, rfl⟩, rfl⟩
    intro c hc
    exact mem_not_lineEnd.mpr (forall_mem_takeWhile (p := (!Rule.isLineEnd ·)) c hc)
  length_le {w rest} h := by
    simp only [language, mul_assoc, mem_oneOf_mul, Set.mem_singleton_iff, exists_eq_left] at h
    obtain ⟨_, ⟨v, hv, rfl⟩, rfl⟩ := h
    have hin : ∀ c ∈ v, (!Rule.isLineEnd c) = true := fun c hc =>
      mem_not_lineEnd.mp (mem_kstar_oneOf.mp hv c hc)
    rw [List.cons_append, List.cons_append, Rule.length, length_takeWhile_append hin]
    simp only [List.length_cons]
    omega

theorem measures_blank : Measures (language .blank) (Rule.length .blank) where
  take_mem {cs} h := by
    rw [Rule.length] at h ⊢
    rw [take_length_takeWhile, language, mem_repeated_oneOf]
    refine ⟨List.ne_nil_of_length_pos h, fun c hc => mem_blank.mpr (forall_mem_takeWhile c hc)⟩
  length_le {w rest} h := by
    rw [language, mem_repeated_oneOf] at h
    rw [Rule.length, length_takeWhile_append fun c hc => mem_blank.mp (h.2 c hc)]
    exact Nat.le_add_right _ _

end Lexical
end ScalarScript
