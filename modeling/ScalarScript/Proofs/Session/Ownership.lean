import Mathlib.Data.List.Basic
import ScalarScript.Shared

/-!
# Owners of links

The owners of a link are the environments whose newest link it is and the links that are directly on
it. Every operation keeps the count of each link right, and a count that is right is what makes it
safe to free a link: nobody is left who could follow a chain to it. So a chain does not change as
long as something owns its newest link, whatever else is bound, cloned or dropped.
-/

namespace ScalarScript
namespace Store

variable {store store' : Store} {a b : Nat} {l : Link}

theorem link?_take (store : Store) (k a : Nat) :
    link? (store.take k) a = if a < k then store.link? a else none := by
  unfold link?
  rw [List.getElem?_take]
  split <;> rfl

theorem link?_set (h : a < store.length) (x : Option Link) (b : Nat) :
    link? (store.set a x) b = if a = b then x else store.link? b := by
  unfold link?
  rw [List.getElem?_set, if_pos h]
  split <;> rfl

theorem link?_append (store : Store) (l : Link) (a : Nat) :
    link? (store ++ [some l]) a = if a = store.length then some l else store.link? a := by
  unfold link?
  split
  next ha =>
    subst ha
    rw [List.getElem?_append_right (Nat.le_refl _), Nat.sub_self]
    rfl
  next ha =>
    rcases Nat.lt_or_ge a store.length with hlt | hge
    · rw [List.getElem?_append_left hlt]
    · rw [List.getElem?_eq_none (by simp; omega), List.getElem?_eq_none hge]

/-- What a chain shows of a link. -/
def content (l : Link) : String × Value × Option Nat := (l.name, l.value, l.parent)

theorem chain_none (store : Store) : store.chain none = [] := by rw [chain]

theorem chain_free (h : store.link? a = none) : store.chain (some a) = [] := by
  rw [chain]
  split
  · rfl
  next l hl => rw [h] at hl; cases hl

theorem chain_some (h : store.link? a = some l) :
    store.chain (some a) = (l.name, l.value) :: chain (store.take a) l.parent := by
  rw [chain]
  split
  next hl => rw [h] at hl; cases hl
  next l' hl =>
    rw [h] at hl
    cases hl
    rfl

/-- Two stores show the same chain if they show the same links, all the way down. -/
theorem chain_congr {P : Nat → Prop} {store store' : Store} {head : Option Nat}
    (hsame : ∀ a, P a → (store.link? a).map content = (store'.link? a).map content)
    (hdown : ∀ a l, P a → store.link? a = some l → ∀ b ∈ l.parent, P b)
    (hhead : ∀ a ∈ head, P a) : store.chain head = store'.chain head := by
  match head with
  | none => rw [chain_none, chain_none]
  | some a =>
    have ha := hhead a rfl
    have hlink := hsame a ha
    cases hl : store.link? a with
    | none =>
      rw [hl] at hlink
      rw [chain_free hl, chain_free (Option.map_eq_none_iff.mp hlink.symm)]
    | some l =>
      rw [hl] at hlink
      obtain ⟨l', hl', hcontent⟩ := Option.map_eq_some_iff.mp hlink.symm
      obtain ⟨hname, hrest⟩ := Prod.mk.inj hcontent
      obtain ⟨hvalue, hparent⟩ := Prod.mk.inj hrest
      have hlt := lt_of_link? hl
      have hchain : chain (store.take a) l.parent = chain (store'.take a) l.parent := by
        apply @chain_congr P
        · intro b hb
          rw [link?_take, link?_take]
          split
          · exact hsame b hb
          · rfl
        · intro b k hb hk
          rw [link?_take] at hk
          split at hk
          · exact hdown b k hb hk
          · cases hk
        · exact hdown a l ha hl
      rw [chain_some hl, chain_some hl', hname, hvalue, hparent, hchain]
termination_by store.length
decreasing_by
  rw [List.length_take]
  omega

def owners (store : Store) (a : Nat) : Nat := ((store.link? a).map Link.owners).getD 0

def isOn (a : Nat) (l : Link) : Bool := l.parent = some a

/-- The number of links that are directly on a link. -/
def children (store : Store) (a : Nat) : Nat := store.countP (·.any (isOn a))

/-- Every link is on an older one, and its owners are the links on it and those of the roots that
are it. So a link that has been freed has none. -/
structure Owned (store : Store) (roots : List (Option Nat)) : Prop where
  older : ∀ a l, store.link? a = some l → ∀ b ∈ l.parent, b < a
  counted : ∀ a, store.owners a = roots.count (some a) + store.children a

variable {roots : List (Option Nat)} {root : Option Nat}

theorem owners_eq (h : store.link? a = some l) : store.owners a = l.owners := by
  rw [owners, h]
  rfl

theorem owned_nil : Owned [] [] where
  older a l h := by cases h
  counted a := rfl

theorem Owned.perm (h : store.Owned roots) {roots' : List (Option Nat)} (hp : roots.Perm roots') :
    store.Owned roots' where
  older := h.older
  counted a := by rw [h.counted, hp.count_eq]

theorem owned_cons_none : store.Owned (none :: roots) ↔ store.Owned roots := by
  have hcount : ∀ a : Nat, (none :: roots).count (some a) = roots.count (some a) := fun a =>
    List.count_cons_of_ne (by simp)
  constructor
  · exact fun h => ⟨h.older, fun a => by rw [h.counted, hcount]⟩
  · exact fun h => ⟨h.older, fun a => by rw [h.counted, hcount]⟩

/-- What is owned has not been freed. -/
theorem Owned.link_of_mem (h : store.Owned roots) (ha : some a ∈ roots) :
    ∃ l, store.link? a = some l := by
  have hpos := List.count_pos_iff.mpr ha
  have hcount := h.counted a
  cases hl : store.link? a with
  | some l => exact ⟨l, rfl⟩
  | none =>
    rw [owners, hl] at hcount
    simp only [Option.map_none, Option.getD_none] at hcount
    omega

theorem chain_eq_cons (h : store.Owned roots) (hl : store.link? a = some l) :
    store.chain (some a) = (l.name, l.value) :: store.chain l.parent := by
  rw [chain_some hl]
  congr 1
  apply @chain_congr (· < a)
  · intro b hb
    rw [link?_take, if_pos hb]
  · intro b k hb hk c hc
    rw [link?_take, if_pos hb] at hk
    exact Nat.lt_trans (h.older b k hk c hc) hb
  · exact h.older a l hl

/-- A link less on its parent, and whatever comes in its place. -/
theorem children_set (h : store.link? a = some l) (x : Option Link) (b : Nat) :
    children (store.set a x) b + (if isOn b l then 1 else 0) =
      store.children b + (if x.any (isOn b) then 1 else 0) := by
  have hlt := lt_of_link? h
  have hget : store[a] = some l := (List.getElem?_eq_some_iff.mp (getElem?_of_link? h)).2
  have hle : (if isOn b l then 1 else 0) ≤ store.children b := by
    split
    next hon =>
      exact List.countP_pos_iff.mpr ⟨some l, hget ▸ List.getElem_mem hlt, hon⟩
    next => exact Nat.zero_le _
  unfold children at hle ⊢
  rw [List.countP_set hlt, hget, Option.any_some]
  omega

theorem chain_setOwners (h : store.link? a = some l) (n : Nat) (head : Option Nat) :
    chain (store.setOwners a l n) head = store.chain head := by
  apply @chain_congr fun _ => True
  · intro b _
    rw [setOwners, link?_set (lt_of_link? h)]
    split
    next hab =>
      subst hab
      rw [h]
      rfl
    next => rfl
  · intros
    trivial
  · intros
    trivial

theorem older_setOwners (h : store.Owned roots) (hl : store.link? a = some l) (n : Nat) :
    ∀ b k, link? (store.setOwners a l n) b = some k → ∀ c ∈ k.parent, c < b := by
  intro b k hk
  rw [setOwners, link?_set (lt_of_link? hl)] at hk
  split at hk
  next hab =>
    subst hab
    cases hk
    exact h.older a l hl
  next => exact h.older b k hk

theorem children_setOwners (hl : store.link? a = some l) (n b : Nat) :
    children (store.setOwners a l n) b = store.children b := by
  have hset := children_set hl (some { l with owners := n }) b
  rw [setOwners]
  exact Nat.add_right_cancel hset

theorem owners_setOwners (hl : store.link? a = some l) (n b : Nat) :
    owners (store.setOwners a l n) b = if a = b then n else store.owners b := by
  rw [owners, setOwners, link?_set (lt_of_link? hl)]
  split <;> rfl

theorem retain_eq (hl : store.link? a = some l) :
    store.retain (some a) = store.setOwners a l (l.owners + 1) := by
  rw [retain, hl]

theorem chain_retain (store : Store) (root head : Option Nat) :
    chain (store.retain root) head = store.chain head := by
  cases root with
  | none => rfl
  | some a =>
    cases hl : store.link? a with
    | none => rw [retain, hl]
    | some l => rw [retain_eq hl, chain_setOwners hl]

theorem Owned.retain (h : store.Owned roots) (hroot : root ∈ roots) :
    (store.retain root).Owned (root :: roots) := by
  cases root with
  | none => exact owned_cons_none.mpr h
  | some a =>
    obtain ⟨l, hl⟩ := h.link_of_mem hroot
    rw [retain_eq hl]
    refine ⟨older_setOwners h hl _, ?_⟩
    intro b
    have hb := h.counted b
    rw [owners_setOwners hl, children_setOwners hl]
    by_cases hab : a = b
    · subst hab
      rw [owners_eq hl] at hb
      rw [if_pos rfl, List.count_cons_self, hb]
      omega
    · rw [if_neg hab, hb, List.count_cons_of_ne (by simpa using hab)]

theorem children_append (store : Store) (l : Link) (a : Nat) :
    children (store ++ [some l]) a = store.children a + (if isOn a l then 1 else 0) := by
  unfold children
  rw [List.countP_append, List.countP_singleton, Option.any_some]

theorem count_cons_some (root : Option Nat) (roots : List (Option Nat)) (a : Nat) :
    (root :: roots).count (some a) = roots.count (some a) + (if root = some a then 1 else 0) := by
  rw [List.count_cons]
  simp only [beq_iff_eq]

theorem Owned.lt_length (h : store.Owned roots) (ha : some a ∈ roots) : a < store.length := by
  obtain ⟨l, hl⟩ := h.link_of_mem ha
  exact lt_of_link? hl

/-- A new link takes over the owner that its parent had as a root. -/
theorem Owned.alloc (h : store.Owned (root :: roots)) (x : String) (v : Value) :
    Owned (store ++ [some ⟨x, v, root, 1⟩]) (some store.length :: roots) := by
  refine ⟨?_, ?_⟩
  · intro b k hk
    rw [link?_append] at hk
    split at hk
    next hb =>
      cases hk
      rintro c rfl
      exact hb ▸ h.lt_length List.mem_cons_self
    next => exact h.older b k hk
  · intro b
    have hb := h.counted b
    have hon : isOn b ⟨x, v, root, 1⟩ = decide (root = some b) := rfl
    rw [owners, link?_append, children_append, count_cons_some, hon]
    rw [count_cons_some] at hb
    simp only [decide_eq_true_eq, Option.some.injEq, eq_comm (a := store.length)]
    by_cases hlen : b = store.length
    · have hzero : store.owners b = 0 := by
        rw [owners, link?, List.getElem?_eq_none (by omega)]
        rfl
      simp only [if_pos hlen, Option.map_some, Option.getD_some]
      omega
    · simp only [if_neg hlen]
      rw [← owners]
      omega

theorem chain_append (h : store.Owned roots) (hroot : root ∈ roots) (l : Link) :
    chain (store ++ [some l]) root = store.chain root := by
  symm
  apply @chain_congr (· < store.length)
  · intro b hb
    rw [link?_append, if_neg (Nat.ne_of_lt hb)]
  · intro b k hb hk c hc
    exact Nat.lt_trans (h.older b k hk c hc) hb
  · rintro b rfl
    exact h.lt_length hroot

theorem release_free (hl : store.link? a = some l) (hone : l.owners = 1) :
    store.release (some a) = release (store.set a none) l.parent := by
  rw [release]
  split
  next hnone => rw [hl] at hnone; cases hnone
  next l' hl' =>
    rw [hl] at hl'
    cases hl'
    rw [if_pos hone]

theorem release_shared (hl : store.link? a = some l) (hne : l.owners ≠ 1) :
    store.release (some a) = store.setOwners a l (l.owners - 1) := by
  rw [release]
  split
  next hnone => rw [hl] at hnone; cases hnone
  next l' hl' =>
    rw [hl] at hl'
    cases hl'
    rw [if_neg hne]

/-- A link with no other owner is on no chain of the other roots. -/
theorem Owned.free (h : store.Owned (some a :: roots)) (hl : store.link? a = some l)
    (hone : l.owners = 1) :
    Owned (store.set a none) (l.parent :: roots) ∧
      ∀ head ∈ roots, chain (store.set a none) head = store.chain head := by
  have hlt := lt_of_link? hl
  have ha := h.counted a
  rw [owners_eq hl, hone, count_cons_some, if_pos rfl] at ha
  refine ⟨⟨?_, ?_⟩, ?_⟩
  · intro b k hk
    rw [link?_set hlt] at hk
    split at hk
    · cases hk
    · exact h.older b k hk
  · intro b
    have hb := h.counted b
    have hset := children_set hl none b
    have hon : isOn b l = decide (l.parent = some b) := rfl
    rw [owners, link?_set hlt, count_cons_some]
    rw [count_cons_some] at hb
    simp only [hon, decide_eq_true_eq, Option.any_none, Bool.false_eq_true, if_false,
      Nat.add_zero] at hset
    by_cases hab : a = b
    · subst hab
      have hself : l.parent ≠ some a := fun heq => Nat.lt_irrefl a (h.older a l hl a heq)
      rw [if_neg hself] at hset ⊢
      rw [if_pos rfl]
      simp only [Option.map_none, Option.getD_none]
      omega
    · have hne : ¬ some a = some b := fun heq => hab (Option.some.inj heq)
      rw [if_neg hab, ← owners]
      rw [if_neg hne] at hb
      omega
  · intro head hhead
    symm
    apply @chain_congr (· ≠ a)
    · intro b hb
      rw [link?_set hlt, if_neg (Ne.symm hb)]
    · intro b k _ hk c hc hca
      have hon : isOn a k = true := decide_eq_true (hca ▸ hc)
      have hpos : 0 < store.children a :=
        List.countP_pos_iff.mpr ⟨some k, List.mem_of_getElem? (getElem?_of_link? hk), hon⟩
      omega
    · rintro b hb rfl
      obtain rfl : head = some b := hb
      have hpos := List.count_pos_iff.mpr hhead
      omega

/-- The end of a root changes no chain of the others. -/
theorem Owned.release {store : Store} {root : Option Nat} (h : store.Owned (root :: roots)) :
    (store.release root).Owned roots ∧
      ∀ head ∈ roots, chain (store.release root) head = store.chain head := by
  match root with
  | none =>
    have hnone : store.release none = store := by rw [Store.release]
    rw [hnone]
    exact ⟨owned_cons_none.mp h, fun _ _ => rfl⟩
  | some a =>
    obtain ⟨l, hl⟩ := h.link_of_mem List.mem_cons_self
    by_cases hone : l.owners = 1
    · have hless := used_free_lt hl
      obtain ⟨howned, hchain⟩ := h.free hl hone
      obtain ⟨howned', hchain'⟩ := howned.release
      rw [release_free hl hone]
      exact ⟨howned', fun head hhead => (hchain' head hhead).trans (hchain head hhead)⟩
    · rw [release_shared hl hone]
      refine ⟨⟨older_setOwners h hl _, ?_⟩, fun head _ => chain_setOwners hl _ head⟩
      intro b
      have hb := h.counted b
      rw [owners_setOwners hl, children_setOwners hl]
      rw [count_cons_some] at hb
      by_cases hab : a = b
      · subst hab
        rw [owners_eq hl, if_pos rfl] at hb
        rw [if_pos rfl]
        omega
      · have hne : ¬ some a = some b := fun heq => hab (Option.some.inj heq)
        rw [if_neg hne] at hb
        rw [if_neg hab]
        exact hb
termination_by store.used

end Store
end ScalarScript
