import Mathlib.Algebra.GroupWithZero.Nat
import Mathlib.Data.List.Perm.Basic
import Mathlib.Data.List.Count
import Mathlib.Data.List.Forall2
import Mathlib.Tactic.Common

/-! # Constant-time removal and point updates of lists

`swapRemove` is removal from an unordered vector: the last element takes the
place of the removed one. The order changes, the multiset does not, so every
lemma here is stated up to permutation, as a count or as a sum. -/

namespace Kit.Lists

open scoped List

variable {α : Type*}

/-- Remove position `i`, moving the last element into the hole. -/
def swapRemove (l : List α) (i : Nat) : List α :=
  match l.getLast? with
  | none => l
  | some x => (l.set i x).dropLast

theorem swapRemove_concat (l : List α) (x : α) (i : Nat) :
    swapRemove (l ++ [x]) i = if i < l.length then l.set i x else l := by
  simp only [swapRemove, List.getLast?_concat]
  split
  next h => rw [List.set_append_left _ _ h, List.dropLast_concat]
  next h =>
    rw [List.set_append_right _ _ (by omega)]
    cases hi : i - l.length with
    | zero => simp
    | succ n => simp

theorem swapRemove_perm {l : List α} {i : Nat} {a : α} (h : l[i]? = some a) :
    l.Perm (a :: swapRemove l i) := by
  rcases List.eq_nil_or_concat' l with rfl | ⟨init, x, rfl⟩
  · simp at h
  · rw [swapRemove_concat]
    split
    next hi =>
      have ha : init[i] = a := by
        rw [List.getElem?_append_left hi, List.getElem?_eq_getElem hi] at h
        exact Option.some.inj h
      have hset : (init.set i x).Perm (x :: init.eraseIdx i) := List.set_perm_cons_eraseIdx hi x
      have hget : (a :: init.eraseIdx i).Perm init := ha ▸ List.getElem_cons_eraseIdx_perm hi
      calc init ++ [x]
          ~ x :: init := List.perm_append_singleton x init
        _ ~ x :: a :: init.eraseIdx i := (hget.symm).cons x
        _ ~ a :: x :: init.eraseIdx i := List.Perm.swap a x _
        _ ~ a :: init.set i x := (hset.symm).cons a
    next hi =>
      have hlt := (List.getElem?_eq_some_iff.mp h).1
      simp only [List.length_append, List.length_singleton] at hlt
      have hl : i = init.length := by omega
      subst hl
      have ha : x = a := by simpa using h
      subst ha
      exact List.perm_append_singleton x init

theorem findIdx_perm [BEq α] [LawfulBEq α] {l : List α} {a : α} {i : Nat}
    (h : l.findIdx? (fun b => b == a) = some i) : l.Perm (a :: swapRemove l i) := by
  obtain ⟨hi, ha, _⟩ := List.findIdx?_eq_some_iff_getElem.mp h
  apply swapRemove_perm
  rw [List.getElem?_eq_getElem hi, eq_of_beq ha]

theorem findIdx_isSome [BEq α] [LawfulBEq α] {l : List α} {a : α} :
    (∃ i, l.findIdx? (fun b => b == a) = some i) ↔ a ∈ l := by
  rw [← Option.isSome_iff_exists, List.findIdx?_isSome, List.any_eq_true]
  simp

/- Point updates: what a sum or a count over the list gains is what the new
element contributes beyond the old one. -/

theorem sum_map_set (f : α → Nat) {l : List α} {i : Nat} {a : α} (b : α) (h : l[i]? = some a) :
    ((l.set i b).map f).sum + f a = (l.map f).sum + f b := by
  induction l generalizing i with
  | nil => simp at h
  | cons x xs ih =>
    cases i with
    | zero =>
      have hx : x = a := by simpa using h
      subst hx
      simp only [List.set_cons_zero, List.map_cons, List.sum_cons]
      omega
    | succ i =>
      have hxs : xs[i]? = some a := by simpa using h
      have hh := ih hxs
      simp only [List.set_cons_succ, List.map_cons, List.sum_cons]
      omega

theorem countP_set (p : α → Bool) {l : List α} {i : Nat} {a : α} (b : α) (h : l[i]? = some a) :
    (l.set i b).countP p + (if p a then 1 else 0) = l.countP p + if p b then 1 else 0 := by
  induction l generalizing i with
  | nil => simp at h
  | cons x xs ih =>
    cases i with
    | zero =>
      have hx : x = a := by simpa using h
      subst hx
      simp only [List.set_cons_zero, List.countP_cons]
      omega
    | succ i =>
      have hxs : xs[i]? = some a := by simpa using h
      have hh := ih hxs
      simp only [List.set_cons_succ, List.countP_cons]
      omega

theorem getElem?_set_of_some {l : List α} {i : Nat} {a : α} (b : α) (h : l[i]? = some a) (j : Nat) :
    (l.set i b)[j]? = if j = i then some b else l[j]? := by
  have hi := (List.getElem?_eq_some_iff.mp h).1
  rw [List.getElem?_set]
  by_cases hj : i = j
  · subst hj
    simp [hi]
  · simp [hj, Ne.symm hj]

theorem getElem?_concat {l : List α} {n : Nat} (h : l.length = n) (a : α) (j : Nat) :
    (l ++ [a])[j]? = if j = n then some a else l[j]? := by
  subst h
  by_cases hj : j = l.length
  · subst hj
    simp
  · rw [if_neg hj]
    rcases Nat.lt_or_gt_of_ne hj with hlt | hgt
    · exact List.getElem?_append_left hlt
    · have hlong : (l ++ [a]).length ≤ j := by
        simp only [List.length_append, List.length_singleton]
        omega
      rw [List.getElem?_eq_none hlong, List.getElem?_eq_none (by omega)]

/- What holds of every position keeps holding when one is overwritten or one
is added. -/

theorem forall_set {P : Nat → α → Prop} {l : List α} {i : Nat} {a b : α}
    (h : ∀ (t : Nat) c, l[t]? = some c → P t c) (hi : l[i]? = some a) (hb : P i b) :
    ∀ (t : Nat) c, (l.set i b)[t]? = some c → P t c := by
  intro t c hc
  rw [getElem?_set_of_some b hi] at hc
  split at hc
  next ht =>
    cases hc
    exact ht ▸ hb
  next => exact h t c hc

theorem forall_concat {P : Nat → α → Prop} {l : List α} {n : Nat} {b : α}
    (h : ∀ (t : Nat) c, l[t]? = some c → P t c) (hn : l.length = n) (hb : P n b) :
    ∀ (t : Nat) c, (l ++ [b])[t]? = some c → P t c := by
  intro t c hc
  rw [getElem?_concat hn] at hc
  split at hc
  next ht =>
    cases hc
    exact ht ▸ hb
  next => exact h t c hc

/- What relates the old element to the new one relates all old positions to
the new ones, when the relation is reflexive. -/

theorem exists_set {R : α → α → Prop} (hrefl : ∀ a, R a a) {l : List α} {i : Nat} {a b : α}
    (hi : l[i]? = some a) (hab : R a b) :
    ∀ (t : Nat) c, l[t]? = some c → ∃ d, (l.set i b)[t]? = some d ∧ R c d := by
  intro t c hc
  rw [getElem?_set_of_some b hi]
  split
  next ht =>
    have ha : c = a := Option.some.inj (hc.symm.trans (ht ▸ hi))
    exact ⟨b, rfl, ha ▸ hab⟩
  next => exact ⟨c, hc, hrefl c⟩

theorem exists_concat {R : α → α → Prop} {l m : List α} {b : α}
    (h : ∀ (t : Nat) c, l[t]? = some c → ∃ d, m[t]? = some d ∧ R c d) :
    ∀ (t : Nat) c, l[t]? = some c → ∃ d, (m ++ [b])[t]? = some d ∧ R c d := by
  intro t c hc
  obtain ⟨d, hd, hr⟩ := h t c hc
  exact ⟨d, (List.getElem?_append_left (List.getElem?_eq_some_iff.mp hd).1).trans hd, hr⟩

theorem sum_map_le (f : α → Nat) (l : List α) (n : Nat) (h : ∀ a ∈ l, f a ≤ n) :
    (l.map f).sum ≤ n * l.length := by
  induction l with
  | nil => simp
  | cons x xs ih =>
    have hx := h x (List.mem_cons_self ..)
    have hxs := ih fun a ha => h a (List.mem_cons_of_mem _ ha)
    simp only [List.map_cons, List.sum_cons, List.length_cons, Nat.mul_add]
    omega

/-- Bins of size `n` that hold less than their total size have room in one. -/
theorem exists_lt_iff_sum_lt (f : α → Nat) (l : List α) (n : Nat) (h : ∀ a ∈ l, f a ≤ n) :
    (∃ a ∈ l, f a < n) ↔ (l.map f).sum < n * l.length := by
  induction l with
  | nil => simp
  | cons x xs ih =>
    have hx := h x (List.mem_cons_self ..)
    have hall := fun a ha => h a (List.mem_cons_of_mem x ha)
    have hxs := sum_map_le f xs n hall
    simp only [List.exists_mem_cons_iff, ih hall, List.map_cons, List.sum_cons, List.length_cons,
      Nat.mul_add]
    omega

/-- Related lists: what implies the other property on each pair is had by no
more elements of the one than of the other. -/
theorem countP_le_of_forall₂ {β : Type*} {R : α → β → Prop} {p : α → Bool} {q : β → Bool}
    (himp : ∀ a b, R a b → p a = true → q b = true) {l : List α} {m : List β}
    (h : List.Forall₂ R l m) : l.countP p ≤ m.countP q := by
  induction h with
  | nil => exact Nat.le_refl 0
  | @cons a b l m hab hrest ih =>
    have hone := himp a b hab
    rw [List.countP_cons, List.countP_cons]
    by_cases hp : p a = true
    · rw [if_pos hp, if_pos (hone hp)]
      omega
    · rw [if_neg hp]
      omega

theorem exists_of_forall₂_mem {β : Type*} {R : α → β → Prop} {l : List α} {m : List β}
    (h : List.Forall₂ R l m) {b : β} (hb : b ∈ m) : ∃ a ∈ l, R a b := by
  induction h with
  | nil => cases hb
  | @cons a b' l m hab hrest ih =>
    rcases List.mem_cons.mp hb with rfl | hb
    · exact ⟨a, List.mem_cons_self .., hab⟩
    · obtain ⟨a', ha', hR⟩ := ih hb
      exact ⟨a', List.mem_cons_of_mem a ha', hR⟩

end Kit.Lists
