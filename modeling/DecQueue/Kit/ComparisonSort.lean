import Mathlib.Order.Lattice
import Mathlib.Data.Int.Order.Basic
import Mathlib.Data.List.Nodup
import Mathlib.Tactic.Common

/-! # Sorting by a comparator

A comparator returns a negative number, zero or a positive number. A sorting
routine owes nothing when the comparator is inconsistent on the list; when it
is consistent, the result is an ordered rearrangement. Comparators are built
from numeric keys, one tie-breaker after another. -/

namespace Kit.ComparisonSort

variable {α : Type*}

/-- On the elements of `l` the comparator describes a total preorder. -/
structure Consistent (cmp : α → α → Int) (l : List α) : Prop where
  flip : ∀ a ∈ l, ∀ b ∈ l, cmp a b < 0 ↔ 0 < cmp b a
  trans : ∀ a ∈ l, ∀ b ∈ l, ∀ c ∈ l, cmp a b ≤ 0 → cmp b c ≤ 0 → cmp a c ≤ 0

structure Sorter (α : Type*) where
  sort : (α → α → Int) → List α → List α
  perm : ∀ {cmp l}, Consistent cmp l → (sort cmp l).Perm l
  ordered : ∀ {cmp l}, Consistent cmp l → (sort cmp l).Pairwise fun a b => cmp a b ≤ 0

/-! ### Building comparators -/

def byKey (key : α → Int) (a b : α) : Int := key a - key b

def thenBy (first second : α → α → Int) (a b : α) : Int :=
  if first a b ≠ 0 then first a b else second a b

section
variable {cmp first second : α → α → Int} {l l' : List α}

theorem Consistent.mono (h : Consistent cmp l) (hsub : l' ⊆ l) : Consistent cmp l' :=
  ⟨fun a ha b hb => h.flip a (hsub ha) b (hsub hb),
    fun a ha b hb c hc => h.trans a (hsub ha) b (hsub hb) c (hsub hc)⟩

theorem consistent_congr (heq : ∀ a ∈ l, ∀ b ∈ l, first a b = second a b)
    (h : Consistent second l) : Consistent first l := by
  refine ⟨fun a ha b hb => ?_, fun a ha b hb c hc => ?_⟩
  · rw [heq a ha b hb, heq b hb a ha]
    exact h.flip a ha b hb
  · rw [heq a ha b hb, heq b hb c hc, heq a ha c hc]
    exact h.trans a ha b hb c hc

/-- The sign of the comparator is the order of some value of the elements. -/
theorem consistent_of_order {β : Type*} [LinearOrder β] (value : α → β)
    (hneg : ∀ a ∈ l, ∀ b ∈ l, cmp a b < 0 ↔ value a < value b)
    (hpos : ∀ a ∈ l, ∀ b ∈ l, 0 < cmp a b ↔ value b < value a) : Consistent cmp l := by
  refine ⟨fun a ha b hb => (hneg a ha b hb).trans (hpos b hb a ha).symm,
    fun a ha b hb c hc hab hbc => ?_⟩
  have hle : ∀ x ∈ l, ∀ y ∈ l, cmp x y ≤ 0 ↔ value x ≤ value y := by
    intro x hx y hy
    rw [← Int.not_lt, hpos x hx y hy, not_lt]
  rw [hle a ha c hc]
  exact le_trans ((hle a ha b hb).mp hab) ((hle b hb c hc).mp hbc)

theorem consistent_byKey (key : α → Int) (l : List α) : Consistent (byKey key) l := by
  refine consistent_of_order key (fun a _ b _ => ?_) fun a _ b _ => ?_
  · unfold byKey
    omega
  · unfold byKey
    omega

theorem Consistent.thenBy (h : Consistent first l) (h' : Consistent second l) :
    Consistent (thenBy first second) l := by
  refine ⟨fun a ha b hb => ?_, fun a ha b hb c hc => ?_⟩
  · have hab := h.flip a ha b hb
    have hba := h.flip b hb a ha
    have hsecond := h'.flip a ha b hb
    unfold ComparisonSort.thenBy
    split <;> split <;> omega
  · -- one strict step by the first comparator decides; two ties leave it to the second
    have hfirst := h.trans a ha b hb c hc
    have hsecond := h'.trans a ha b hb c hc
    have hback := h.trans c hc a ha b hb
    have hback' := h.trans b hb c hc a ha
    have hab := h.flip a ha b hb
    have hba := h.flip b hb a ha
    have hbc := h.flip b hb c hc
    have hcb := h.flip c hc b hb
    have hac := h.flip a ha c hc
    have hca := h.flip c hc a ha
    unfold ComparisonSort.thenBy
    split <;> split <;> split <;> omega

theorem thenBy_neg_iff (a b : α) :
    thenBy first second a b < 0 ↔ first a b < 0 ∨ (first a b = 0 ∧ second a b < 0) := by
  unfold thenBy
  split <;> omega

theorem thenBy_eq_zero_iff (a b : α) :
    thenBy first second a b = 0 ↔ first a b = 0 ∧ second a b = 0 := by
  unfold thenBy
  split <;> omega

/-! ### Results of sorting -/

/-- When no two elements tie, the order of the input does not matter. -/
theorem Sorter.sort_congr (S : Sorter α) (h : Consistent cmp l)
    (hstrict : ∀ a ∈ l, ∀ b ∈ l, cmp a b = 0 → a = b) (hp : l.Perm l') :
    S.sort cmp l = S.sort cmp l' := by
  have h' : Consistent cmp l' := h.mono fun a ha => hp.mem_iff.mpr ha
  have hl := S.ordered h
  have hl' := S.ordered h'
  refine List.Perm.eq_of_pairwise ?_ hl hl' ((S.perm h).trans (hp.trans (S.perm h').symm))
  intro a b ha hb hab hba
  have hal : a ∈ l := (S.perm h).mem_iff.mp ha
  have hbl : b ∈ l := hp.mem_iff.mpr ((S.perm h').mem_iff.mp hb)
  have hflip := h.flip a hal b hbl
  exact hstrict a hal b hbl (by omega)

end

/-! ### A sorting routine -/

/-- Merge sort over the elements of the list, where the comparator is total. -/
def mergeSorter (α : Type*) : Sorter α where
  sort cmp l := (l.attach.mergeSort fun a b => decide (cmp a.1 b.1 ≤ 0)).map Subtype.val
  perm {cmp l} _ := by
    have hp := (List.mergeSort_perm l.attach fun a b => decide (cmp a.1 b.1 ≤ 0)).map Subtype.val
    rwa [List.attach_map_subtype_val] at hp
  ordered {cmp l} h := by
    refine List.pairwise_map.mpr ?_
    have hsorted := @List.pairwise_mergeSort { x // x ∈ l } (fun a b => decide (cmp a.1 b.1 ≤ 0))
      (fun a b c => ?_) (fun a b => ?_) l.attach
    · exact hsorted.imp fun hab => of_decide_eq_true hab
    · simp only [decide_eq_true_eq]
      exact h.trans a.1 a.2 b.1 b.2 c.1 c.2
    · simp only [Bool.or_eq_true, decide_eq_true_eq]
      have hflip := h.flip b.1 b.2 a.1 a.2
      omega

end Kit.ComparisonSort
