import DecQueue.Kit.Transition
import Mathlib.Data.List.Nodup

/-! # Labels that touch different keys

Labels are offered to a partial step function one after another; those it
rejects are skipped. If each label reads and writes at a key of its own, which
labels are accepted and what is left at every key do not depend on the order. -/

namespace Kit.Independence
open Kit.Transition

variable {σ ι κ β : Type*} {step : σ → ι → Option σ}

def attempt (step : σ → ι → Option σ) : σ → List ι → σ × List ι
  | s, [] => (s, [])
  | s, i :: is =>
      match step s i with
      | some t => ((attempt step t is).1, i :: (attempt step t is).2)
      | none => attempt step s is

theorem attempt_run (step : σ → ι → Option σ) (s : σ) (is : List ι) :
    run step s (attempt step s is).2 = some (attempt step s is).1 := by
  induction is generalizing s with
  | nil => rfl
  | cons i is ih =>
    unfold attempt
    split
    next t ht => exact run_cons.mpr ⟨t, ht, ih t⟩
    next => exact ih s

theorem attempt_eq_filter {G : σ → List ι → Prop} (hskip : ∀ s i is, G s (i :: is) → G s is)
    (hstep : ∀ s i is t, G s (i :: is) → step s i = some t →
      G t is ∧ ∀ j ∈ is, (step t j).isSome = (step s j).isSome)
    {s : σ} {is : List ι} (h : G s is) :
    (attempt step s is).2 = is.filter fun i => (step s i).isSome := by
  induction is generalizing s with
  | nil => rfl
  | cons i is ih =>
    unfold attempt
    split
    next t ht =>
      obtain ⟨hG, hsame⟩ := hstep s i is t h ht
      rw [List.filter_cons_of_pos (by simp [ht]), ih hG, List.filter_congr hsame]
    next hnone => rw [List.filter_cons_of_neg (by simp [hnone]), ih (hskip s i is h)]

/-- An accepted label acts on what is stored at its key and on nothing else. -/
structure ActsAt (step : σ → ι → Option σ) (G : σ → List ι → Prop) (key : ι → κ) (get : σ → κ → β)
    (act : ι → β → β) : Prop where
  next : ∀ s i is t, G s (i :: is) → step s i = some t → G t is
  here : ∀ s i is t, G s (i :: is) → step s i = some t → get t (key i) = act i (get s (key i))
  frame : ∀ s i is t, G s (i :: is) → step s i = some t → ∀ k, k ≠ key i → get t k = get s k

section
variable {G : σ → List ι → Prop} {key : ι → κ} {get : σ → κ → β} {act : ι → β → β} {s t t' : σ}
  {is is' : List ι}

theorem ActsAt.run_other (h : ActsAt step G key get act) (hG : G s is)
    (hr : run step s is = some t) {k : κ} (hk : ∀ i ∈ is, k ≠ key i) : get t k = get s k := by
  induction is generalizing s with
  | nil =>
    cases hr
    rfl
  | cons i is ih =>
    obtain ⟨u, hu, ht⟩ := run_cons.mp hr
    have hrest := ih (h.next s i is u hG hu) ht fun j hj => hk j (List.mem_cons_of_mem i hj)
    rw [hrest]
    exact h.frame s i is u hG hu k (hk i (List.mem_cons_self ..))

theorem ActsAt.run_key (h : ActsAt step G key get act) (hG : G s is)
    (hn : (is.map key).Nodup) (hr : run step s is = some t) {i : ι} (hi : i ∈ is) :
    get t (key i) = act i (get s (key i)) := by
  induction is generalizing s with
  | nil => cases hi
  | cons j is ih =>
    obtain ⟨u, hu, ht⟩ := run_cons.mp hr
    rw [List.map_cons, List.nodup_cons] at hn
    have hG' := h.next s j is u hG hu
    rcases List.mem_cons.mp hi with rfl | hi
    · have hother : ∀ j ∈ is, key i ≠ key j := by
        intro j hj he
        rw [he] at hn
        exact hn.1 (List.mem_map_of_mem hj)
      rw [h.run_other hG' ht hother]
      exact h.here s i is u hG hu
    · have hne : key i ≠ key j := by
        intro he
        rw [← he] at hn
        exact hn.1 (List.mem_map_of_mem hi)
      rw [ih hG' hn.2 ht hi, h.frame s j is u hG hu _ hne]

/-- Both orders leave the same at every key. -/
theorem ActsAt.run_perm (h : ActsAt step G key get act) (hG : G s is) (hG' : G s is')
    (hn : (is.map key).Nodup) (hp : is.Perm is') (hr : run step s is = some t)
    (hr' : run step s is' = some t') (k : κ) : get t k = get t' k := by
  have hn' : (is'.map key).Nodup := (hp.map key).nodup_iff.mp hn
  by_cases hk : ∃ i ∈ is, key i = k
  · obtain ⟨i, hi, rfl⟩ := hk
    rw [h.run_key hG hn hr hi, h.run_key hG' hn' hr' (hp.mem_iff.mp hi)]
  · have hother : ∀ i ∈ is, k ≠ key i := fun i hi he => hk ⟨i, hi, he.symm⟩
    rw [h.run_other hG hr hother, h.run_other hG' hr' fun i hi => hother i (hp.mem_iff.mpr hi)]

end

end Kit.Independence
