import DecQueue.Kit.Transition
import Mathlib.Algebra.GroupWithZero.Nat

/-! # Trace equivalence of two systems

Each step of the lower system stands for a list of labels of the upper one,
the empty list being a stutter; each label of the upper system is realized by
a run of the lower one that stands for it. Both extend to whole runs, so the
two systems have the same traces from related states. -/

namespace Kit.Traces
open Kit.Transition

variable {σ τ ι κ : Type*}

/-- `cost k` bounds the length of the run that realizes `k`, and every label of
that run is `Fit` for it. -/
structure Implements (step : σ → ι → Option σ) (astep : τ → κ → Option τ) (emit : σ → ι → List κ)
    (cost : κ → Nat) (Fit : κ → ι → Prop) (R : σ → τ → Prop) : Prop where
  forward : ∀ s i t a, R s a → step s i = some t → ∃ b, run astep a (emit s i) = some b ∧ R t b
  backward : ∀ s a k b, R s a → astep a k = some b → ∃ is t, run step s is = some t ∧ R t b ∧
    outputs step emit s is = [k] ∧ is.length ≤ cost k ∧ ∀ i ∈ is, Fit k i

variable {step : σ → ι → Option σ} {astep : τ → κ → Option τ} {emit : σ → ι → List κ}
  {cost : κ → Nat} {Fit : κ → ι → Prop} {R : σ → τ → Prop} {s t : σ} {a : τ}

theorem outputs_append {is : List ι} (js : List ι) (hr : run step s is = some t) :
    outputs step emit s (is ++ js) = outputs step emit s is ++ outputs step emit t js := by
  induction is generalizing s with
  | nil =>
    have he : s = t := Option.some.inj hr
    simp only [he, List.nil_append, outputs]
  | cons i is ih =>
    obtain ⟨u, hu, ht⟩ := run_cons.mp hr
    simp only [List.cons_append, outputs, hu, Option.elim_some, ih ht, List.append_assoc]

theorem Implements.run (h : Implements step astep emit cost Fit R) {is : List ι} (hrel : R s a)
    (hr : run step s is = some t) :
    ∃ b, Transition.run astep a (outputs step emit s is) = some b ∧ R t b := by
  induction is generalizing s a with
  | nil =>
    have he : s = t := Option.some.inj hr
    exact ⟨a, rfl, he ▸ hrel⟩
  | cons i is ih =>
    obtain ⟨u, hu, ht⟩ := run_cons.mp hr
    obtain ⟨b, hb, hub⟩ := h.forward s i u a hrel hu
    obtain ⟨c, hc, htc⟩ := ih hub ht
    refine ⟨c, ?_, htc⟩
    simp only [outputs, hu, Option.elim_some]
    exact run_append.mpr ⟨b, hb, hc⟩

theorem Implements.realize (h : Implements step astep emit cost Fit R) {ks : List κ} {b : τ}
    (hrel : R s a) (hr : Transition.run astep a ks = some b) :
    ∃ is t, Transition.run step s is = some t ∧ R t b ∧ outputs step emit s is = ks ∧
      is.length ≤ (ks.map cost).sum ∧ ∀ i ∈ is, ∃ k ∈ ks, Fit k i := by
  induction ks generalizing s a with
  | nil =>
    have he : a = b := Option.some.inj hr
    exact ⟨[], s, rfl, he ▸ hrel, rfl, le_rfl, fun i hi => absurd hi List.not_mem_nil⟩
  | cons k ks ih =>
    obtain ⟨c, hc, hb⟩ := run_cons.mp hr
    obtain ⟨is, u, hu, huc, hout, hlen, hfit⟩ := h.backward s a k c hrel hc
    obtain ⟨js, t, ht, htb, hout', hlen', hfit'⟩ := ih huc hb
    refine ⟨is ++ js, t, run_append.mpr ⟨u, hu, ht⟩, htb, ?_, ?_, fun i hi => ?_⟩
    · rw [outputs_append js hu, hout, hout', List.singleton_append]
    · simp only [List.length_append, List.map_cons, List.sum_cons]
      omega
    · rcases List.mem_append.mp hi with hi | hi
      · exact ⟨k, List.mem_cons_self .., hfit i hi⟩
      · obtain ⟨k', hk', hf⟩ := hfit' i hi
        exact ⟨k', List.mem_cons_of_mem k hk', hf⟩

/-- What the lower system does from `s` is what the upper one does from `a`. -/
theorem Implements.run_iff (h : Implements step astep emit cost Fit R)
    (hdet : ∀ t b c, R t b → R t c → b = c) (hrel : R s a) (ks : List κ) (b : τ) :
    Transition.run astep a ks = some b ↔
      ∃ is t, Transition.run step s is = some t ∧ outputs step emit s is = ks ∧ R t b := by
  constructor
  · intro hr
    obtain ⟨is, t, ht, htb, hout, _, _⟩ := h.realize hrel hr
    exact ⟨is, t, ht, hout, htb⟩
  · intro ⟨is, t, ht, hout, htb⟩
    obtain ⟨c, hc, htc⟩ := h.run hrel ht
    rw [hout, hdet t c b htc htb] at hc
    exact hc

/-! ### Work paid for in advance -/

/-- Every accepted label costs no more than the potential falls by and the
label itself brings in; so does every run. -/
theorem run_amortized {P : τ → Prop} {potential : τ → Nat} {work income : κ → Nat}
    (hstep : ∀ a k b, P a → astep a k = some b →
      P b ∧ work k + potential b ≤ potential a + income k)
    {a b : τ} {ks : List κ} (hP : P a) (hr : run astep a ks = some b) :
    (ks.map work).sum + potential b ≤ potential a + (ks.map income).sum := by
  induction ks generalizing a with
  | nil =>
    have he : a = b := Option.some.inj hr
    simp [he]
  | cons k ks ih =>
    obtain ⟨c, hc, hb⟩ := run_cons.mp hr
    obtain ⟨hPc, hle⟩ := hstep a k c hP hc
    have hrest := ih hPc hb
    simp only [List.map_cons, List.sum_cons]
    omega

end Kit.Traces
