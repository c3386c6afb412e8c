import Mathlib.Data.List.Infix
import Mathlib.Tactic.Common

/-! # Runs of a partial step function

A labelled transition system is a function `step : σ → ι → Option σ`: the
label is the request, `none` is a rejected request that leaves no successor.
Runs are finite lists of accepted labels. The rules of this module are the
induction principles the rest of a development needs: invariants of single
states, invariants that also read the history, relations between the two ends
of a run, properties that hold while a condition lasts, and forward
simulations with stuttering. -/

namespace Kit.Transition

variable {σ τ ι κ : Type*}

def run (step : σ → ι → Option σ) : σ → List ι → Option σ
  | s, [] => some s
  | s, i :: is => (step s i).bind fun t => run step t is

def Reachable (step : σ → ι → Option σ) (s₀ s : σ) : Prop :=
  ∃ is, run step s₀ is = some s

variable {step : σ → ι → Option σ}

theorem run_cons {s u : σ} {i : ι} {is : List ι} :
    run step s (i :: is) = some u ↔ ∃ t, step s i = some t ∧ run step t is = some u := by
  simp only [run, Option.bind_eq_some_iff]

theorem run_append {s u : σ} {is js : List ι} :
    run step s (is ++ js) = some u ↔ ∃ t, run step s is = some t ∧ run step t js = some u := by
  induction is generalizing s with
  | nil => simp [run]
  | cons i is ih =>
    simp only [List.cons_append, run_cons, ih]
    constructor
    · intro ⟨a, ha, t, ht, hu⟩
      exact ⟨t, ⟨a, ha, ht⟩, hu⟩
    · intro ⟨t, ⟨a, ha, ht⟩, hu⟩
      exact ⟨a, ha, t, ht, hu⟩

theorem run_singleton {s u : σ} {i : ι} : run step s [i] = some u ↔ step s i = some u := by
  simp [run]

theorem run_snoc {s u : σ} {is : List ι} {i : ι} :
    run step s (is ++ [i]) = some u ↔ ∃ t, run step s is = some t ∧ step t i = some u := by
  simp only [run_append, run_singleton]

theorem Reachable.refl (s : σ) : Reachable step s s := ⟨[], rfl⟩

theorem Reachable.next {s₀ s t : σ} {i : ι} (h : Reachable step s₀ s) (hs : step s i = some t) :
    Reachable step s₀ t := by
  obtain ⟨is, hr⟩ := h
  exact ⟨is ++ [i], run_snoc.mpr ⟨s, hr, hs⟩⟩

theorem Reachable.extend {s₀ s t : σ} {is : List ι} (h : Reachable step s₀ s)
    (hr : run step s is = some t) : Reachable step s₀ t := by
  obtain ⟨js, hj⟩ := h
  exact ⟨js ++ is, run_append.mpr ⟨s, hj, hr⟩⟩

theorem run_invariant {P : σ → Prop} (hstep : ∀ s i t, P s → step s i = some t → P t)
    {s t : σ} {is : List ι} (hs : P s) (hr : run step s is = some t) : P t := by
  induction is generalizing s with
  | nil =>
    have he : s = t := Option.some.inj hr
    exact he ▸ hs
  | cons i is ih =>
    obtain ⟨u, hu, ht⟩ := run_cons.mp hr
    exact ih (hstep s i u hs hu) ht

theorem Reachable.invariant {P : σ → Prop} {s₀ s : σ} (h : Reachable step s₀ s) (h₀ : P s₀)
    (hstep : ∀ s i t, P s → step s i = some t → P t) : P s := by
  obtain ⟨is, hr⟩ := h
  exact run_invariant hstep h₀ hr

/-- Induction over a run with the labels accepted so far in view. -/
theorem run_history {P : σ → List ι → Prop} {s₀ : σ} (h₀ : P s₀ [])
    (hstep : ∀ s is i t, run step s₀ is = some s → P s is → step s i = some t → P t (is ++ [i]))
    {t : σ} {is : List ι} (hr : run step s₀ is = some t) : P t is := by
  induction is using List.reverseRecOn generalizing t with
  | nil =>
    have he : s₀ = t := Option.some.inj hr
    exact he ▸ h₀
  | append_singleton is i ih =>
    obtain ⟨s, hs, ht⟩ := run_snoc.mp hr
    exact hstep s is i t hs (ih hs) ht

/-- A reflexive and transitive relation that holds across each step from a
good state holds across a whole run. -/
theorem run_relation {P : σ → Prop} {R : σ → σ → Prop} (hrefl : ∀ s, R s s)
    (htrans : ∀ s t u, R s t → R t u → R s u)
    (hstep : ∀ s i t, P s → step s i = some t → P t ∧ R s t)
    {s t : σ} {is : List ι} (hs : P s) (hr : run step s is = some t) : R s t := by
  induction is generalizing s with
  | nil =>
    have he : s = t := Option.some.inj hr
    exact he ▸ hrefl s
  | cons i is ih =>
    obtain ⟨u, hu, ht⟩ := run_cons.mp hr
    obtain ⟨hp, hru⟩ := hstep s i u hs hu
    exact htrans s u t hru (ih hp ht)

/-- `P` holds in every state the run visits, the last one included. -/
def Throughout (step : σ → ι → Option σ) (P : σ → Prop) (s : σ) (is : List ι) : Prop :=
  ∀ js t, js <+: is → run step s js = some t → P t

theorem Throughout.start {P : σ → Prop} {s : σ} {is : List ι} (h : Throughout step P s is) : P s :=
  h [] s (List.nil_prefix) rfl

theorem Throughout.tail {P : σ → Prop} {s t : σ} {i : ι} {is : List ι}
    (h : Throughout step P s (i :: is)) (hs : step s i = some t) : Throughout step P t is := by
  intro js u hjs hu
  exact h (i :: js) u (List.cons_prefix_cons.mpr ⟨rfl, hjs⟩) (run_cons.mpr ⟨t, hs, hu⟩)

theorem throughout_nil {P : σ → Prop} {s : σ} : Throughout step P s [] ↔ P s := by
  constructor
  · exact Throughout.start
  · intro h js t hjs hr
    cases List.prefix_nil.mp hjs
    cases hr
    exact h

theorem throughout_cons {P : σ → Prop} {s : σ} {i : ι} {is : List ι} :
    Throughout step P s (i :: is) ↔ P s ∧ ∀ t, step s i = some t → Throughout step P t is := by
  constructor
  · exact fun h => ⟨h.start, fun t ht => h.tail ht⟩
  · intro ⟨hs, h⟩ js u hjs hr
    cases js with
    | nil =>
      cases hr
      exact hs
    | cons j js =>
      obtain ⟨rfl, hrest⟩ := List.cons_prefix_cons.mp hjs
      obtain ⟨t, ht, hu⟩ := run_cons.mp hr
      exact h t ht js u hrest hu

/-- What each step keeps between two states that satisfy `P` is kept by a run
that satisfies `P` throughout. -/
theorem run_while {P Q : σ → Prop} (hstep : ∀ s i t, Q s → P s → P t → step s i = some t → Q t)
    {s t : σ} {is : List ι} (hs : Q s) (hp : Throughout step P s is)
    (hr : run step s is = some t) : Q t := by
  induction is generalizing s with
  | nil =>
    have he : s = t := Option.some.inj hr
    exact he ▸ hs
  | cons i is ih =>
    obtain ⟨u, hu, ht⟩ := run_cons.mp hr
    have hpu := hp.tail hu
    exact ih (hstep s i u hs hp.start hpu.start hu) hpu ht

/-- Each label satisfies `C` in the state it is accepted in. -/
def Meets (step : σ → ι → Option σ) (C : σ → ι → Prop) (s : σ) (is : List ι) : Prop :=
  ∀ js i t, js ++ [i] <+: is → run step s js = some t → C t i

theorem Meets.head {C : σ → ι → Prop} {s : σ} {i : ι} {is : List ι}
    (h : Meets step C s (i :: is)) : C s i :=
  h [] i s (List.cons_prefix_cons.mpr ⟨rfl, List.nil_prefix⟩) rfl

theorem Meets.tail {C : σ → ι → Prop} {s t : σ} {i : ι} {is : List ι}
    (h : Meets step C s (i :: is)) (hs : step s i = some t) : Meets step C t is := by
  intro js j u hjs hu
  exact h (i :: js) j u (List.cons_prefix_cons.mpr ⟨rfl, hjs⟩) (run_cons.mpr ⟨t, hs, hu⟩)

theorem Meets.of_prefix {C : σ → ι → Prop} {s : σ} {is js : List ι} (h : Meets step C s is)
    (hjs : js <+: is) : Meets step C s js :=
  fun ks i t hks hr => h ks i t (hks.trans hjs) hr

theorem meets_nil {C : σ → ι → Prop} {s : σ} : Meets step C s [] := by
  intro js i t hjs
  exact absurd (List.prefix_nil.mp hjs) (by simp)

theorem meets_cons {C : σ → ι → Prop} {s : σ} {i : ι} {is : List ι} :
    Meets step C s (i :: is) ↔ C s i ∧ ∀ t ∈ step s i, Meets step C t is := by
  constructor
  · exact fun h => ⟨h.head, fun t ht => h.tail ht⟩
  · intro ⟨hs, h⟩ js j t hjs hr
    cases js with
    | nil =>
      cases hr
      exact (List.cons_prefix_cons.mp hjs).1 ▸ hs
    | cons k js =>
      obtain ⟨rfl, hrest⟩ := List.cons_prefix_cons.mp hjs
      obtain ⟨u, hu, ht⟩ := run_cons.mp hr
      exact h u hu js j t hrest ht

theorem meets_of_forall {C : σ → ι → Prop} {s : σ} {is : List ι} (h : ∀ i ∈ is, ∀ t, C t i) :
    Meets step C s is := by
  intro js i t hjs _
  exact h i (hjs.mem (List.mem_append_right js (List.mem_singleton_self i))) t

def decidableMeets {C : σ → ι → Prop} (hC : ∀ s i, Decidable (C s i)) :
    ∀ s is, Decidable (Meets step C s is)
  | _, [] => isTrue meets_nil
  | s, i :: is =>
      have := hC s i
      have := fun t => decidableMeets hC t is
      decidable_of_iff (C s i ∧ ∀ t ∈ step s i, Meets step C t is) meets_cons.symm

instance {C : σ → ι → Prop} [hC : ∀ s i, Decidable (C s i)] (s : σ) (is : List ι) :
    Decidable (Meets step C s is) := decidableMeets hC s is

theorem run_meets {P : σ → Prop} {C : σ → ι → Prop}
    (hstep : ∀ s i t, P s → C s i → step s i = some t → P t) {s t : σ} {is : List ι} (hs : P s)
    (hm : Meets step C s is) (hr : run step s is = some t) : P t := by
  induction is generalizing s with
  | nil =>
    cases hr
    exact hs
  | cons i is ih =>
    obtain ⟨u, hu, ht⟩ := run_cons.mp hr
    exact ih (hstep s i u hs hm.head hu) (hm.tail hu) ht

/-- What a run writes to its log, `emit` being what a single step writes. -/
def outputs {ω : Type*} (step : σ → ι → Option σ) (emit : σ → ι → List ω) : σ → List ι → List ω
  | _, [] => []
  | s, i :: is => emit s i ++ (step s i).elim [] fun t => outputs step emit t is

theorem outputs_snoc {ω : Type*} {emit : σ → ι → List ω} {s t : σ} {is : List ι} (i : ι)
    (hr : run step s is = some t) :
    outputs step emit s (is ++ [i]) = outputs step emit s is ++ emit t i := by
  induction is generalizing s with
  | nil =>
    have he : s = t := Option.some.inj hr
    subst he
    cases h : step s i <;> simp [outputs, h]
  | cons j js ih =>
    obtain ⟨u, hu, ht⟩ := run_cons.mp hr
    simp only [List.cons_append, outputs, hu, Option.elim_some, ih ht, List.append_assoc]

/-- Two systems that take the same requests and, on those that satisfy `C`,
accept or refuse them together, do so along whole runs. -/
theorem run_lockstep {astep : τ → ι → Option τ} {R : σ → τ → Prop} {C : ι → Prop}
    (hstep : ∀ s a i, R s a → C i → Option.Rel R (step s i) (astep a i)) {s : σ} {a : τ}
    {is : List ι} (hrel : R s a) (hC : ∀ i ∈ is, C i) :
    Option.Rel R (run step s is) (run astep a is) := by
  induction is generalizing s a with
  | nil => exact .some hrel
  | cons i is ih =>
    obtain ⟨hi, his⟩ := List.forall_mem_cons.mp hC
    have hfirst := hstep s a i hrel hi
    generalize hx : step s i = x at hfirst
    generalize hy : astep a i = y at hfirst
    simp only [run, hx, hy]
    cases hfirst with
    | none => exact .none
    | some hnext => exact ih hnext his

/-- A forward simulation: each concrete step is matched by a run, possibly
empty, of the abstract system. -/
structure Simulation (step : σ → ι → Option σ) (astep : τ → κ → Option τ) where
  rel : σ → τ → Prop
  sim : ∀ s i t a, rel s a → step s i = some t → ∃ ks b, run astep a ks = some b ∧ rel t b

theorem Simulation.run {astep : τ → κ → Option τ} (S : Simulation step astep) {s t : σ} {a : τ}
    {is : List ι} (hrel : S.rel s a) (hr : run step s is = some t) :
    ∃ ks b, Transition.run astep a ks = some b ∧ S.rel t b := by
  induction is generalizing s a with
  | nil =>
    have he : s = t := Option.some.inj hr
    exact ⟨[], a, rfl, he ▸ hrel⟩
  | cons i is ih =>
    obtain ⟨u, hu, ht⟩ := run_cons.mp hr
    obtain ⟨ks, b, hk, hb⟩ := S.sim s i u a hrel hu
    obtain ⟨ks', c, hk', hc⟩ := ih hb ht
    exact ⟨ks ++ ks', c, run_append.mpr ⟨b, hk, hk'⟩, hc⟩

end Kit.Transition
