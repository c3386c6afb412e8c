import Mathlib.Data.List.Forall2
import Mathlib.Tactic.Common

/-! # Guards and checked arithmetic

Programs that stop at the first failed guard, written in `Except`, and the
bounded additions of a language with fixed-width counters. Each operation
comes with the condition under which it succeeds and the one under which it
fails; a proof about a guarded program rewrites with these and never unfolds
the monad. -/

namespace Kit.Fallible

variable {ε α β : Type}

def require (c : Prop) [Decidable c] (e : ε) : Except ε Unit :=
  if c then .ok () else .error e

def okOr (x : Option α) (e : ε) : Except ε α :=
  match x with
  | some a => .ok a
  | none => .error e

/-- Addition that fails above `limit`. -/
def checkedAdd (limit a b : Nat) : Option Nat :=
  if a + b ≤ limit then some (a + b) else none

/-- Addition that stops at `limit`. -/
def saturatingAdd (limit a b : Nat) : Nat := min limit (a + b)

theorem saturatingAdd_eq_getD (limit a b : Nat) :
    saturatingAdd limit a b = (checkedAdd limit a b).getD limit := by
  unfold saturatingAdd checkedAdd
  split
  next h => exact Nat.min_eq_right h
  next h => exact Nat.min_eq_left (by omega)

@[simp] theorem bind_ok_iff (x : Except ε α) (f : α → Except ε β) (b : β) :
    x >>= f = .ok b ↔ ∃ a, x = .ok a ∧ f a = .ok b := by
  cases x with
  | error e => simp [bind, Except.bind]
  | ok a => simp [bind, Except.bind]

@[simp] theorem pure_ok_iff (a b : α) : (pure a : Except ε α) = .ok b ↔ a = b :=
  ⟨fun h => Except.ok.inj h, fun h => h ▸ rfl⟩

@[simp] theorem require_ok_iff (c : Prop) [Decidable c] (e : ε) (u : Unit) :
    require c e = .ok u ↔ c := by
  by_cases h : c <;> simp [require, h]

@[simp] theorem okOr_ok_iff (x : Option α) (e : ε) (a : α) : okOr x e = .ok a ↔ x = some a := by
  cases x <;> simp [okOr]

@[simp] theorem checkedAdd_some_iff (limit a b c : Nat) :
    checkedAdd limit a b = some c ↔ a + b ≤ limit ∧ a + b = c := by
  unfold checkedAdd
  split
  next h => simp [h]
  next h => simp [h]

theorem toOption_eq_some_iff (x : Except ε α) (a : α) : x.toOption = some a ↔ x = .ok a := by
  cases x with
  | error e => simp [Except.toOption]
  | ok b => simp [Except.toOption]

/-- A traversal succeeds when every element does, with their results in order. -/
theorem mapM_ok_iff {f : α → Except ε β} {l : List α} {r : List β} :
    l.mapM f = .ok r ↔ List.Forall₂ (fun a b => f a = .ok b) l r := by
  induction l generalizing r with
  | nil =>
    rw [List.mapM_nil, pure_ok_iff, List.forall₂_nil_left_iff]
    exact eq_comm
  | cons a l ih =>
    simp only [List.mapM_cons, bind_ok_iff, pure_ok_iff, List.forall₂_cons_left_iff, ih]
    constructor
    · intro ⟨b, hb, bs, hbs, hr⟩
      exact ⟨b, bs, hb, hbs, hr.symm⟩
    · intro ⟨b, bs, hb, hbs, hr⟩
      exact ⟨b, hb, bs, hbs, hr.symm⟩

theorem mapM_congr {f g : α → Except ε β} {l : List α} (h : ∀ a ∈ l, f a = g a) :
    l.mapM f = l.mapM g := by
  induction l with
  | nil => rfl
  | cons a l ih =>
    obtain ⟨ha, hl⟩ := List.forall_mem_cons.mp h
    rw [List.mapM_cons, List.mapM_cons, ha, ih hl]

/- Failures. The first failing guard decides the error: a program fails with
the error of its prefix, or as its continuation does. -/

theorem bind_error_iff (x : Except ε α) (f : α → Except ε β) (e : ε) :
    x >>= f = .error e ↔ x = .error e ∨ ∃ a, x = .ok a ∧ f a = .error e := by
  cases x with
  | error e' => simp [bind, Except.bind]
  | ok a => simp [bind, Except.bind]

theorem pure_error_iff (a : α) (e : ε) : (pure a : Except ε α) = .error e ↔ False := by
  simp [pure, Except.pure]

theorem require_error_iff (c : Prop) [Decidable c] (e e' : ε) :
    require c e = .error e' ↔ ¬c ∧ e = e' := by
  by_cases h : c <;> simp [require, h]

theorem okOr_error_iff (x : Option α) (e e' : ε) :
    okOr x e = .error e' ↔ x = none ∧ e = e' := by
  cases x <;> simp [okOr]

theorem checkedAdd_none_iff (limit a b : Nat) : checkedAdd limit a b = none ↔ limit < a + b := by
  unfold checkedAdd
  split <;> simp <;> omega

end Kit.Fallible
