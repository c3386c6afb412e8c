import DecQueue.Kit.Lists
import DecQueue.Kit.Traces
import Mathlib.Order.Basic

/-! # A pool of jobs with bounded retries

What a job queue is for, without any of the bookkeeping that makes it fast:
a list of jobs, each waiting, held by one worker or settled, and six requests.
A job is handed out again after a failure until its budget of attempts is
spent. Workers, times, tasks and the data a request carries are arbitrary
types; the phase carries the holder of a job, so there is no job that is held
by nobody. -/

namespace Kit.JobPool
open Kit.Lists Kit.Transition Kit.Traces

variable {W T P D : Type*}

inductive Phase (W T : Type*) where
  | waiting (due : T)
  | held (holder : W)
  | done
  | dead
  | withdrawn
  deriving DecidableEq

structure Entry (W T P : Type*) where
  task : P
  attempts : Nat
  phase : Phase W T
  deriving DecidableEq

structure Pool (W T P : Type*) where
  owner : W
  budget : Nat
  closed : Bool
  entries : List (Entry W T P)
  deriving DecidableEq

/-- `dueAt` and `retryAt` turn what a request asks for into the time from which
the job may be taken. -/
structure Policy (T P D : Type*) where
  capacity : Nat
  admits : P → Bool
  dueAt : T → D → T
  retryAt : T → Nat → D → T

inductive Request (W P D : Type*) where
  | submit (task : P) (asked : D)
  | take (id : Nat) (holder : W)
  | finish (id : Nat) (holder : W)
  | fail (id : Nat) (holder : W) (asked : D)
  | withdraw (id : Nat) (requester : W)
  | setClosed (requester : W) (closed : Bool)
  deriving DecidableEq

structure Call (W T P D : Type*) where
  now : T
  request : Request W P D
  deriving DecidableEq

def empty (owner : W) (budget : Nat) : Pool W T P := ⟨owner, budget, false, []⟩

def update (pool : Pool W T P) (id : Nat) (f : Entry W T P → Option (Entry W T P)) :
    Option (Pool W T P) :=
  pool.entries[id]?.bind fun e => (f e).map fun e' => { pool with entries := pool.entries.set id e' }

section
variable [DecidableEq W]

def Entry.take [LE T] [DecidableLE T] (now : T) (holder : W) (e : Entry W T P) :
    Option (Entry W T P) :=
  match e.phase with
  | .waiting due => if due ≤ now then some ⟨e.task, e.attempts + 1, .held holder⟩ else none
  | _ => none

def Entry.finish (holder : W) (e : Entry W T P) : Option (Entry W T P) :=
  match e.phase with
  | .held holder' => if holder' = holder then some { e with phase := .done } else none
  | _ => none

def Entry.fail (budget : Nat) (retryAt : Nat → T) (holder : W) (e : Entry W T P) :
    Option (Entry W T P) :=
  match e.phase with
  | .held holder' =>
      if holder' = holder then
        some { e with phase := if e.attempts < budget then .waiting (retryAt e.attempts) else .dead }
      else none
  | _ => none

def Entry.withdraw (e : Entry W T P) : Option (Entry W T P) :=
  match e.phase with
  | .waiting _ => some { e with phase := .withdrawn }
  | _ => none

def step [LE T] [DecidableLE T] (policy : Policy T P D) (pool : Pool W T P) (call : Call W T P D) :
    Option (Pool W T P) :=
  match call.request with
  | .submit task asked =>
      if policy.admits task ∧ pool.closed = false ∧ pool.entries.length < policy.capacity then
        some { pool with
          entries := pool.entries ++ [⟨task, 0, .waiting (policy.dueAt call.now asked)⟩] }
      else none
  | .take id holder => update pool id (Entry.take call.now holder)
  | .finish id holder => update pool id (Entry.finish holder)
  | .fail id holder asked =>
      update pool id
        (Entry.fail pool.budget (fun attempts => policy.retryAt call.now attempts asked) holder)
  | .withdraw id requester => if requester = pool.owner then update pool id Entry.withdraw else none
  | .setClosed requester closed =>
      if requester = pool.owner then some { pool with closed := closed } else none

end

/-! ### When a request is granted -/

section
variable {pool pool' : Pool W T P} {id : Nat} {e e' : Entry W T P}

theorem update_eq_some {f : Entry W T P → Option (Entry W T P)} :
    update pool id f = some pool' ↔
      ∃ e e', pool.entries[id]? = some e ∧ f e = some e' ∧
        { pool with entries := pool.entries.set id e' } = pool' := by
  simp only [update, Option.bind_eq_some_iff, Option.map_eq_some_iff]
  constructor
  · intro ⟨e, he, e', hf, hp⟩
    exact ⟨e, e', he, hf, hp⟩
  · intro ⟨e, e', he, hf, hp⟩
    exact ⟨e, he, e', hf, hp⟩

theorem take_eq_some [LE T] [DecidableLE T] {now : T} {holder : W} :
    Entry.take now holder e = some e' ↔
      ∃ due, e.phase = .waiting due ∧ due ≤ now ∧ ⟨e.task, e.attempts + 1, .held holder⟩ = e' := by
  unfold Entry.take
  split
  next due hdue => simp [hdue]
  next hno =>
    constructor
    · intro h
      cases h
    · intro ⟨due, hdue, _⟩
      exact absurd hdue (hno due)

theorem withdraw_eq_some :
    Entry.withdraw e = some e' ↔
      ∃ due, e.phase = .waiting due ∧ { e with phase := .withdrawn } = e' := by
  unfold Entry.withdraw
  split
  next due hdue => simp [hdue]
  next hno =>
    constructor
    · intro h
      cases h
    · intro ⟨due, hdue, _⟩
      exact absurd hdue (hno due)

variable [DecidableEq W]

theorem finish_eq_some {holder : W} :
    Entry.finish holder e = some e' ↔ e.phase = .held holder ∧ { e with phase := .done } = e' := by
  unfold Entry.finish
  split
  next holder' hheld => simp only [hheld, Option.ite_none_right_eq_some, Option.some.injEq, Phase.held.injEq]
  next hno =>
    constructor
    · intro h
      cases h
    · exact fun h => absurd h.1 (hno holder)

theorem fail_eq_some {budget : Nat} {retryAt : Nat → T} {holder : W} :
    Entry.fail budget retryAt holder e = some e' ↔
      e.phase = .held holder ∧
        { e with phase := if e.attempts < budget then .waiting (retryAt e.attempts) else .dead } = e' := by
  unfold Entry.fail
  split
  next holder' hheld => simp only [hheld, Option.ite_none_right_eq_some, Option.some.injEq, Phase.held.injEq]
  next hno =>
    constructor
    · intro h
      cases h
    · exact fun h => absurd h.1 (hno holder)

end

/-! ### Attempts stay in the budget -/

/-- A job is tried at least once, whatever the budget says. -/
def limit (budget : Nat) : Nat := max 1 budget

def Entry.Fits (budget : Nat) (e : Entry W T P) : Prop :=
  match e.phase with
  | .waiting _ | .withdrawn => e.attempts < limit budget
  | .held _ | .done => 1 ≤ e.attempts ∧ e.attempts ≤ limit budget
  | .dead => e.attempts = limit budget

def Fits (pool : Pool W T P) : Prop := ∀ e ∈ pool.entries, e.Fits pool.budget

/-- The requests a job can still be part of: each attempt takes two, the taking
and the report, and a held job has one of its attempts half done. -/
def Entry.remaining (budget : Nat) (e : Entry W T P) : Nat :=
  match e.phase with
  | .waiting _ => 2 * (limit budget - e.attempts)
  | .held _ => 2 * (limit budget - e.attempts) + 1
  | .done | .dead | .withdrawn => 0

def remaining (pool : Pool W T P) : Nat := (pool.entries.map (Entry.remaining pool.budget)).sum

def Request.isWork : Request W P D → Bool
  | .take .. | .finish .. | .fail .. | .withdraw .. => true
  | .submit .. | .setClosed .. => false

def Request.isSubmit : Request W P D → Bool
  | .submit .. => true
  | _ => false

def works (calls : List (Call W T P D)) : Nat := calls.countP fun call => call.request.isWork

def submits (calls : List (Call W T P D)) : Nat := calls.countP fun call => call.request.isSubmit

theorem fits_empty (owner : W) (budget : Nat) : Fits (empty owner budget : Pool W T P) := by
  intro e he
  simp [empty] at he

section
variable {pool pool' : Pool W T P} {id : Nat} {e e' : Entry W T P}

/-- One entry moves to a phase of its budget and loses potential by it. -/
theorem update_pays {f : Entry W T P → Option (Entry W T P)} (hP : Fits pool)
    (hf : ∀ e e', e.Fits pool.budget → f e = some e' →
      e'.Fits pool.budget ∧ 1 + e'.remaining pool.budget ≤ e.remaining pool.budget)
    (h : update pool id f = some pool') : Fits pool' ∧ 1 + remaining pool' ≤ remaining pool := by
  obtain ⟨e, e', he, hfe, rfl⟩ := update_eq_some.mp h
  obtain ⟨hfit, hpay⟩ := hf e e' (hP e (List.mem_of_getElem? he)) hfe
  refine ⟨fun a ha => ?_, ?_⟩
  · rcases List.mem_or_eq_of_mem_set ha with hold | rfl
    · exact hP a hold
    · exact hfit
  · have hset := sum_map_set (Entry.remaining pool.budget) e' he
    simp only [remaining]
    omega

theorem take_pays [LE T] [DecidableLE T] {budget : Nat} {now : T} {holder : W}
    (hP : e.Fits budget) (h : Entry.take now holder e = some e') :
    e'.Fits budget ∧ 1 + e'.remaining budget ≤ e.remaining budget := by
  obtain ⟨due, hphase, _, rfl⟩ := take_eq_some.mp h
  simp only [Entry.Fits, Entry.remaining, hphase] at *
  omega

theorem withdraw_pays {budget : Nat} (hP : e.Fits budget) (h : Entry.withdraw e = some e') :
    e'.Fits budget ∧ 1 + e'.remaining budget ≤ e.remaining budget := by
  obtain ⟨due, hphase, rfl⟩ := withdraw_eq_some.mp h
  simp only [Entry.Fits, Entry.remaining, hphase] at *
  omega

variable [DecidableEq W]

theorem finish_pays {budget : Nat} {holder : W} (hP : e.Fits budget)
    (h : Entry.finish holder e = some e') :
    e'.Fits budget ∧ 1 + e'.remaining budget ≤ e.remaining budget := by
  obtain ⟨hphase, rfl⟩ := finish_eq_some.mp h
  simp only [Entry.Fits, Entry.remaining, hphase] at *
  omega

theorem fail_pays {budget : Nat} {retryAt : Nat → T} {holder : W} (hP : e.Fits budget)
    (h : Entry.fail budget retryAt holder e = some e') :
    e'.Fits budget ∧ 1 + e'.remaining budget ≤ e.remaining budget := by
  obtain ⟨hphase, rfl⟩ := fail_eq_some.mp h
  simp only [Entry.Fits, hphase] at hP
  by_cases hlt : e.attempts < budget
  · simp only [Entry.Fits, Entry.remaining, hphase, if_pos hlt, limit] at *
    omega
  · simp only [Entry.Fits, Entry.remaining, hphase, if_neg hlt, limit] at *
    omega

/-! ### The work of a run -/

variable [LE T] [DecidableLE T]

theorem step_budget {policy : Policy T P D} {call : Call W T P D}
    (h : step policy pool call = some pool') : pool'.budget = pool.budget ∧ pool'.owner = pool.owner := by
  have hupdate : ∀ {id : Nat} {f : Entry W T P → Option (Entry W T P)},
      update pool id f = some pool' → pool'.budget = pool.budget ∧ pool'.owner = pool.owner := by
    intro id f hu
    obtain ⟨_, _, _, _, rfl⟩ := update_eq_some.mp hu
    exact ⟨rfl, rfl⟩
  unfold step at h
  split at h
  next =>
    obtain ⟨_, hs⟩ := Option.ite_none_right_eq_some.mp h
    cases hs
    exact ⟨rfl, rfl⟩
  next => exact hupdate h
  next => exact hupdate h
  next => exact hupdate h
  next => exact hupdate (Option.ite_none_right_eq_some.mp h).2
  next =>
    obtain ⟨_, hs⟩ := Option.ite_none_right_eq_some.mp h
    cases hs
    exact ⟨rfl, rfl⟩

theorem step_pays {policy : Policy T P D} {call : Call W T P D} (hP : Fits pool)
    (h : step policy pool call = some pool') :
    Fits pool' ∧ (if call.request.isWork then 1 else 0) + remaining pool' ≤
      remaining pool + if call.request.isSubmit then 2 * limit pool.budget else 0 := by
  obtain ⟨now, request⟩ := call
  cases request with
  | submit task asked =>
    obtain ⟨_, hs⟩ := Option.ite_none_right_eq_some.mp h
    cases hs
    refine ⟨fun a ha => ?_, ?_⟩
    · rcases List.mem_append.mp ha with hold | hnew
      · exact hP a hold
      · rw [List.mem_singleton.mp hnew]
        simp only [Entry.Fits, limit]
        omega
    · simp [remaining, Request.isWork, Request.isSubmit, Entry.remaining]
  | take id holder => exact update_pays hP (fun _ _ => take_pays) h
  | finish id holder => exact update_pays hP (fun _ _ => finish_pays) h
  | fail id holder asked => exact update_pays hP (fun _ _ => fail_pays) h
  | withdraw id requester =>
    exact update_pays hP (fun _ _ => withdraw_pays) (Option.ite_none_right_eq_some.mp h).2
  | setClosed requester closed =>
    obtain ⟨_, hs⟩ := Option.ite_none_right_eq_some.mp h
    cases hs
    exact ⟨hP, by simp [remaining, Request.isWork, Request.isSubmit]⟩

theorem step_length {policy : Policy T P D} {call : Call W T P D}
    (h : step policy pool call = some pool') :
    pool'.entries.length = pool.entries.length + if call.request.isSubmit then 1 else 0 := by
  have hupdate : ∀ {id : Nat} {f : Entry W T P → Option (Entry W T P)},
      update pool id f = some pool' → pool'.entries.length = pool.entries.length := by
    intro id f hu
    obtain ⟨_, _, _, _, rfl⟩ := update_eq_some.mp hu
    exact List.length_set
  obtain ⟨now, request⟩ := call
  cases request with
  | submit task asked =>
    obtain ⟨_, hs⟩ := Option.ite_none_right_eq_some.mp h
    cases hs
    exact List.length_append
  | take id holder => exact hupdate h
  | finish id holder => exact hupdate h
  | fail id holder asked => exact hupdate h
  | withdraw id requester => exact hupdate (Option.ite_none_right_eq_some.mp h).2
  | setClosed requester closed =>
    obtain ⟨_, hs⟩ := Option.ite_none_right_eq_some.mp h
    cases hs
    rfl

theorem length_run {policy : Policy T P D} {calls : List (Call W T P D)}
    (h : run (step policy) pool calls = some pool') :
    pool'.entries.length = pool.entries.length + submits calls := by
  induction calls generalizing pool with
  | nil =>
    have he : pool = pool' := Option.some.inj h
    simp [he, submits]
  | cons call calls ih =>
    obtain ⟨next, hnext, hrest⟩ := run_cons.mp h
    rw [ih hrest, step_length hnext, submits, submits, List.countP_cons]
    omega

omit [DecidableEq W] [LE T] [DecidableLE T] in
theorem sum_map_ite (p : Call W T P D → Bool) (n : Nat) (calls : List (Call W T P D)) :
    (calls.map fun call => if p call then n else 0).sum = n * calls.countP p := by
  induction calls with
  | nil => simp
  | cons call calls ih =>
    rw [List.map_cons, List.sum_cons, List.countP_cons, ih, Nat.mul_add, Nat.add_comm]
    split <;> simp

/-- Every job pays for all requests it is part of when it is submitted. -/
theorem works_le {policy : Policy T P D} {calls : List (Call W T P D)} (hP : Fits pool)
    (h : run (step policy) pool calls = some pool') :
    works calls + remaining pool' ≤ remaining pool + 2 * limit pool.budget * submits calls := by
  have hstep : ∀ (a : Pool W T P) call b, (Fits a ∧ a.budget = pool.budget) → step policy a call = some b →
      (Fits b ∧ b.budget = pool.budget) ∧ (if call.request.isWork then 1 else 0) + remaining b ≤
        remaining a + if call.request.isSubmit then 2 * limit pool.budget else 0 := by
    intro a call b ⟨ha, hb⟩ hs
    obtain ⟨hfit, hpay⟩ := step_pays ha hs
    exact ⟨⟨hfit, (step_budget hs).1.trans hb⟩, hb ▸ hpay⟩
  have hrun := run_amortized hstep ⟨hP, rfl⟩ h
  rw [sum_map_ite (fun call => call.request.isWork), sum_map_ite (fun call => call.request.isSubmit),
    Nat.one_mul] at hrun
  exact hrun

/-! ### Emptying the pool -/

/-- Every waiting job is taken and finished, every held one is finished by its
holder. -/
def drain (now : T) (holder : W) : Nat → List (Entry W T P) → List (Call W T P D)
  | _, [] => []
  | id, e :: es =>
      (match e.phase with
        | .waiting _ => [⟨now, .take id holder⟩, ⟨now, .finish id holder⟩]
        | .held holder' => [⟨now, .finish id holder'⟩]
        | .done | .dead | .withdrawn => []) ++ drain now holder (id + 1) es

def Entry.settled (e : Entry W T P) : Entry W T P :=
  match e.phase with
  | .waiting _ => ⟨e.task, e.attempts + 1, .done⟩
  | .held _ => ⟨e.task, e.attempts, .done⟩
  | .done | .dead | .withdrawn => e

def Entry.Ready (now : T) (e : Entry W T P) : Prop := ∀ due, e.phase = .waiting due → due ≤ now

omit [DecidableEq W] [LE T] [DecidableLE T] in
theorem update_middle {front back : List (Entry W T P)} {f : Entry W T P → Option (Entry W T P)}
    (h : f e = some e') :
    update { pool with entries := front ++ e :: back } front.length f =
      some { pool with entries := front ++ e' :: back } := by
  apply update_eq_some.mpr
  refine ⟨e, e', by simp, h, by simp⟩

theorem drain_run (policy : Policy T P D) (now : T) (holder : W) (pool : Pool W T P)
    (front back : List (Entry W T P)) (hready : ∀ e ∈ back, e.Ready now) :
    run (step policy) { pool with entries := front ++ back } (drain now holder front.length back) =
      some { pool with entries := front ++ back.map Entry.settled } := by
  induction back generalizing front with
  | nil => simp [drain, run]
  | cons e back ih =>
    obtain ⟨he, hrest⟩ := List.forall_mem_cons.mp hready
    have htail := ih (front ++ [e.settled]) hrest
    simp only [List.length_append, List.length_singleton, List.append_assoc, List.singleton_append] at htail
    obtain ⟨task, attempts, phase⟩ := e
    cases phase with
    | waiting due =>
      have htake : step policy { pool with entries := front ++ ⟨task, attempts, .waiting due⟩ :: back }
          ⟨now, .take front.length holder⟩ =
            some { pool with entries := front ++ ⟨task, attempts + 1, .held holder⟩ :: back } :=
        update_middle (take_eq_some.mpr ⟨due, rfl, he due rfl, rfl⟩)
      have hfinish : step policy
          { pool with entries := front ++ ⟨task, attempts + 1, .held holder⟩ :: back }
          ⟨now, .finish front.length holder⟩ =
            some { pool with entries := front ++ ⟨task, attempts + 1, .done⟩ :: back } :=
        update_middle (finish_eq_some.mpr ⟨rfl, rfl⟩)
      exact run_cons.mpr ⟨_, htake, run_cons.mpr ⟨_, hfinish, htail⟩⟩
    | held holder' =>
      have hfinish : step policy
          { pool with entries := front ++ ⟨task, attempts, .held holder'⟩ :: back }
          ⟨now, .finish front.length holder'⟩ =
            some { pool with entries := front ++ ⟨task, attempts, .done⟩ :: back } :=
        update_middle (finish_eq_some.mpr ⟨rfl, rfl⟩)
      exact run_cons.mpr ⟨_, hfinish, htail⟩
    | done => exact htail
    | dead => exact htail
    | withdrawn => exact htail

omit [DecidableEq W] [LE T] [DecidableLE T] in
theorem drain_calls {now : T} {holder : W} {id : Nat} {entries : List (Entry W T P)}
    {call : Call W T P D} (h : call ∈ drain now holder id entries) :
    call.now = now ∧ ∃ i who, call.request = .take i who ∨ call.request = .finish i who := by
  induction entries generalizing id with
  | nil => cases h
  | cons e entries ih =>
    obtain ⟨task, attempts, phase⟩ := e
    cases phase with
    | waiting due =>
      rcases List.mem_cons.mp h with rfl | h
      · exact ⟨rfl, id, holder, .inl rfl⟩
      · rcases List.mem_cons.mp h with rfl | h
        · exact ⟨rfl, id, holder, .inr rfl⟩
        · exact ih h
    | held holder' =>
      rcases List.mem_cons.mp h with rfl | h
      · exact ⟨rfl, id, holder', .inr rfl⟩
      · exact ih h
    | done => exact ih h
    | dead => exact ih h
    | withdrawn => exact ih h

def Phase.isOpen : Phase W T → Bool
  | .waiting _ | .held _ => true
  | .done | .dead | .withdrawn => false

omit [DecidableEq W] [LE T] [DecidableLE T] in
theorem drain_length (now : T) (holder : W) (id : Nat) (entries : List (Entry W T P)) :
    (drain now holder id entries : List (Call W T P D)).length ≤
      2 * entries.countP fun e => e.phase.isOpen := by
  induction entries generalizing id with
  | nil => exact Nat.zero_le _
  | cons e entries ih =>
    have hrest := ih (id + 1)
    rw [List.countP_cons]
    obtain ⟨task, attempts, phase⟩ := e
    cases phase with
    | waiting due => exact Nat.add_le_add_right hrest 2
    | held holder' => exact (Nat.add_le_add_right hrest 1).trans (Nat.le_succ _)
    | done => exact hrest
    | dead => exact hrest
    | withdrawn => exact hrest

end

end Kit.JobPool
