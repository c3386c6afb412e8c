import DecQueue.JobLife

/-! # The retry budget

`attempts` counts the claims of a job, and the comparison in `fail_job` ends
the retries after `max(1, max_retries)` of them. The budget itself is part of
the queue invariant; here the counter is tied to the history of the run. -/

namespace DecQueue.RetryBudget
open Kit.Fallible Kit.Transition State Handlers Outcomes Address Program View Refinement Reachability
  Invariants JobLife

variable {K : Type} [DecidableEq K]

def isClaimOf (k : K) (tx : Tx K) : Bool :=
  match tx.ix with
  | .claimJob ctx => decide (ctx.job = k)
  | _ => false

def claims (k : K) (txs : List (Tx K)) : Nat := txs.countP (isClaimOf k)

theorem claims_snoc (k : K) (txs : List (Tx K)) (tx : Tx K) :
    claims k (txs ++ [tx]) = claims k txs + if isClaimOf k tx then 1 else 0 := by
  simp only [claims, List.countP_append, List.countP_singleton]

theorem isClaimOf_false {k : K} {tx : Tx K} (h : worksOn tx.ix ≠ some k) :
    isClaimOf k tx = false := by
  unfold isClaimOf
  split
  next ctx hix =>
    rw [hix] at h
    exact decide_eq_false fun he => h (congrArg some he)
  next => rfl

variable [AddressDerivation K] {L L' : Ledger K} {k : K} {tx : Tx K} {txs : List (Tx K)}

theorem attempts_step {j : Job K} (hb : Budget j) (hL : WellFormed L) (hk : L k = some (.job j))
    (h : step L tx = some L') :
    ∃ j', L' k = some (.job j') ∧ j'.attempts = j.attempts + if isClaimOf k tx then 1 else 0 := by
  obtain ⟨queue, j', _, hk', hs⟩ := job_step hL hk h
  refine ⟨j', hk', ?_⟩
  obtain ⟨clock, ix⟩ := tx
  cases hs with
  | other hne =>
    have hno : isClaimOf k ⟨clock, ix⟩ = false := isClaimOf_false hne
    rw [hno]
    rfl
  | claim worker page =>
    have hyes : isClaimOf k ⟨clock, .claimJob ⟨k, worker, page⟩⟩ = true := decide_eq_true rfl
    rw [hyes, if_pos rfl]
    exact hb.locked_attempts clock worker
  | complete | retry | deadLetter | cancel => rfl

/-- The counter of the job at `k` is the number of its claims; without a job
there are none. -/
structure Tallied (k : K) (L : Ledger K) (txs : List (Tx K)) : Prop where
  job : ∀ job, L k = some (.job job) → job.attempts = claims k txs
  none : (∀ job, L k ≠ some (.job job)) → claims k txs = 0

omit [AddressDerivation K] in
theorem tallied_genesis : Tallied k genesis [] := by
  refine ⟨?_, fun _ => rfl⟩
  intro job hk
  cases hk

theorem tallied_step (hL : Reachable L) (ht : Tallied k L txs) (h : step L tx = some L') :
    Tallied k L' (txs ++ [tx]) := by
  have hwf := reachable_wellFormed hL
  constructor
  · intro j' hk'
    rw [claims_snoc]
    obtain ⟨j, hk⟩ | ⟨hnew, ctx, _, _, _, _, _, hix, _, _, _, rfl⟩ := job_origin hwf h hk'
    · obtain ⟨v, hv, hinv, _, hj⟩ := reachable_job hL hk
      obtain ⟨j'', hk'', hattempts⟩ := attempts_step (hinv.budget _ j hj) hwf hk h
      cases hk'.symm.trans hk''
      rw [hattempts, ht.job j hk]
    · -- a new job starts at zero, and its creation is no claim
      have hno : isClaimOf k tx = false := by simp only [isClaimOf, hix]
      have hfirst := ht.none (by simp [hnew])
      rw [hno, hfirst]
      rfl
  · intro hnone
    have hbefore : ∀ job, L k ≠ some (.job job) := by
      intro j hk
      obtain ⟨_, j', _, hk', _⟩ := job_step hwf hk h
      exact hnone j' hk'
    have hwork : worksOn tx.ix ≠ some k := by
      intro hwork
      obtain ⟨j, hk⟩ := exists_of_worksOn hwf h hwork
      exact hbefore j hk
    rw [claims_snoc, ht.none hbefore, isClaimOf_false hwork]
    rfl

theorem tallied_run (h : run step genesis txs = some L) : Tallied k L txs := by
  apply run_history (P := Tallied k) tallied_genesis _ h
  intro L txs tx L' hrun ht hstep
  exact tallied_step ⟨txs, hrun⟩ ht hstep

/-- The budget of the job at `k` after the run `txs`. -/
structure WithinBudget (txs : List (Tx K)) (L : Ledger K) (k : K) (job : Job K) : Prop where
  counted : job.attempts = claims k txs
  bound : claims k txs ≤ max 1 job.maxRetries
  failed : job.status = .failed → claims k txs = max 1 job.maxRetries
  pending : job.status = .pending → claims k txs < max 1 job.maxRetries
  /-- the `u8` increment of the next claim -/
  increment : checkedAdd u8Max job.attempts 1 = some (job.attempts + 1)
  fail : ∀ clock queue worker page errorMessage retryAfterSecs L',
    step L ⟨clock, .failJob ⟨queue, k, worker, page⟩ errorMessage retryAfterSecs⟩ = some L' →
      statusAt L' k = some (if claims k txs < job.maxRetries then .pending else .failed)

theorem retry_budget (hrun : run step genesis txs = some L) {job : Job K}
    (hk : L k = some (.job job)) : WithinBudget txs L k job := by
  have hreach : Reachable L := ⟨txs, hrun⟩
  have hcount := (tallied_run hrun).job job hk
  obtain ⟨v, hv, hinv, _, hj⟩ := reachable_job hreach hk
  have hb := hinv.budget _ job hj
  have hfit := hb.fit
  refine ⟨hcount, hcount ▸ hb.le, fun hs => ?_, fun hs => ?_, ?_, ?_⟩
  · simpa only [AttemptsFit, hs, hcount] using hfit
  · simpa only [AttemptsFit, hs, hcount] using hfit
  · have hsmall := hb.small
    exact (checkedAdd_some_iff ..).mpr ⟨by simp only [u8Max]; omega, rfl⟩
  · intro clock queue worker page errorMessage retryAfterSecs L' hstep
    obtain ⟨_, j', _, hk', hs⟩ := job_step (reachable_wellFormed hreach) hk hstep
    rw [statusAt_job hk', ← hcount]
    cases hs with
    | other hne => exact absurd rfl hne
    | retry _ _ _ _ _ hretry => rw [if_pos hretry]; rfl
    | deadLetter _ _ _ _ _ hdead => rw [if_neg hdead]; rfl

theorem retry_budget_demo : ∃ job,
    WithinBudget (demoRun ++ [⟨4, failAt demoQueue (.wallet 1) 0 0 "timeout" 5⟩])
      (ledgerAfter (demoRun ++ [⟨4, failAt demoQueue (.wallet 1) 0 0 "timeout" 5⟩]))
      (address (.job demoQueue 0)) job ∧ job.attempts = 1 ∧ job.status = .pending :=
  ⟨⟨demoQueue, 0, "email", [], .pending, 1, 1, 9, 1, 3, none, none, none, none, some "timeout", 255⟩,
    retry_budget (ledgerAfter_run (by decide)) (by decide), rfl, rfl⟩

end DecQueue.RetryBudget
