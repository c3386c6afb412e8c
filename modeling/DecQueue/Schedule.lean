import DecQueue.JobLife

/-! # The schedule of a job

A retry overwrites `execute_after`, with an earlier time if the worker asks
for one, so the stored field alone does not protect the schedule given at
enqueue. With a clock that never goes back the first claim does: it is not
early, and everything after it is later. -/

namespace DecQueue.Schedule
open Kit.Transition State Handlers Outcomes Address Program View Refinement Reachability Invariants
  JobLife

variable {K : Type} [DecidableEq K] [AddressDerivation K]

/-! ### Runs with a clock -/

/-- The ledger and the time of the last transaction; time does not go back. -/
def timedStep (s : Ledger K × Int64) (tx : Tx K) : Option (Ledger K × Int64) :=
  if s.2 ≤ tx.clock then (step s.1 tx).map fun L => (L, tx.clock) else none

theorem timedStep_some {s t : Ledger K × Int64} {tx : Tx K} :
    timedStep s tx = some t ↔ s.2 ≤ tx.clock ∧ step s.1 tx = some t.1 ∧ t.2 = tx.clock := by
  unfold timedStep
  split
  next h =>
    rw [Option.map_eq_some_iff]
    constructor
    · rintro ⟨L, hL, rfl⟩
      exact ⟨h, hL, rfl⟩
    · intro ⟨_, hL, ht⟩
      exact ⟨t.1, hL, Prod.ext rfl ht.symm⟩
  next h => simp [h]

def Chronological (txs : List (Tx K)) : Prop := txs.Pairwise fun a b => a.clock ≤ b.clock

theorem run_timed {txs : List (Tx K)} {L L' : Ledger K} {now : Int64} (hclock : Chronological txs)
    (hnow : ∀ tx ∈ txs, now ≤ tx.clock) (hrun : run step L txs = some L') :
    ∃ now', run timedStep (L, now) txs = some (L', now') := by
  induction txs generalizing L now with
  | nil =>
    cases hrun
    exact ⟨now, rfl⟩
  | cons tx txs ih =>
    obtain ⟨M, hM, hrest⟩ := run_cons.mp hrun
    obtain ⟨hfirst, hclock⟩ := List.pairwise_cons.mp hclock
    obtain ⟨now', hrun'⟩ := ih hclock hfirst hrest
    exact ⟨now', run_cons.mpr
      ⟨(M, tx.clock), timedStep_some.mpr ⟨hnow tx (List.mem_cons_self ..), hM, rfl⟩, hrun'⟩⟩

/-! ### The invariant of a scheduled job -/

/-- The job at `k` waits for its first schedule, or that time has come. -/
def Scheduled (k : K) (createdAt scheduledAt : Int64) (s : Ledger K × Int64) : Prop :=
  WellFormed s.1 ∧ ∃ job, s.1 k = some (.job job) ∧ job.createdAt = createdAt ∧
    ((job.status ≠ .processing ∧ job.executeAfter = scheduledAt) ∨ scheduledAt ≤ s.2)

theorem scheduled_step {k : K} {createdAt scheduledAt : Int64} (s : Ledger K × Int64) (tx : Tx K)
    (t : Ledger K × Int64) (h : Scheduled k createdAt scheduledAt s) (hstep : timedStep s tx = some t) :
    Scheduled k createdAt scheduledAt t := by
  obtain ⟨hwf, j, hk, hcreated, hor⟩ := h
  obtain ⟨hclock, hledger, htime⟩ := timedStep_some.mp hstep
  obtain ⟨queue, j', _, hk', hs⟩ := job_step hwf hk hledger
  refine ⟨wellFormed_step _ tx _ hwf hledger, j', hk', ?_⟩
  rw [htime]
  rcases hor with ⟨hstatus, hafter⟩ | hpast
  · generalize tx.ix = ix at hs
    cases hs with
    | other => exact ⟨hcreated, .inl ⟨hstatus, hafter⟩⟩
    | claim _ _ _ hready => exact ⟨hcreated, .inr (hafter ▸ hready)⟩
    | complete _ _ hprocessing => exact absurd hprocessing hstatus
    | retry _ _ _ _ hmay => exact absurd hmay.1 hstatus
    | deadLetter _ _ _ _ hmay => exact absurd hmay.1 hstatus
    | cancel => exact ⟨hcreated, .inl ⟨nofun, hafter⟩⟩
  · have hlate := Int64.le_trans hpast hclock
    have hkeep : j'.createdAt = j.createdAt := by
      generalize tx.ix = ix at hs
      cases hs <;> rfl
    exact ⟨hkeep.trans hcreated, .inr hlate⟩

/-- `enq` creates the job that `claim` takes, any number of retries later. -/
theorem schedule_respected (pre : List (Tx K)) (enq : Tx K) (mid : List (Tx K)) (claim : Tx K)
    {L : Ledger K} (hrun : run step genesis (pre ++ enq :: (mid ++ [claim])) = some L)
    (hclock : Chronological (pre ++ enq :: (mid ++ [claim]))) {ctx : EnqueueJob K} {payload : Bytes}
    {jobType : String} {priority : Nat} {executeAfter : Int64}
    (henq : enq.ix = .enqueueJob ctx payload jobType priority executeAfter) {worker page : K}
    (hclaim : claim.ix = .claimJob ⟨ctx.job, worker, page⟩) :
    ∃ job, L ctx.job = some (.job job) ∧ (executeAfter ≠ 0 → executeAfter ≤ claim.clock) ∧
      (executeAfter = 0 → job.createdAt ≤ claim.clock) := by
  obtain ⟨L₀, hpre, hfrom⟩ := run_append.mp hrun
  obtain ⟨L₁, hstep, hrest⟩ := run_cons.mp hfrom
  obtain ⟨henqueue, hlater⟩ := List.pairwise_cons.mp (List.pairwise_append.mp hclock).2.1
  have hwf : WellFormed L₀ := reachable_wellFormed ⟨pre, hpre⟩
  obtain ⟨enqClock, ix⟩ := enq
  obtain ⟨claimClock, ix'⟩ := claim
  cases henq
  cases hclaim
  obtain ⟨_, queue, bump, _, hjob⟩ := enqueue_creates hwf hstep
  have hstart : Scheduled ctx.job enqClock (if executeAfter = 0 then enqClock else executeAfter)
      (L₁, enqClock) :=
    ⟨wellFormed_step _ _ _ hwf hstep, _, hjob, rfl, .inl ⟨nofun, rfl⟩⟩
  obtain ⟨now, htimed⟩ := run_timed hlater henqueue hrest
  obtain ⟨s, hmid, hlast⟩ := run_snoc.mp htimed
  have hbefore := run_invariant scheduled_step hstart hmid
  obtain ⟨_, job, hk, hcreated, hor⟩ := scheduled_step s _ _ hbefore hlast
  obtain ⟨_, hledger, htime⟩ := timedStep_some.mp hlast
  have hheld : statusAt L ctx.job = some .processing := by
    obtain ⟨hwf', j, hj, _⟩ := hbefore
    obtain ⟨_, j', _, hk', hs⟩ := job_step hwf' hj hledger
    rw [statusAt_job hk']
    cases hs with
    | other hne => exact absurd rfl hne
    | claim => rfl
  have hpast : (if executeAfter = 0 then enqClock else executeAfter) ≤ claimClock := by
    rcases hor with ⟨hne, _⟩ | hpast
    · rw [statusAt_job hk] at hheld
      exact absurd (Option.some.inj hheld) hne
    · have hnow : now = claimClock := htime
      exact hnow ▸ hpast
  refine ⟨job, hk, fun hne => ?_, fun he => ?_⟩
  · rwa [if_neg hne] at hpast
  · rw [if_pos he] at hpast
    rwa [hcreated]

theorem schedule_respected_demo : ∃ job,
    ledgerAfter
        [⟨0, initializeAt (.wallet 0) "jobs" 3⟩,
          ⟨1, enqueueAt demoQueue (.wallet 5) 0 0 [] "email" 1 50⟩,
          ⟨60, claimAt demoQueue (.wallet 1) 0 0⟩,
          ⟨60, failAt demoQueue (.wallet 1) 0 0 "timeout" (-40)⟩,
          ⟨60, claimAt demoQueue (.wallet 2) 0 0⟩] (address (.job demoQueue 0)) =
        some (.job job) ∧
      ((50 : Int64) ≠ 0 → (50 : Int64) ≤ 60) ∧ ((50 : Int64) = 0 → job.createdAt ≤ 60) :=
  schedule_respected [⟨0, initializeAt (.wallet 0) "jobs" 3⟩]
    ⟨1, enqueueAt demoQueue (.wallet 5) 0 0 [] "email" 1 50⟩
    [⟨60, claimAt demoQueue (.wallet 1) 0 0⟩,
      ⟨60, failAt demoQueue (.wallet 1) 0 0 "timeout" (-40)⟩]
    ⟨60, claimAt demoQueue (.wallet 2) 0 0⟩
    (ledgerAfter_run (by decide)) (by unfold Chronological; decide) rfl rfl

end DecQueue.Schedule
