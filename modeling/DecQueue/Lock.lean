import DecQueue.JobLife

/-! # The claim lock

Between a claim and the next change of status the job belongs to the worker
that signed the claim: nobody claims it again, nobody else completes or fails
it, and only that worker or the authority of the queue ends the attempt. -/

namespace DecQueue.Lock
open Kit.Transition State Handlers Outcomes Address Program View Refinement Reachability Invariants
  JobLife

variable {K : Type}

/-- The instructions that may end an attempt of `w` at the job `k`. -/
inductive Releases (k w authority : K) : Instruction K → Prop where
  | complete (queue : K) (result : Option String) :
      Releases k w authority (.completeJob ⟨queue, k, w⟩ result)
  | fail (queue page : K) (errorMessage : String) (retryAfterSecs : Int64) :
      Releases k w authority (.failJob ⟨queue, k, w, page⟩ errorMessage retryAfterSecs)
  | cancel (queue page : K) : Releases k w authority (.cancelJob ⟨queue, k, authority, page⟩)

def Held (L : Ledger K) (k w : K) : Prop :=
  ∃ job, L k = some (.job job) ∧ job.status = .processing ∧ job.worker = some w

theorem held_iff {L : Ledger K} {k w : K} {job : Job K} (h : L k = some (.job job)) :
    Held L k w ↔ job.status = .processing ∧ job.worker = some w := by
  constructor
  · intro ⟨job', hk, hheld⟩
    cases h.symm.trans hk
    exact hheld
  · exact fun hheld => ⟨job, h, hheld⟩

instance [DecidableEq K] (L : Ledger K) (k w : K) : Decidable (Held L k w) :=
  match h : L k with
  | some (.job _) => decidable_of_iff _ (held_iff h).symm
  | some (.queue _) | some (.queueHead _) | some (.jobIndex _) | none =>
      isFalse fun ⟨_, hk, _⟩ => nomatch h.symm.trans hk

variable [DecidableEq K] [AddressDerivation K]

structure ClaimLock (L : Ledger K) (k w : K) : Prop where
  held : Held L k w
  noClaim : ∀ clock w' page, step L ⟨clock, .claimJob ⟨k, w', page⟩⟩ = none
  complete : ∀ clock queue w' result L',
    step L ⟨clock, .completeJob ⟨queue, k, w'⟩ result⟩ = some L' → w' = w
  fail : ∀ clock queue w' page errorMessage retryAfterSecs L',
    step L ⟨clock, .failJob ⟨queue, k, w', page⟩ errorMessage retryAfterSecs⟩ = some L' → w' = w
  release : ∀ tx L', step L tx = some L' → statusAt L' k ≠ some .processing →
    ∃ job queue, L k = some (.job job) ∧ L job.queue = some (.queue queue) ∧
      Releases k w queue.authority tx.ix

variable {L L' : Ledger K} {k w : K} {tx : Tx K}

theorem held_of_claim {clock : Int64} {page : K} (hL : WellFormed L)
    (h : step L ⟨clock, .claimJob ⟨k, w, page⟩⟩ = some L') : Held L' k w := by
  obtain ⟨j, hj⟩ := exists_of_worksOn (k := k) hL h rfl
  obtain ⟨queue, j', _, hk', hs⟩ := job_step hL hj h
  cases hs with
  | other hne => exact absurd rfl hne
  | claim => exact ⟨_, hk', rfl, rfl⟩

/-- A job is held after a step because it was held before, or because the
step claims it. -/
theorem held_before (hL : WellFormed L) (h : step L tx = some L') (hheld : Held L' k w) :
    (Held L k w ∧ attemptsAt L' k = attemptsAt L k) ∨ ∃ page, tx.ix = .claimJob ⟨k, w, page⟩ := by
  obtain ⟨j', hk', hstatus, hworker⟩ := hheld
  obtain ⟨j, hk⟩ | ⟨_, _, _, _, _, _, _, _, _, _, _, rfl⟩ := job_origin hL h hk'
  · obtain ⟨_, j'', _, hk'', hs⟩ := job_step hL hk h
    cases hk'.symm.trans hk''
    rw [attemptsAt_job hk, attemptsAt_job hk']
    generalize tx.ix = ix at hs ⊢
    cases hs with
    | other => exact .inl ⟨⟨_, hk, hstatus, hworker⟩, rfl⟩
    | claim worker page =>
      cases hworker
      exact .inr ⟨page, rfl⟩
    | complete | retry | deadLetter | cancel => cases hstatus
  · cases hstatus

theorem held_step (hL : WellFormed L) (hheld : Held L k w) (h : step L tx = some L')
    (hstill : statusAt L' k = some .processing) : Held L' k w := by
  obtain ⟨j, hk, hstatus, hworker⟩ := hheld
  obtain ⟨queue, j', _, hk', hs⟩ := job_step hL hk h
  rw [statusAt_job hk'] at hstill
  generalize tx.ix = ix at hs
  cases hs with
  | other => exact ⟨_, hk', hstatus, hworker⟩
  | claim _ _ hpending => cases hpending.symm.trans hstatus
  | complete | retry | deadLetter | cancel => cases hstill

theorem held_releases (hL : WellFormed L) (hheld : Held L k w) (h : step L tx = some L')
    (hleft : statusAt L' k ≠ some .processing) :
    ∃ job queue, L k = some (.job job) ∧ L job.queue = some (.queue queue) ∧
      Releases k w queue.authority tx.ix := by
  obtain ⟨j, hk, hstatus, hworker⟩ := hheld
  obtain ⟨queue, j', hq, hk', hs⟩ := job_step hL hk h
  refine ⟨j, queue, hk, hq, ?_⟩
  rw [statusAt_job hk'] at hleft
  generalize tx.ix = ix at hs
  cases hs with
  | other => exact absurd (congrArg some hstatus) hleft
  | claim _ _ hpending => cases hpending.symm.trans hstatus
  | complete _ _ _ hw =>
    cases hworker.symm.trans hw
    exact .complete ..
  | retry _ _ _ _ hmay =>
    cases hworker.symm.trans hmay.2.1
    exact .fail ..
  | deadLetter _ _ _ _ hmay =>
    cases hworker.symm.trans hmay.2.1
    exact .fail ..
  | cancel => exact .cancel ..

theorem claimLock_of_held (hL : WellFormed L) (hheld : Held L k w) : ClaimLock L k w := by
  have ⟨j, hk, hstatus, hworker⟩ := hheld
  refine ⟨hheld, ?_, ?_, ?_, fun tx L' h hleft => held_releases hL hheld h hleft⟩
  · intro clock w' page
    by_contra hne
    obtain ⟨L', h⟩ := Option.ne_none_iff_exists'.mp hne
    obtain ⟨queue, j', _, _, hs⟩ := job_step hL hk h
    cases hs with
    | other hne => exact hne rfl
    | claim _ _ hpending => cases hpending.symm.trans hstatus
  · intro clock queue w' result L' h
    obtain ⟨queue, j', _, _, hs⟩ := job_step hL hk h
    cases hs with
    | other hne => exact absurd rfl hne
    | complete _ _ _ hw => exact (Option.some.inj (hworker.symm.trans hw)).symm
  · intro clock queue w' page errorMessage retryAfterSecs L' h
    obtain ⟨queue, j', _, _, hs⟩ := job_step hL hk h
    cases hs with
    | other hne => exact absurd rfl hne
    | retry _ _ _ _ hmay => exact (Option.some.inj (hworker.symm.trans hmay.2.1)).symm
    | deadLetter _ _ _ _ hmay => exact (Option.some.inj (hworker.symm.trans hmay.2.1)).symm

theorem claim_lock (hL : Reachable L) {clock : Int64} {page : K} {L₁ L₂ : Ledger K}
    (hclaim : step L ⟨clock, .claimJob ⟨k, w, page⟩⟩ = some L₁) {txs : List (Tx K)}
    (hrun : run step L₁ txs = some L₂)
    (hproc : Throughout step (fun M => statusAt M k = some .processing) L₁ txs) :
    ClaimLock L₂ k w := by
  have hwf := reachable_wellFormed hL
  have hwf₁ := wellFormed_step L _ L₁ hwf hclaim
  have hkeep := run_while (Q := fun M => WellFormed M ∧ Held M k w)
    (fun M tx M' hM _ hP h => ⟨wellFormed_step M tx M' hM.1 h, held_step hM.1 hM.2 h hP⟩)
    ⟨hwf₁, held_of_claim hwf hclaim⟩ hproc hrun
  exact claimLock_of_held hkeep.1 hkeep.2

theorem claim_lock_demo :
    ClaimLock (ledgerAfter (demoRun ++ [⟨4, claimAt demoQueue (.wallet 2) 1 0⟩]))
      (address (.job demoQueue 0)) (.wallet 1) := by
  have hnext : (run step genesis (demoRun ++ [⟨4, claimAt demoQueue (.wallet 2) 1 0⟩])).isSome =
      true := by decide
  refine claim_lock (ledgerAfter_reachable demoStart_accepted) (ledgerAfter_step demoRun_accepted)
    (ledgerAfter_extend hnext) (throughout_cons.mpr ⟨by decide, fun M hM => throughout_nil.mpr ?_⟩)
  rw [← Option.some.inj ((ledgerAfter_step hnext).symm.trans hM)]
  decide

end DecQueue.Lock
