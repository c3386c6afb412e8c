import DecQueue.Invariants

/-! # One job under any instruction

Seen from one Job account an accepted transaction is one of six things: it
works on something else, or it claims, completes, retries, dead-letters or
cancels this job. `JobStep` says so with the guards that were passed; what is
proved about the life of a job over whole runs is proved by cases on it. -/

namespace DecQueue.JobLife
open Kit.Lists State Handlers Outcomes Address Program View Refinement Reachability Invariants

variable {K : Type}

def worksOn : Instruction K → Option K
  | .claimJob ctx => some ctx.job
  | .completeJob ctx _ => some ctx.job
  | .failJob ctx _ _ => some ctx.job
  | .cancelJob ctx => some ctx.job
  | .initializeQueue _ _ _ | .growIndex _ _ | .advanceHead _ | .enqueueJob _ _ _ _ _
  | .setQueuePaused _ _ => none

/-- `j` at address `k` becomes `j'`; `authority` is that of its queue. -/
inductive JobStep (k : K) (clock : Int64) (authority : K) : Instruction K → Job K → Job K → Prop where
  | other {ix : Instruction K} {j : Job K} (h : worksOn ix ≠ some k) :
      JobStep k clock authority ix j j
  | claim {j : Job K} (worker page : K) (hstatus : j.status = .pending)
      (hready : j.executeAfter ≤ clock) :
      JobStep k clock authority (.claimJob ⟨k, worker, page⟩) j (locked clock worker j)
  | complete {j : Job K} (worker : K) (result : Option String) (hstatus : j.status = .processing)
      (hworker : j.worker = some worker) :
      JobStep k clock authority (.completeJob ⟨j.queue, k, worker⟩ result) j
        (finished clock result j)
  | retry {j : Job K} (worker page : K) (errorMessage : String) (retryAfterSecs : Int64)
      (hmay : MayFail worker j errorMessage) (hretry : j.attempts < j.maxRetries) :
      JobStep k clock authority (.failJob ⟨j.queue, k, worker, page⟩ errorMessage retryAfterSecs) j
        (retried clock errorMessage retryAfterSecs j)
  | deadLetter {j : Job K} (worker page : K) (errorMessage : String) (retryAfterSecs : Int64)
      (hmay : MayFail worker j errorMessage) (hdead : ¬j.attempts < j.maxRetries) :
      JobStep k clock authority (.failJob ⟨j.queue, k, worker, page⟩ errorMessage retryAfterSecs) j
        (deadLettered clock errorMessage j)
  | cancel {j : Job K} (page : K) (hstatus : j.status = .pending ∨ j.status = .processing) :
      JobStep k clock authority (.cancelJob ⟨j.queue, k, authority, page⟩) j (cancelled clock j)

theorem jobStep_other {k authority : K} {clock : Int64} {ix : Instruction K} {j j' : Job K}
    (h : JobStep k clock authority ix j j') (hk : worksOn ix ≠ some k) : j' = j := by
  cases h with
  | other => rfl
  | claim | complete | retry | deadLetter | cancel => exact absurd rfl hk

section
variable [AddressDerivation K] {Q : K} {clock : Int64} {ix : Instruction K} {v v' : QueueView K}
  {evs : List (Event K)} {i : Nat} {j : Job K}

theorem other_of_ne {k authority : K} {t : Nat} {r r' : Job K} (hj : v.jobs[i]? = some j)
    (hr : v.jobs[t]? = some r) (hix : worksOn ix = some (address (.job Q t))) (hti : i ≠ t)
    (hk : k = address (.job Q i)) :
    (v.jobs.set t r')[i]? = some j ∧ JobStep k clock authority ix j j := by
  refine ⟨by rw [getElem?_set_of_some r' hr, if_neg hti, hj], .other fun he => hti ?_⟩
  rw [hix, hk] at he
  exact (Seeds.job.inj (address_injective (Option.some.inj he))).2.symm

theorem view_job_step (hj : v.jobs[i]? = some j) (hown : j.queue = Q)
    (h : QueueStep Q clock ix v v' evs) :
    ∃ j', v'.jobs[i]? = some j' ∧
      JobStep (address (.job Q i)) clock v.queue.authority ix j j' := by
  subst hown
  cases h with
  | growIndex | advanceHead | setQueuePaused => exact ⟨j, hj, .other nofun⟩
  | enqueueJob =>
    refine ⟨j, ?_, .other nofun⟩
    rw [List.getElem?_append_left (List.getElem?_eq_some_iff.mp hj).1, hj]
  | @claimJob v t s r p p' worker hjob hpage hstatus hready hremove =>
    by_cases ht : i = t
    · subst ht
      cases hj.symm.trans hjob
      exact ⟨_, (getElem?_set_of_some _ hj i).trans (if_pos rfl), .claim worker _ hstatus hready⟩
    · exact ⟨j, other_of_ne hj hjob rfl ht rfl⟩
  | @completeJob v t r worker result hjob hstatus hworker hresult hcount =>
    by_cases ht : i = t
    · subst ht
      cases hj.symm.trans hjob
      exact ⟨_, (getElem?_set_of_some _ hj i).trans (if_pos rfl), .complete worker result hstatus hworker⟩
    · exact ⟨j, other_of_ne hj hjob rfl ht rfl⟩
  | @retryJob v t s r p worker errorMessage retryAfterSecs hjob hpage hretry hmay hroom =>
    by_cases ht : i = t
    · subst ht
      cases hj.symm.trans hjob
      exact ⟨_, (getElem?_set_of_some _ hj i).trans (if_pos rfl),
        .retry worker _ errorMessage retryAfterSecs hmay hretry⟩
    · exact ⟨j, other_of_ne hj hjob rfl ht rfl⟩
  | @deadLetter v t s r p worker errorMessage retryAfterSecs hjob hpage hdead hmay hcount =>
    by_cases ht : i = t
    · subst ht
      cases hj.symm.trans hjob
      exact ⟨_, (getElem?_set_of_some _ hj i).trans (if_pos rfl),
        .deadLetter worker _ errorMessage retryAfterSecs hmay hdead⟩
    · exact ⟨j, other_of_ne hj hjob rfl ht rfl⟩
  | @cancelJob v t s r p p' hjob hpage hstatus hremove =>
    by_cases ht : i = t
    · subst ht
      cases hj.symm.trans hjob
      exact ⟨_, (getElem?_set_of_some _ hj i).trans (if_pos rfl), .cancel _ hstatus⟩
    · exact ⟨j, other_of_ne hj hjob rfl ht rfl⟩

theorem worksOn_step {k : K} (h : QueueStep Q clock ix v v' evs) (hk : worksOn ix = some k) :
    ∃ t j, k = address (.job Q t) ∧ v.jobs[t]? = some j := by
  cases h with
  | growIndex | advanceHead | setQueuePaused | enqueueJob => cases hk
  | claimJob worker hjob => exact ⟨_, _, (Option.some.inj hk).symm, hjob⟩
  | completeJob worker result hjob => exact ⟨_, _, (Option.some.inj hk).symm, hjob⟩
  | retryJob worker errorMessage retryAfterSecs hjob =>
    exact ⟨_, _, (Option.some.inj hk).symm, hjob⟩
  | deadLetter worker errorMessage retryAfterSecs hjob =>
    exact ⟨_, _, (Option.some.inj hk).symm, hjob⟩
  | cancelJob hjob => exact ⟨_, _, (Option.some.inj hk).symm, hjob⟩

omit [AddressDerivation K] in
theorem exists_of_set {jobs : List (Job K)} {t : Nat} {r r' : Job K} (h : (jobs.set t r)[i]? = some r') :
    ∃ r, jobs[i]? = some r := by
  have hlt := (List.getElem?_eq_some_iff.mp h).1
  rw [List.length_set] at hlt
  exact ⟨jobs[i], List.getElem?_eq_getElem hlt⟩

theorem view_job_origin {j' : Job K} (hq : Placed Q v) (h : QueueStep Q clock ix v v' evs)
    (hj' : v'.jobs[i]? = some j') :
    (∃ j, v.jobs[i]? = some j) ∨
      (v.jobs[i]? = none ∧ ∃ ctx payload jobType priority executeAfter,
        ix = .enqueueJob ctx payload jobType priority executeAfter ∧ ctx.queue = Q ∧
          ctx.job = address (.job Q i) ∧
          j' = enqueued clock Q (bumpOf (.job Q i)) v.queue payload jobType priority executeAfter) := by
  cases h with
  | growIndex | advanceHead | setQueuePaused => exact .inl ⟨j', hj'⟩
  | claimJob | completeJob | retryJob | deadLetter | cancelJob => exact .inl (exists_of_set hj')
  | @enqueueJob v tail payer payload jobType priority executeAfter =>
    rw [getElem?_concat hq.jobCount.symm] at hj'
    split at hj'
    next hi =>
      cases hj'
      refine .inr ⟨?_, _, payload, jobType, priority, executeAfter, rfl, rfl, by rw [hi], by rw [hi]⟩
      rw [hi, hq.jobCount]
      exact List.getElem?_eq_none le_rfl
    next => exact .inl ⟨j', hj'⟩

end

/-! ### On the ledger -/

def statusAt (L : Ledger K) (k : K) : Option JobStatus :=
  match L k with
  | some (.job job) => some job.status
  | _ => none

theorem statusAt_job {L : Ledger K} {k : K} {job : Job K} (h : L k = some (.job job)) :
    statusAt L k = some job.status := by
  simp only [statusAt, h]

def attemptsAt (L : Ledger K) (k : K) : Nat :=
  match L k with
  | some (.job job) => job.attempts
  | _ => 0

theorem attemptsAt_job {L : Ledger K} {k : K} {job : Job K} (h : L k = some (.job job)) :
    attemptsAt L k = job.attempts := by
  simp only [attemptsAt, h]

section
variable [DecidableEq K] [AddressDerivation K] {L L' : Ledger K} {tx : Tx K} {k : K}

theorem job_step {j : Job K} (hL : WellFormed L) (hk : L k = some (.job j))
    (h : step L tx = some L') :
    ∃ queue j', L j.queue = some (.queue queue) ∧ L' k = some (.job j') ∧
      JobStep k tx.clock queue.authority tx.ix j j' := by
  obtain ⟨v, i, hv, hkey, hj⟩ := hL.job hk
  obtain ⟨evs, heff⟩ := effect_of_step hL h
  refine ⟨v.queue, ?_⟩
  cases heff.effectAt j.queue with
  | created _ _ _ _ hfree => exact absurd hv (hfree v)
  | stepped hw hw' hstep =>
    cases hv.unique hw
    obtain ⟨j', hj', hs⟩ := view_job_step hj rfl hstep
    exact ⟨j', hv.view.queueAt, hkey ▸ hw'.job hj', hkey ▸ hs⟩
  | untouched hsame hno =>
    refine ⟨j, hv.view.queueAt, hkey ▸ ((hsame v).mpr hv).job hj, .other fun hwork => ?_⟩
    generalize tx.ix = ix at hno hwork
    cases hno with
    | create => cases hwork
    | other hne _ hstep =>
      obtain ⟨t, _, ht, _⟩ := worksOn_step hstep hwork
      exact hne (Seeds.job.inj (address_injective (hkey.symm.trans ht))).1

theorem exists_of_worksOn (hL : WellFormed L) (h : step L tx = some L')
    (hwork : worksOn tx.ix = some k) : ∃ j, L k = some (.job j) := by
  obtain ⟨evs, heff⟩ := effect_of_step hL h
  generalize tx.ix = ix at heff hwork
  cases heff with
  | create => cases hwork
  | @act Q v v' _ _ hv hstep hnew =>
    obtain ⟨t, j, rfl, hj⟩ := worksOn_step hstep hwork
    exact ⟨j, hv.job hj⟩

theorem job_origin {j' : Job K} (hL : WellFormed L) (h : step L tx = some L')
    (hk : L' k = some (.job j')) :
    (∃ j, L k = some (.job j)) ∨
      (L k = none ∧ ∃ ctx payload jobType priority executeAfter queue,
        tx.ix = .enqueueJob ctx payload jobType priority executeAfter ∧ ctx.job = k ∧
          L ctx.queue = some (.queue queue) ∧
          ∃ bump, j' = enqueued tx.clock ctx.queue bump queue payload jobType priority executeAfter) := by
  obtain ⟨v', i, hv', rfl, hj'⟩ := (wellFormed_step L tx L' hL h).job hk
  obtain ⟨evs, heff⟩ := effect_of_step hL h
  rcases heff.backward hv' with ⟨a, n, m, _, rfl⟩ | ⟨w, hw, rfl | hstep⟩
  · simp [initial] at hj'
  · exact .inl ⟨j', hw.job hj'⟩
  · rcases view_job_origin hw.placed hstep hj' with ⟨j, hj⟩ |
      ⟨hnone, ctx, payload, jobType, priority, executeAfter, hix, hqueue, hjob, he⟩
    · exact .inl ⟨j, hw.job hj⟩
    · refine .inr ⟨?_, ctx, payload, jobType, priority, executeAfter, w.queue, hix, hjob, ?_,
        bumpOf (.job j'.queue i), ?_⟩
      · rw [hw.view.jobAt, hnone, Option.map_none]
      · rw [hqueue]
        exact hw.view.queueAt
      · rw [hqueue]
        exact he

theorem enqueue_creates {clock : Int64} {ctx : EnqueueJob K} {payload : Bytes} {jobType : String}
    {priority : Nat} {executeAfter : Int64} (hL : WellFormed L)
    (h : step L ⟨clock, .enqueueJob ctx payload jobType priority executeAfter⟩ = some L') :
    L ctx.job = none ∧ ∃ queue bump, L ctx.queue = some (.queue queue) ∧ L' ctx.job =
      some (.job (enqueued clock ctx.queue bump queue payload jobType priority executeAfter)) := by
  obtain ⟨evs, heff⟩ := effect_of_step hL h
  cases heff with
  | @act Q v v' _ _ hv hstep hnew =>
    cases hstep with
    | @enqueueJob v tail payer payload jobType priority executeAfter =>
      have hcount := hv.placed.jobCount
      refine ⟨?_, v.queue, bumpOf (.job Q v.queue.jobCount), hv.view.queueAt, ?_⟩
      · rw [hv.view.jobAt, hcount, List.getElem?_eq_none le_rfl, Option.map_none]
      · rw [hnew.view.jobAt, getElem?_concat hcount.symm, if_pos rfl, Option.map_some]

end

end DecQueue.JobLife
