import DecQueue.Invariants

/-! # Counters

The counters of a queue are the numbers of its jobs by status. Since they are
exact, subtracting from `pending_count` never clamps, and of all checked
additions only the one on `job_count` can meet its limit. -/

namespace DecQueue.Conservation
open Kit.Fallible State Handlers Outcomes Address Program View Refinement Reachability Invariants

variable {K : Type}

/-! ### Where a handler reports an overflow -/

theorem resultFits_error {result : Option String} {e : JobQueueError}
    (h : resultFits result = .error e) : e = .resultTooLarge := by
  cases result with
  | none => cases h
  | some r => exact ((require_error_iff _ _ _).mp h).2.symm

theorem pushJob_error {page : JobIndex K} {jobId : Nat} {e : JobQueueError}
    (h : page.pushJob jobId = .error e) : e = .indexFull := by
  simp only [JobIndex.pushJob, bind_error_iff, require_error_iff, require_ok_iff] at h
  rcases h with ⟨_, rfl⟩ | ⟨_, _, h⟩
  · rfl
  · cases h

theorem completeJob_overflow [DecidableEq K] {clock : Int64} {queueKey worker : K} {queue : Queue K}
    {job : Job K} {result : Option String}
    (h : completeJob clock queueKey worker queue job result = .error .overflow) :
    job.status = .processing ∧ u64Max < queue.processedCount + 1 := by
  simp only [completeJob, bind_error_iff, require_error_iff, require_ok_iff, okOr_error_iff,
    checkedAdd_none_iff, okOr_ok_iff] at h
  rcases h with ⟨_, he⟩ | ⟨_, hs, ⟨_, he⟩ | ⟨_, _, he | ⟨_, _, ⟨hc, _⟩ | ⟨_, _, he⟩⟩⟩⟩
  · cases he
  · cases he
  · cases resultFits_error he
  · exact ⟨hs, hc⟩
  · cases he

theorem failJob_overflow [DecidableEq K] {clock : Int64} {queueKey worker : K} {queue : Queue K}
    {job : Job K} {page : JobIndex K} {errorMessage : String} {retryAfterSecs : Int64}
    (h : failJob clock queueKey worker queue job page errorMessage retryAfterSecs = .error .overflow) :
    job.status = .processing ∧ u64Max < queue.failedCount + 1 := by
  simp only [failJob, bind_error_iff, require_error_iff, require_ok_iff] at h
  rcases h with ⟨_, he⟩ | ⟨_, hs, ⟨_, he⟩ | ⟨_, _, ⟨_, he⟩ | ⟨_, _, h⟩⟩⟩
  · cases he
  · cases he
  · cases he
  · split at h
    · rcases (bind_error_iff _ _ _).mp h with he | ⟨_, _, he⟩
      · cases pushJob_error he
      · cases he
    · rcases (bind_error_iff _ _ _).mp h with he | ⟨_, _, he⟩
      · exact ⟨hs, (checkedAdd_none_iff _ _ _).mp ((okOr_error_iff _ _ _).mp he).1⟩
      · cases he

theorem growIndex_overflow [DecidableEq K] {authority queueKey : K} {newPageBump : Nat}
    {queue : Queue K} {head : QueueHead K} {tail : JobIndex K} {newSeq : Nat}
    (h : growIndex authority queueKey newPageBump queue head tail newSeq = .error .overflow) :
    u64Max < head.tailIndexSeq + 1 ∨ newSeq ≠ head.tailIndexSeq + 1 := by
  simp only [growIndex, bind_error_iff, require_error_iff, require_ok_iff, okOr_error_iff,
    checkedAdd_none_iff, okOr_ok_iff, checkedAdd_some_iff] at h
  rcases h with ⟨_, he⟩ | ⟨_, _, ⟨hc, _⟩ | ⟨_, ⟨_, rfl⟩, ⟨hne, _⟩ | ⟨_, _, ⟨_, he⟩ | ⟨_, _, he⟩⟩⟩⟩
  · cases he
  · exact .inl hc
  · exact .inr hne
  · cases he
  · cases he

/- `enqueue_job` reports `QueueFull` for either of the two counters of the
queue, and `Overflow` for `total_jobs` only. -/

theorem enqueueJob_queueFull {clock : Int64} {queueKey : K} {jobBump : Nat} {queue : Queue K}
    {head : QueueHead K} {tail : JobIndex K} {payload : Bytes} {jobType : String}
    {priority : Nat} {executeAfter : Int64}
    (h : enqueueJob clock queueKey jobBump queue head tail payload jobType priority executeAfter =
      .error .queueFull) :
    u64Max < queue.jobCount + 1 ∨ u64Max < queue.pendingCount + 1 := by
  simp only [enqueueJob, bind_error_iff, require_error_iff, require_ok_iff, okOr_error_iff,
    checkedAdd_none_iff, okOr_ok_iff, reduceCtorEq, and_false, false_or] at h
  obtain ⟨_, _, _, _, _, _, _, _, _, _, ⟨hc, _⟩ | ⟨_, _, ⟨hc, _⟩ | ⟨_, _, he | ⟨_, _, ⟨_, _, he⟩⟩⟩⟩⟩ := h
  · exact .inl hc
  · exact .inr hc
  · cases pushJob_error he
  · cases he

theorem enqueueJob_overflow {clock : Int64} {queueKey : K} {jobBump : Nat} {queue : Queue K}
    {head : QueueHead K} {tail : JobIndex K} {payload : Bytes} {jobType : String}
    {priority : Nat} {executeAfter : Int64}
    (h : enqueueJob clock queueKey jobBump queue head tail payload jobType priority executeAfter =
      .error .overflow) :
    queue.jobCount + 1 ≤ u64Max ∧ u64Max < head.totalJobs + 1 := by
  simp only [enqueueJob, bind_error_iff, require_error_iff, require_ok_iff, okOr_error_iff,
    checkedAdd_none_iff, okOr_ok_iff, checkedAdd_some_iff, reduceCtorEq, and_false, false_or] at h
  obtain ⟨_, _, _, _, _, _, _, _, _, _, _, ⟨hj, _⟩, _, _, he | ⟨_, _, ⟨hc, _⟩ | ⟨_, _, he⟩⟩⟩ := h
  · cases pushJob_error he
  · exact ⟨hj, hc⟩
  · cases he

/- A custom overflow of an instruction is that of its handler. -/

section
variable [DecidableEq K] [AddressDerivation K] {clock : Int64} {L : Ledger K} {e : JobQueueError}

theorem execCompleteJob_custom {ctx : CompleteJob K} {result : Option String}
    (h : exec clock L (.completeJob ctx result) = .error (.custom e)) :
    ∃ queue job, L ctx.queue = some (.queue queue) ∧ L ctx.job = some (.job job) ∧
      job.queue = ctx.queue ∧ completeJob clock ctx.queue ctx.worker queue job result = .error e := by
  simp only [exec, execCompleteJob, bind_error_iff, loadQueue_custom, loadJob_custom,
    require_error_iff, loadQueue_ok_iff, loadJob_ok_iff, require_ok_iff, lift_error_iff,
    false_or] at h
  rcases h with ⟨q, hq, j, hj, ⟨_, he⟩ | ⟨_, hown, ⟨c, hc, he⟩ | ⟨_, _, he⟩⟩⟩
  · cases he
  · cases he
    exact ⟨q, j, hq, hj, hown, hc⟩
  · cases he

theorem execFailJob_custom {ctx : FailJob K} {errorMessage : String} {retryAfterSecs : Int64}
    (h : exec clock L (.failJob ctx errorMessage retryAfterSecs) = .error (.custom e)) :
    e = .queueMismatch ∨ ∃ queue job page, L ctx.queue = some (.queue queue) ∧
      L ctx.job = some (.job job) ∧ job.queue = ctx.queue ∧
      failJob clock ctx.queue ctx.worker queue job page errorMessage retryAfterSecs = .error e := by
  simp only [exec, execFailJob, bind_error_iff, loadQueue_custom, loadJob_custom,
    loadJobIndex_custom, require_error_iff, loadQueue_ok_iff, loadJob_ok_iff, loadJobIndex_ok_iff,
    require_ok_iff, lift_error_iff, false_or] at h
  rcases h with ⟨q, hq, j, hj, p, _, ⟨_, he⟩ | ⟨_, hown, ⟨_, he⟩ | ⟨_, _, ⟨c, hc, he⟩ | ⟨_, _, he⟩⟩⟩⟩
  · cases he
  · cases he
    exact .inl rfl
  · cases he
    exact .inr ⟨q, j, p, hq, hj, hown, hc⟩
  · cases he

theorem execGrowIndex_custom {ctx : GrowIndex K} {newSeq : Nat}
    (h : exec clock L (.growIndex ctx newSeq) = .error (.custom e)) :
    ∃ queue head tail, L ctx.queueHead = some (.queueHead head) ∧
      growIndex ctx.authority ctx.queue (bumpOf (.index ctx.queue newSeq)) queue head tail newSeq =
        .error e := by
  simp only [exec, execGrowIndex, bind_error_iff, loadQueue_custom, loadQueueHead_custom,
    loadJobIndex_custom, checkInit_custom, checkSeeds_custom, loadQueue_ok_iff,
    loadQueueHead_ok_iff, loadJobIndex_ok_iff, lift_error_iff, false_or] at h
  rcases h with ⟨q, _, hd, hhd, p, _, _, _, _, _, _, _, ⟨c, hc, he⟩ | ⟨_, _, he⟩⟩
  · cases he
    exact ⟨q, hd, p, hhd, hc⟩
  · cases he

theorem execEnqueueJob_custom {ctx : EnqueueJob K} {payload : Bytes} {jobType : String}
    {priority : Nat} {executeAfter : Int64}
    (h : exec clock L (.enqueueJob ctx payload jobType priority executeAfter) =
      .error (.custom e)) :
    ∃ queue head tail, L ctx.queue = some (.queue queue) ∧
      L ctx.queueHead = some (.queueHead head) ∧
      AddressDerivation.createProgramAddress (.queueHead ctx.queue) head.bump = some ctx.queueHead ∧
      enqueueJob clock ctx.queue (bumpOf (.job ctx.queue queue.jobCount)) queue head tail payload
        jobType priority executeAfter = .error e := by
  simp only [exec, execEnqueueJob, bind_error_iff, loadQueue_custom, loadQueueHead_custom,
    loadJobIndex_custom, checkInit_custom, checkSeeds_custom, loadQueue_ok_iff,
    loadQueueHead_ok_iff, loadJobIndex_ok_iff, checkSeeds_ok_iff, lift_error_iff, false_or] at h
  rcases h with ⟨q, hq, hd, hhd, p, _, _, _, _, hseed, _, _, ⟨c, hc, he⟩ | ⟨_, _, he⟩⟩
  · cases he
    exact ⟨q, hd, p, hq, hhd, hseed, hc⟩
  · cases he

end

/-! ### Counters on a reachable ledger -/

/-- The counters of `Q`; `jobs` lists its Job accounts by id. -/
structure Conserved (L : Ledger K) (Q : K) [AddressDerivation K] (queue : Queue K) (head : QueueHead K)
    (jobs : List (Job K)) : Prop where
  jobAt : ∀ i, L (address (.job Q i)) = jobs[i]?.map .job
  ids : ∀ (i : Nat) job, jobs[i]? = some job → job.queue = Q ∧ job.jobId = i
  only : ∀ k job, L k = some (.job job) → job.queue = Q →
    job.jobId < queue.jobCount ∧ k = address (.job Q job.jobId)
  jobCount : queue.jobCount = jobs.length
  total : head.totalJobs = queue.jobCount
  pending : queue.pendingCount = tally active jobs
  processed : queue.processedCount = tally (· == .completed) jobs
  failed : queue.failedCount = tally (· == .failed) jobs
  sum : queue.jobCount = queue.pendingCount + queue.processedCount + queue.failedCount +
    tally (· == .cancelled) jobs

/-- No counter operation meets its limit, that on `job_count` apart. -/
structure Unclamped [DecidableEq K] [AddressDerivation K] (L : Ledger K) : Prop where
  /-- past the status guards of `complete_job`, `fail_job` and `cancel_job` -/
  saturatingSub : ∀ k job queue, L k = some (.job job) → L job.queue = some (.queue queue) →
    active job.status = true → 1 ≤ queue.pendingCount
  claim : ∀ k job, L k = some (.job job) → job.status = .pending →
    checkedAdd u8Max job.attempts 1 = some (job.attempts + 1)
  enqueue : ∀ clock ctx payload jobType priority executeAfter,
    exec clock L (.enqueueJob ctx payload jobType priority executeAfter) ≠ .error (.custom .overflow)
  enqueueFull : ∀ clock ctx payload jobType priority executeAfter,
    exec clock L (.enqueueJob ctx payload jobType priority executeAfter) = .error (.custom .queueFull) →
      ∃ queue, L ctx.queue = some (.queue queue) ∧ checkedAdd u64Max queue.jobCount 1 = none
  complete : ∀ clock ctx result,
    exec clock L (.completeJob ctx result) ≠ .error (.custom .overflow)
  fail : ∀ clock ctx errorMessage retryAfterSecs,
    exec clock L (.failJob ctx errorMessage retryAfterSecs) ≠ .error (.custom .overflow)
  /-- `grow_index` also says `Overflow` of a wrong sequence number -/
  grow : ∀ clock ctx newSeq, exec clock L (.growIndex ctx newSeq) = .error (.custom .overflow) →
    ∃ head, L ctx.queueHead = some (.queueHead head) ∧
      checkedAdd u64Max head.tailIndexSeq 1 = some (head.tailIndexSeq + 1) ∧
      newSeq ≠ head.tailIndexSeq + 1

section
variable [DecidableEq K] [AddressDerivation K] {L : Ledger K}

theorem conserved_of_reachable (hL : Reachable L) {Q : K} {v : QueueView K} (hv : Hosts L Q v) :
    Conserved L Q v.queue v.head v.jobs := by
  have hcounted := (reachable_inv hL hv).counted
  have hcount := hv.placed.jobCount
  refine ⟨hv.view.jobAt, fun i j hj => ?_, ?_, hcount, hcounted.total.trans hcount.symm,
    hcounted.pending, hcounted.processed, hcounted.failed, ?_⟩
  · obtain ⟨hq, hid, _⟩ := hv.placed.job i j hj
    exact ⟨hq, hid⟩
  · rintro k job hk rfl
    obtain ⟨w, hw, _, hkey, hj⟩ := reachable_job hL hk
    cases hv.unique hw
    rw [hcount]
    exact ⟨(List.getElem?_eq_some_iff.mp hj).1, hkey⟩
  · rw [hcount, hcounted.pending, hcounted.processed, hcounted.failed, tally_sum]

/-- A job that is not yet counted by a counter leaves room in it. -/
theorem processing_room (hL : Reachable L) {k : K} {job : Job K} {queue : Queue K}
    (hk : L k = some (.job job)) (hq : L job.queue = some (.queue queue))
    (hs : job.status = .processing) :
    queue.processedCount + 1 ≤ u64Max ∧ queue.failedCount + 1 ≤ u64Max := by
  obtain ⟨v, hv, hinv, _, hj⟩ := reachable_job hL hk
  cases Account.queue.inj (Option.some.inj (hv.view.queueAt.symm.trans hq))
  have h1 := tally_lt (f := (· == .completed)) hj (by simp [hs])
  have h2 := tally_lt (f := (· == .failed)) hj (by simp [hs])
  have hlimit := hinv.counted.limit
  rw [hinv.counted.processed, hinv.counted.failed]
  omega

theorem unclamped_of_reachable (hL : Reachable L) : Unclamped L := by
  have hwf := reachable_wellFormed hL
  refine ⟨?_, ?_, ?_, ?_, ?_, ?_, ?_⟩
  · intro k job queue hk hq ha
    obtain ⟨v, hv, hinv, _, hj⟩ := reachable_job hL hk
    cases Account.queue.inj (Option.some.inj (hv.view.queueAt.symm.trans hq))
    exact hinv.counted.pending_pos hj ha
  · intro k job hk hs
    obtain ⟨v, hv, hinv, _, hj⟩ := reachable_job hL hk
    have hsmall := (hinv.budget _ job hj).small
    exact (checkedAdd_some_iff ..).mpr ⟨by simp only [u8Max]; omega, rfl⟩
  · intro clock ctx payload jobType priority executeAfter h
    obtain ⟨queue, head, tail, hq, hhd, hseed, he⟩ := execEnqueueJob_custom h
    obtain ⟨hle, hlt⟩ := enqueueJob_overflow he
    obtain ⟨v, hv, rfl⟩ := hwf.queue hq
    obtain ⟨_, rfl⟩ := hwf.headOfSeeds hv hhd hseed
    have htotal := (conserved_of_reachable hL hv).total
    omega
  · intro clock ctx payload jobType priority executeAfter h
    obtain ⟨queue, head, tail, hq, _, _, he⟩ := execEnqueueJob_custom h
    refine ⟨queue, hq, (checkedAdd_none_iff ..).mpr ?_⟩
    obtain ⟨v, hv, rfl⟩ := hwf.queue hq
    have hsum := (conserved_of_reachable hL hv).sum
    rcases enqueueJob_queueFull he with hlt | hlt <;> omega
  · intro clock ctx result h
    obtain ⟨queue, job, hq, hj, hown, he⟩ := execCompleteJob_custom h
    obtain ⟨hs, hlt⟩ := completeJob_overflow he
    have hroom := (processing_room hL hj (hown ▸ hq) hs).1
    omega
  · intro clock ctx errorMessage retryAfterSecs h
    rcases execFailJob_custom h with he | ⟨queue, job, page, hq, hj, hown, he⟩
    · cases he
    · obtain ⟨hs, hlt⟩ := failJob_overflow he
      have hroom := (processing_room hL hj (hown ▸ hq) hs).2
      omega
  · intro clock ctx newSeq h
    obtain ⟨queue, head, tail, hhd, he⟩ := execGrowIndex_custom h
    obtain ⟨Q, v, hv, _, rfl⟩ := hwf.head hhd
    have hinv := reachable_inv hL hv
    obtain ⟨p, hp⟩ := hinv.linked.page le_rfl
    have hbound := hinv.filled.bounded hp hinv.budget hinv.counted.limit
    refine ⟨v.head, hhd, (checkedAdd_some_iff ..).mpr ⟨hbound, rfl⟩, ?_⟩
    rcases growIndex_overflow he with hlt | hne
    · omega
    · exact hne

theorem counters_conserved (hL : Reachable L) {Q : K} {queue : Queue K}
    (hQ : L Q = some (.queue queue)) :
    ∃ head jobs, L (address (.queueHead Q)) = some (.queueHead head) ∧
      Conserved L Q queue head jobs ∧ Unclamped L := by
  obtain ⟨v, hv, _, rfl⟩ := reachable_queue hL hQ
  exact ⟨v.head, v.jobs, hv.view.headAt, conserved_of_reachable hL hv, unclamped_of_reachable hL⟩

end

theorem counters_conserved_demo : ∃ head jobs,
    ledgerAfter demoRun (address (.queueHead demoQueue)) = some (.queueHead head) ∧
      Conserved (ledgerAfter demoRun) demoQueue demoAccount head jobs ∧
      Unclamped (ledgerAfter demoRun) :=
  counters_conserved demo_reachable demo_queue

end DecQueue.Conservation
