import DecQueue.Handlers

/-! # When a handler succeeds and what it leaves

One equivalence for each handler: its guards on the left of the data it
returns. Everything that is proved about runs of the program goes through
these; no later proof unfolds a handler. -/

namespace DecQueue.Outcomes
open Kit.Fallible State Handlers

variable {K : Type}

/-! ### The job record after each instruction

`claim_job` leaves `locked`, `complete_job` leaves `finished`; `fail_job`
leaves `retried` while attempts remain and `deadLettered` after the last one,
`cancel_job` leaves `cancelled`. -/

def locked (clock : Int64) (worker : K) (job : Job K) : Job K :=
  { job with
    status := .processing
    worker := some worker
    startedAt := some clock
    attempts := (checkedAdd u8Max job.attempts 1).getD u8Max }

def finished (clock : Int64) (result : Option String) (job : Job K) : Job K :=
  { job with status := .completed, completedAt := some clock, result := result }

def retried (clock : Int64) (errorMessage : String) (retryAfterSecs : Int64) (job : Job K) : Job K :=
  { job with
    errorMessage := some errorMessage
    status := .pending
    worker := none
    startedAt := none
    executeAfter := clock + backoff job.attempts retryAfterSecs }

def deadLettered (clock : Int64) (errorMessage : String) (job : Job K) : Job K :=
  { job with errorMessage := some errorMessage, status := .failed, completedAt := some clock }

def cancelled (clock : Int64) (job : Job K) : Job K :=
  { job with status := .cancelled, completedAt := some clock }

def enqueued (clock : Int64) (queueKey : K) (jobBump : Nat) (queue : Queue K) (payload : Bytes)
    (jobType : String) (priority : Nat) (executeAfter : Int64) : Job K :=
  { queue := queueKey, jobId := queue.jobCount, jobType := jobType, payload := payload,
    status := .pending, priority := priority, createdAt := clock,
    executeAfter := if executeAfter = 0 then clock else executeAfter,
    attempts := 0, maxRetries := queue.maxRetries, worker := none, startedAt := none,
    completedAt := none, result := none, errorMessage := none, bump := jobBump }

/-! ### Success conditions -/

theorem initializeQueue_ok_iff (clock : Int64) (authority queueKey : K)
    (queueBump headBump pageBump : Nat) (queueName : String) (maxRetries : Nat)
    (r : Queue K × QueueHead K × JobIndex K × Event K) :
    initializeQueue clock authority queueKey queueBump headBump pageBump queueName maxRetries = .ok r ↔
      (0 < queueName.utf8ByteSize ∧ queueName.utf8ByteSize ≤ 32) ∧ maxRetries ≤ 10 ∧
        (⟨authority, queueName, 0, 0, 0, 0, maxRetries, false, clock, queueBump⟩,
          ⟨authority, 0, 0, 0, headBump⟩, ⟨queueKey, 0, 0, [], pageBump⟩,
          .queueCreated authority queueName clock) = r := by
  simp only [initializeQueue, bind_ok_iff, require_ok_iff, pure_ok_iff, exists_const]

theorem growIndex_ok_iff [DecidableEq K] (authority queueKey : K) (newPageBump : Nat) (queue : Queue K)
    (head : QueueHead K) (tail : JobIndex K) (newSeq : Nat)
    (r : QueueHead K × JobIndex K × JobIndex K) :
    growIndex authority queueKey newPageBump queue head tail newSeq = .ok r ↔
      authority = queue.authority ∧ head.tailIndexSeq + 1 ≤ u64Max ∧
        newSeq = head.tailIndexSeq + 1 ∧ maxIndexEntries ≤ tail.jobIds.length ∧
        ({ head with tailIndexSeq := newSeq }, { tail with nextSeq := newSeq },
          ⟨queueKey, newSeq, 0, [], newPageBump⟩) = r := by
  simp only [growIndex, bind_ok_iff, require_ok_iff, okOr_ok_iff, checkedAdd_some_iff,
    pure_ok_iff, exists_const, JobIndex.isFull_iff]
  constructor
  · rintro ⟨ha, _, ⟨hle, rfl⟩, hs, hf, hr⟩
    exact ⟨ha, hle, hs, hf, hr⟩
  · rintro ⟨ha, hle, hs, hf, hr⟩
    exact ⟨ha, _, ⟨hle, rfl⟩, hs, hf, hr⟩

theorem advanceHead_ok_iff (head : QueueHead K) (page : JobIndex K) (r : QueueHead K) :
    advanceHead head page = .ok r ↔
      page.jobIds = [] ∧ (page.nextSeq ≠ 0 ∨ head.headIndexSeq ≠ head.tailIndexSeq) ∧
        { head with headIndexSeq := page.nextSeq } = r := by
  simp only [advanceHead, bind_ok_iff, require_ok_iff, pure_ok_iff, exists_const, JobIndex.isEmpty_iff]

theorem setQueuePaused_ok_iff [DecidableEq K] (authority queueKey : K) (queue : Queue K) (paused : Bool)
    (r : Queue K × Event K) :
    setQueuePaused authority queueKey queue paused = .ok r ↔
      authority = queue.authority ∧
        ({ queue with paused := paused }, .queuePauseChanged queueKey paused authority) = r := by
  simp only [setQueuePaused, bind_ok_iff, require_ok_iff, pure_ok_iff, exists_const]

theorem enqueueJob_ok_iff (clock : Int64) (queueKey : K) (jobBump : Nat) (queue : Queue K)
    (head : QueueHead K) (tail : JobIndex K) (payload : Bytes) (jobType : String)
    (priority : Nat) (executeAfter : Int64)
    (r : Queue K × Job K × QueueHead K × JobIndex K × Event K) :
    enqueueJob clock queueKey jobBump queue head tail payload jobType priority executeAfter = .ok r ↔
      payload.length ≤ 512 ∧ (0 < jobType.utf8ByteSize ∧ jobType.utf8ByteSize ≤ 32) ∧
        priority ≤ 2 ∧ queue.paused = false ∧ tail.jobIds.length < maxIndexEntries ∧
        queue.jobCount + 1 ≤ u64Max ∧ queue.pendingCount + 1 ≤ u64Max ∧
        head.totalJobs + 1 ≤ u64Max ∧
        ({ queue with jobCount := queue.jobCount + 1, pendingCount := queue.pendingCount + 1 },
          enqueued clock queueKey jobBump queue payload jobType priority executeAfter,
          { head with totalJobs := head.totalJobs + 1 },
          { tail with jobIds := tail.jobIds ++ [queue.jobCount] },
          .jobEnqueued queueKey queue.jobCount jobType priority
            (if executeAfter = 0 then clock else executeAfter) clock) = r := by
  simp only [enqueueJob, bind_ok_iff, require_ok_iff, okOr_ok_iff, checkedAdd_some_iff,
    pushJob_ok_iff, pure_ok_iff, exists_const]
  constructor
  · rintro ⟨hp, ht, hpr, hq, hf, _, ⟨hj, rfl⟩, _, ⟨hc, rfl⟩, _, ⟨hl, rfl⟩, _, ⟨htj, rfl⟩, hr⟩
    exact ⟨hp, ht, hpr, by simpa using hq, hl, hj, hc, htj, hr⟩
  · rintro ⟨hp, ht, hpr, hq, hl, hj, hc, htj, hr⟩
    refine ⟨hp, ht, hpr, by simpa using hq, ?_, _, ⟨hj, rfl⟩, _, ⟨hc, rfl⟩, _, ⟨hl, rfl⟩,
      _, ⟨htj, rfl⟩, hr⟩
    simpa [JobIndex.isFull] using hl

theorem claimJob_ok_iff (clock : Int64) (worker : K) (job : Job K) (page : JobIndex K)
    (r : Job K × JobIndex K × Event K) :
    claimJob clock worker job page = .ok r ↔
      job.status = .pending ∧ job.executeAfter ≤ clock ∧
        ∃ page', page.removeJob job.jobId = .ok page' ∧
          (locked clock worker job, page',
            .jobClaimed job.queue job.jobId worker (locked clock worker job).attempts clock) = r := by
  simp only [claimJob, bind_ok_iff, require_ok_iff, pure_ok_iff, exists_const]
  rfl

def ResultFits (result : Option String) : Prop := ∀ r ∈ result, r.utf8ByteSize ≤ 128

theorem resultFits_ok_iff (result : Option String) (u : Unit) :
    resultFits result = .ok u ↔ ResultFits result := by
  cases result with
  | none => simp [resultFits, ResultFits, pure_ok_iff]
  | some r => simp [resultFits, ResultFits]

theorem completeJob_ok_iff [DecidableEq K] (clock : Int64) (queueKey worker : K) (queue : Queue K) (job : Job K)
    (result : Option String) (r : Queue K × Job K × Event K) :
    completeJob clock queueKey worker queue job result = .ok r ↔
      job.status = .processing ∧ job.worker = some worker ∧ ResultFits result ∧
        queue.processedCount + 1 ≤ u64Max ∧
        ({ queue with
            pendingCount := queue.pendingCount - 1
            processedCount := queue.processedCount + 1 },
          finished clock result job,
          .jobCompleted queueKey job.jobId worker result clock) = r := by
  simp only [completeJob, bind_ok_iff, require_ok_iff, resultFits_ok_iff, okOr_ok_iff,
    checkedAdd_some_iff, pure_ok_iff, exists_const]
  constructor
  · rintro ⟨hs, hw, hf, _, ⟨hc, rfl⟩, hr⟩
    exact ⟨hs, hw, hf, hc, hr⟩
  · rintro ⟨hs, hw, hf, hc, hr⟩
    exact ⟨hs, hw, hf, _, ⟨hc, rfl⟩, hr⟩

/-- The guards both branches of `fail_job` share. -/
def MayFail (worker : K) (job : Job K) (errorMessage : String) : Prop :=
  job.status = .processing ∧ job.worker = some worker ∧ errorMessage.utf8ByteSize ≤ 128

theorem failJob_retry_iff [DecidableEq K] (clock : Int64) (queueKey worker : K) (queue : Queue K) (job : Job K)
    (page : JobIndex K) (errorMessage : String) (retryAfterSecs : Int64)
    (hretry : job.attempts < job.maxRetries) (r : Queue K × Job K × JobIndex K × Event K) :
    failJob clock queueKey worker queue job page errorMessage retryAfterSecs = .ok r ↔
      MayFail worker job errorMessage ∧ page.jobIds.length < maxIndexEntries ∧
        (queue, retried clock errorMessage retryAfterSecs job,
          { page with jobIds := page.jobIds ++ [job.jobId] },
          .jobRetrying queueKey job.jobId job.attempts
            (clock + backoff job.attempts retryAfterSecs) errorMessage) = r := by
  simp only [failJob, bind_ok_iff, require_ok_iff, exists_const, if_pos hretry, pushJob_ok_iff,
    pure_ok_iff, MayFail, and_assoc]
  constructor
  · rintro ⟨hs, hw, he, _, hl, rfl, hr⟩
    exact ⟨hs, hw, he, hl, hr⟩
  · rintro ⟨hs, hw, he, hl, hr⟩
    exact ⟨hs, hw, he, _, hl, rfl, hr⟩

theorem failJob_dead_iff [DecidableEq K] (clock : Int64) (queueKey worker : K) (queue : Queue K) (job : Job K)
    (page : JobIndex K) (errorMessage : String) (retryAfterSecs : Int64)
    (hdead : ¬job.attempts < job.maxRetries) (r : Queue K × Job K × JobIndex K × Event K) :
    failJob clock queueKey worker queue job page errorMessage retryAfterSecs = .ok r ↔
      MayFail worker job errorMessage ∧ queue.failedCount + 1 ≤ u64Max ∧
        ({ queue with
            pendingCount := queue.pendingCount - 1
            failedCount := queue.failedCount + 1 },
          deadLettered clock errorMessage job, page,
          .jobFailed queueKey job.jobId job.attempts errorMessage clock) = r := by
  simp only [failJob, bind_ok_iff, require_ok_iff, exists_const, if_neg hdead, okOr_ok_iff,
    checkedAdd_some_iff, pure_ok_iff, MayFail, and_assoc]
  constructor
  · rintro ⟨hs, hw, he, _, hc, rfl, hr⟩
    exact ⟨hs, hw, he, hc, hr⟩
  · rintro ⟨hs, hw, he, hc, hr⟩
    exact ⟨hs, hw, he, _, hc, rfl, hr⟩

theorem cancelJob_ok_iff [DecidableEq K] (clock : Int64) (queueKey authority : K) (queue : Queue K) (job : Job K)
    (page : JobIndex K) (r : Queue K × Job K × JobIndex K × Event K) :
    cancelJob clock queueKey authority queue job page = .ok r ↔
      authority = queue.authority ∧ (job.status = .pending ∨ job.status = .processing) ∧
        ∃ page', page.removeJob job.jobId = .ok page' ∧
          ({ queue with pendingCount := queue.pendingCount - 1 }, cancelled clock job, page',
            .jobCancelled queueKey job.jobId authority clock) = r := by
  simp only [cancelJob, bind_ok_iff, require_ok_iff, pure_ok_iff, exists_const]
  rfl

end DecQueue.Outcomes
