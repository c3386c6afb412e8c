import DecQueue.State

/-! # Instruction handlers (program/src/lib.rs, `pub mod dec_queue`)

Each handler is a function of the clock, the account data its context gives it
and the instruction arguments; it returns the data it writes back and the
event it emits. The guards stand in the order of the source, and a failed
guard leaves nothing behind. Keys and bumps that the source reads from the
context (`queue.key()`, `ctx.bumps`) are arguments. -/

namespace DecQueue.Handlers
open Kit.Fallible State

variable {K : Type} [DecidableEq K]

/-! ### Machine arithmetic on `i64` -/

/-- `i64::checked_shl`: only the shift amount is checked. -/
def checkedShl (a : Int64) (n : Nat) : Option Int64 :=
  if n < 64 then some (a <<< Int64.ofNat n) else none

/-- `i64::saturating_mul`. -/
def saturatingMul (a b : Int64) : Int64 :=
  Int64.ofInt (max Int64.minValue.toInt (min Int64.maxValue.toInt (a.toInt * b.toInt)))

/-! ### Queue and index pages -/

def initializeQueue (clock : Int64) (authority queueKey : K) (queueBump headBump pageBump : Nat)
    (queueName : String) (maxRetries : Nat) :
    Except JobQueueError (Queue K × QueueHead K × JobIndex K × Event K) := do
  require (0 < queueName.utf8ByteSize ∧ queueName.utf8ByteSize ≤ 32) .nameTooLong
  require (maxRetries ≤ 10) .invalidRetries
  let queue : Queue K :=
    { authority := authority, name := queueName, jobCount := 0, pendingCount := 0,
      processedCount := 0, failedCount := 0, maxRetries := maxRetries, paused := false,
      createdAt := clock, bump := queueBump }
  let queueHead : QueueHead K :=
    { authority := authority, headIndexSeq := 0, tailIndexSeq := 0, totalJobs := 0,
      bump := headBump }
  let firstPage : JobIndex K :=
    { queue := queueKey, seq := 0, nextSeq := 0, jobIds := [], bump := pageBump }
  pure (queue, queueHead, firstPage, .queueCreated authority queueName clock)

def growIndex (authority queueKey : K) (newPageBump : Nat) (queue : Queue K)
    (queueHead : QueueHead K) (currentTailPage : JobIndex K) (newSeq : Nat) :
    Except JobQueueError (QueueHead K × JobIndex K × JobIndex K) := do
  require (authority = queue.authority) .unauthorized
  let next ← okOr (checkedAdd u64Max queueHead.tailIndexSeq 1) .overflow
  require (newSeq = next) .overflow
  require currentTailPage.isFull .indexNotFull
  let newPage : JobIndex K :=
    { queue := queueKey, seq := newSeq, nextSeq := 0, jobIds := [], bump := newPageBump }
  pure ({ queueHead with tailIndexSeq := newSeq }, { currentTailPage with nextSeq := newSeq },
    newPage)

def advanceHead (queueHead : QueueHead K) (headPage : JobIndex K) :
    Except JobQueueError (QueueHead K) := do
  require headPage.isEmpty .headPageNotEmpty
  require (headPage.nextSeq ≠ 0 ∨ queueHead.headIndexSeq ≠ queueHead.tailIndexSeq) .noSuccessorPage
  pure { queueHead with headIndexSeq := headPage.nextSeq }

def setQueuePaused (authority queueKey : K) (queue : Queue K) (paused : Bool) :
    Except JobQueueError (Queue K × Event K) := do
  require (authority = queue.authority) .unauthorized
  pure ({ queue with paused := paused }, .queuePauseChanged queueKey paused authority)

/-! ### The job life cycle -/

def enqueueJob (clock : Int64) (queueKey : K) (jobBump : Nat) (queue : Queue K)
    (queueHead : QueueHead K) (tailPage : JobIndex K) (payload : Bytes) (jobType : String)
    (priority : Nat) (executeAfter : Int64) :
    Except JobQueueError (Queue K × Job K × QueueHead K × JobIndex K × Event K) := do
  require (payload.length ≤ 512) .payloadTooLarge
  require (0 < jobType.utf8ByteSize ∧ jobType.utf8ByteSize ≤ 32) .nameTooLong
  require (priority ≤ 2) .invalidPriority
  require (!queue.paused) .queuePaused
  require (!tailPage.isFull) .indexFull
  let jobId := queue.jobCount
  let jobCount ← okOr (checkedAdd u64Max queue.jobCount 1) .queueFull
  let pendingCount ← okOr (checkedAdd u64Max queue.pendingCount 1) .queueFull
  let scheduledAt := if executeAfter = 0 then clock else executeAfter
  let job : Job K :=
    { queue := queueKey, jobId := jobId, jobType := jobType, payload := payload,
      status := .pending, priority := priority, createdAt := clock, executeAfter := scheduledAt,
      attempts := 0, maxRetries := queue.maxRetries, worker := none, startedAt := none,
      completedAt := none, result := none, errorMessage := none, bump := jobBump }
  let tailPage ← tailPage.pushJob jobId
  let totalJobs ← okOr (checkedAdd u64Max queueHead.totalJobs 1) .overflow
  pure ({ queue with jobCount := jobCount, pendingCount := pendingCount }, job,
    { queueHead with totalJobs := totalJobs }, tailPage,
    .jobEnqueued queueKey jobId jobType priority scheduledAt clock)

def claimJob (clock : Int64) (worker : K) (job : Job K) (sourceIndexPage : JobIndex K) :
    Except JobQueueError (Job K × JobIndex K × Event K) := do
  require (job.status = .pending) .jobNotPending
  require (job.executeAfter ≤ clock) .jobNotReady
  let jobId := job.jobId
  let job := { job with
    status := .processing
    worker := some worker
    startedAt := some clock
    attempts := (checkedAdd u8Max job.attempts 1).getD u8Max }
  let sourceIndexPage ← sourceIndexPage.removeJob jobId
  pure (job, sourceIndexPage, .jobClaimed job.queue jobId worker job.attempts clock)

def resultFits : Option String → Except JobQueueError Unit
  | some r => require (r.utf8ByteSize ≤ 128) .resultTooLarge
  | none => pure ()

def completeJob (clock : Int64) (queueKey worker : K) (queue : Queue K) (job : Job K)
    (result : Option String) : Except JobQueueError (Queue K × Job K × Event K) := do
  require (job.status = .processing) .jobNotProcessing
  require (job.worker = some worker) .unauthorized
  resultFits result
  let processedCount ← okOr (checkedAdd u64Max queue.processedCount 1) .overflow
  pure ({ queue with pendingCount := queue.pendingCount - 1, processedCount := processedCount },
    { job with status := .completed, completedAt := some clock, result := result },
    .jobCompleted queueKey job.jobId worker result clock)

/-- Seconds between a failed attempt and the next one; the shift never
exceeds 63 bits, the product saturates. -/
def backoff (attempts : Nat) (retryAfterSecs : Int64) : Int64 :=
  saturatingMul retryAfterSecs ((checkedShl 1 (attempts - 1)).getD Int64.maxValue)

def failJob (clock : Int64) (queueKey worker : K) (queue : Queue K) (job : Job K)
    (retryIndexPage : JobIndex K) (errorMessage : String) (retryAfterSecs : Int64) :
    Except JobQueueError (Queue K × Job K × JobIndex K × Event K) := do
  require (job.status = .processing) .jobNotProcessing
  require (job.worker = some worker) .unauthorized
  require (errorMessage.utf8ByteSize ≤ 128) .resultTooLarge
  let jobId := job.jobId
  let job := { job with errorMessage := some errorMessage }
  if job.attempts < job.maxRetries then do
    -- the sum is a plain `+`: it wraps in a release build
    let job := { job with
      status := .pending
      worker := none
      startedAt := none
      executeAfter := clock + backoff job.attempts retryAfterSecs }
    let retryIndexPage ← retryIndexPage.pushJob jobId
    pure (queue, job, retryIndexPage,
      .jobRetrying queueKey jobId job.attempts job.executeAfter errorMessage)
  else do
    let job := { job with status := .failed, completedAt := some clock }
    let failedCount ← okOr (checkedAdd u64Max queue.failedCount 1) .overflow
    pure ({ queue with pendingCount := queue.pendingCount - 1, failedCount := failedCount }, job,
      retryIndexPage, .jobFailed queueKey jobId job.attempts errorMessage clock)

def cancelJob (clock : Int64) (queueKey authority : K) (queue : Queue K) (job : Job K)
    (sourceIndexPage : JobIndex K) :
    Except JobQueueError (Queue K × Job K × JobIndex K × Event K) := do
  require (authority = queue.authority) .unauthorized
  require (job.status = .pending ∨ job.status = .processing) .cannotCancel
  let jobId := job.jobId
  let sourceIndexPage ← sourceIndexPage.removeJob jobId
  pure ({ queue with pendingCount := queue.pendingCount - 1 },
    { job with status := .cancelled, completedAt := some clock }, sourceIndexPage,
    .jobCancelled queueKey jobId authority clock)

end DecQueue.Handlers
