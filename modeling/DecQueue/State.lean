import DecQueue.Kit.Fallible
import DecQueue.Kit.Lists

/-! # Account data, errors and events (program/src/state.rs, errors.rs, events.rs)

The four account types of the program over an abstract type `K` of addresses.
Unsigned integers are natural numbers with explicit bounds where the code
checks or saturates; timestamps are the code's own `i64`. -/

namespace DecQueue.State
open Kit.Fallible Kit.Lists

abbrev Bytes := List UInt8

def u8Max : Nat := 255
def u64Max : Nat := 2^64-1

inductive JobQueueError where
  | nameTooLong | invalidRetries | invalidPriority | payloadTooLarge | resultTooLarge
  | jobNotPending | jobNotProcessing | jobNotReady | unauthorized | cannotCancel
  | queuePaused | queueFull | overflow | indexFull | jobNotInIndex | indexNotFull
  | headPageNotEmpty | noSuccessorPage | queueMismatch | invalidCompressedJobData
  | compressedCpiFailed
  deriving DecidableEq, Repr

structure Queue (K : Type) where
  authority : K
  name : String
  jobCount : Nat
  pendingCount : Nat
  processedCount : Nat
  failedCount : Nat
  maxRetries : Nat
  paused : Bool
  createdAt : Int64
  bump : Nat
  deriving DecidableEq

structure QueueHead (K : Type) where
  authority : K
  headIndexSeq : Nat
  tailIndexSeq : Nat
  totalJobs : Nat
  bump : Nat
  deriving DecidableEq

inductive JobStatus where
  | pending | processing | completed | failed | cancelled
  deriving DecidableEq, Repr

structure Job (K : Type) where
  queue : K
  jobId : Nat
  jobType : String
  payload : Bytes
  status : JobStatus
  priority : Nat
  createdAt : Int64
  executeAfter : Int64
  attempts : Nat
  maxRetries : Nat
  worker : Option K
  startedAt : Option Int64
  completedAt : Option Int64
  result : Option String
  errorMessage : Option String
  bump : Nat
  deriving DecidableEq

/-! ### Index pages (state.rs, `impl JobIndex`) -/

def maxIndexEntries : Nat := 256

structure JobIndex (K : Type) where
  queue : K
  seq : Nat
  nextSeq : Nat
  jobIds : List Nat
  bump : Nat
  deriving DecidableEq

variable {K : Type}

def JobIndex.isFull (page : JobIndex K) : Bool := decide (maxIndexEntries ≤ page.jobIds.length)

def JobIndex.isEmpty (page : JobIndex K) : Bool := page.jobIds.isEmpty

def JobIndex.pushJob (page : JobIndex K) (jobId : Nat) : Except JobQueueError (JobIndex K) := do
  require (!page.isFull) .indexFull
  pure { page with jobIds := page.jobIds ++ [jobId] }

/-- The first position that holds the id is overwritten by the last entry. -/
def JobIndex.removeJob (page : JobIndex K) (jobId : Nat) : Except JobQueueError (JobIndex K) := do
  let pos ← okOr (page.jobIds.findIdx? fun id => id == jobId) .jobNotInIndex
  pure { page with jobIds := swapRemove page.jobIds pos }

theorem JobIndex.isFull_iff (page : JobIndex K) : page.isFull = true ↔ maxIndexEntries ≤ page.jobIds.length := by
  simp [JobIndex.isFull]

theorem JobIndex.isEmpty_iff (page : JobIndex K) : page.isEmpty = true ↔ page.jobIds = [] := by
  simp [JobIndex.isEmpty]

theorem pushJob_ok_iff (page page' : JobIndex K) (jobId : Nat) :
    page.pushJob jobId = .ok page' ↔
      page.jobIds.length < maxIndexEntries ∧
        { page with jobIds := page.jobIds ++ [jobId] } = page' := by
  simp only [JobIndex.pushJob, bind_ok_iff, require_ok_iff, pure_ok_iff, exists_const]
  simp [JobIndex.isFull]

/-- What is left is the page without one occurrence of the id, in some order. -/
theorem removeJob_perm {page page' : JobIndex K} {jobId : Nat}
    (h : page.removeJob jobId = .ok page') : page.jobIds.Perm (jobId :: page'.jobIds) := by
  simp only [JobIndex.removeJob, bind_ok_iff, okOr_ok_iff, pure_ok_iff] at h
  obtain ⟨pos, hpos, rfl⟩ := h
  exact findIdx_perm hpos

theorem mem_of_removeJob {page page' : JobIndex K} {jobId : Nat}
    (h : page.removeJob jobId = .ok page') : jobId ∈ page.jobIds :=
  (removeJob_perm h).mem_iff.mpr (List.mem_cons_self ..)

theorem removeJob_fields {page page' : JobIndex K} {jobId : Nat}
    (h : page.removeJob jobId = .ok page') :
    page'.queue = page.queue ∧ page'.seq = page.seq ∧ page'.nextSeq = page.nextSeq ∧
      page'.bump = page.bump := by
  simp only [JobIndex.removeJob, bind_ok_iff, okOr_ok_iff, pure_ok_iff] at h
  obtain ⟨pos, hpos, rfl⟩ := h
  exact ⟨rfl, rfl, rfl, rfl⟩

theorem removeJob_of_mem {page : JobIndex K} {jobId : Nat} (h : jobId ∈ page.jobIds) :
    ∃ page', page.removeJob jobId = .ok page' := by
  obtain ⟨pos, hpos⟩ := findIdx_isSome.mpr h
  refine ⟨{ page with jobIds := swapRemove page.jobIds pos }, ?_⟩
  simp only [JobIndex.removeJob, bind_ok_iff, okOr_ok_iff, pure_ok_iff]
  exact ⟨pos, hpos, rfl⟩

/-! ### Events (events.rs) -/

inductive Event (K : Type) where
  | queueCreated (authority : K) (name : String) (timestamp : Int64)
  | queuePauseChanged (queue : K) (paused : Bool) (changedBy : K)
  | jobEnqueued (queue : K) (jobId : Nat) (jobType : String) (priority : Nat)
      (executeAfter enqueuedAt : Int64)
  | jobClaimed (queue : K) (jobId : Nat) (worker : K) (attempt : Nat) (claimedAt : Int64)
  | jobCompleted (queue : K) (jobId : Nat) (worker : K) (result : Option String)
      (completedAt : Int64)
  | jobRetrying (queue : K) (jobId : Nat) (attempt : Nat) (retryAt : Int64) (error : String)
  | jobFailed (queue : K) (jobId : Nat) (attempts : Nat) (error : String) (failedAt : Int64)
  | jobCancelled (queue : K) (jobId : Nat) (cancelledBy : K) (cancelledAt : Int64)
  deriving DecidableEq

end DecQueue.State
