import DecQueue.Program

/-! # Jobs outside the ledger (program/src/lib.rs and state.rs, zk-compression)

A compressed job has no account of its own. Its record arrives as instruction
data together with a validity proof; the Light System Program checks the proof
in a CPI and stores the new record. Index pages and queues stay on the ledger.
The SDK and the Borsh decoder are not part of the repository: they are the
fields of `LightSystem`. -/

namespace DecQueue.Compressed
open Kit.Fallible State Handlers Outcomes Address Program

/-- `Pubkey::default()`, 32 zero bytes, is a point of the curve; a derived
address never is. -/
class DefaultKey (K : Type) [AddressDerivation K] where
  defaultKey : K
  offCurve : ∀ s : Seeds K, address s ≠ defaultKey

export DefaultKey (defaultKey)

instance : DefaultKey Key where
  defaultKey := .wallet 0
  offCurve s := by cases s <;> simp [address, AddressDerivation.findProgramAddress, Key.ofSeeds]

/-! ### The record (state.rs) -/

def cjobPending : UInt8 := 0
def cjobProcessing : UInt8 := 1
def cjobCompleted : UInt8 := 2
def cjobFailed : UInt8 := 3
def cjobCancelled : UInt8 := 4

/-- Keys are stored as their 32 bytes; the zero key means that there is no worker. -/
structure JobAccount (K : Type) where
  queue : K
  jobId : Nat
  jobType : Vector UInt8 32
  payloadLen : Nat
  payload : Vector UInt8 512
  status : UInt8
  priority : Nat
  createdAt : Int64
  executeAfter : Int64
  attempts : Nat
  maxRetries : Nat
  worker : K
  startedAt : Int64
  completedAt : Int64
  deriving DecidableEq

/-- `dst[..len].copy_from_slice(&bytes[..len])` with `len = bytes.len().min(n)`. -/
def copyPrefix {n : Nat} (dst : Vector UInt8 n) (bytes : Bytes) : Vector UInt8 n :=
  Vector.ofFn fun i => (bytes[i.val]?).getD dst[i]

variable {K : Type}

def JobAccount.setJobType (job : JobAccount K) (s : String) : JobAccount K :=
  { job with jobType := copyPrefix job.jobType s.toUTF8.data.toList }

def JobAccount.setPayload (job : JobAccount K) (data : Bytes) : JobAccount K :=
  { job with payload := copyPrefix job.payload data, payloadLen := min data.length 512 }

/-! ### The Light System Program -/

/-- What the caller sends along: the proof, the tree and address of the
account, the record, and the accounts of the Light System Program. -/
structure LightArgs (K Proof Meta : Type) where
  proof : Proof
  jobMeta : Meta
  jobData : Bytes
  remainingAccounts : List K

structure LightSystem (K Proof Meta : Type) where
  tryFromSlice : Bytes → Option (JobAccount K)
  newMut : Meta → JobAccount K → Bool
  withLightAccount : Proof → Meta → JobAccount K → Bool
  invoke : (payer : K) → (remainingAccounts : List K) → Proof → Meta → JobAccount K → Bool

variable {Proof Meta : Type} [DecidableEq K]

/-- The end of each handler: wrap the new record and have it stored. -/
def updateAccount (light : LightSystem K Proof Meta) (args : LightArgs K Proof Meta) (payer : K)
    (job : JobAccount K) : Except JobQueueError Unit := do
  require (light.newMut args.jobMeta job) .invalidCompressedJobData
  require (light.withLightAccount args.proof args.jobMeta job) .invalidCompressedJobData
  require (light.invoke payer args.remainingAccounts args.proof args.jobMeta job)
    .compressedCpiFailed

/-! ### Handlers -/

section
variable (light : LightSystem K Proof Meta) (args : LightArgs K Proof Meta) (clock : Int64)

def claimCompressedJob (worker payer : K) (sourceIndexPage : JobIndex K) :
    Except JobQueueError (JobAccount K × JobIndex K × Event K) := do
  let job ← okOr (light.tryFromSlice args.jobData) .invalidCompressedJobData
  require (job.status = cjobPending) .jobNotPending
  require (job.executeAfter ≤ clock) .jobNotReady
  let jobId := job.jobId
  let job := { job with
    status := cjobProcessing
    worker := worker
    startedAt := clock
    attempts := saturatingAdd u8Max job.attempts 1 }
  let sourceIndexPage ← sourceIndexPage.removeJob jobId
  updateAccount light args payer job
  pure (job, sourceIndexPage, .jobClaimed job.queue jobId worker job.attempts clock)

def completeCompressedJob (queueKey worker payer : K) (queue : Queue K) (result : Option String) :
    Except JobQueueError (Queue K × JobAccount K × Event K) := do
  resultFits result
  let job ← okOr (light.tryFromSlice args.jobData) .invalidCompressedJobData
  require (job.status = cjobProcessing) .jobNotProcessing
  require (job.worker = worker) .unauthorized
  let jobId := job.jobId
  let job := { job with status := cjobCompleted, completedAt := clock }
  let processedCount ← okOr (checkedAdd u64Max queue.processedCount 1) .overflow
  updateAccount light args payer job
  pure ({ queue with pendingCount := queue.pendingCount - 1, processedCount := processedCount },
    job, .jobCompleted queueKey jobId worker result clock)

def failCompressedJob [AddressDerivation K] [DefaultKey K] (queueKey worker payer : K) (queue : Queue K)
    (retryIndexPage : JobIndex K) (errorMessage : String) (retryAfterSecs : Int64) :
    Except JobQueueError (Queue K × JobAccount K × JobIndex K × Event K) := do
  require (errorMessage.utf8ByteSize ≤ 128) .resultTooLarge
  let job ← okOr (light.tryFromSlice args.jobData) .invalidCompressedJobData
  require (job.status = cjobProcessing) .jobNotProcessing
  require (job.worker = worker) .unauthorized
  let jobId := job.jobId
  if job.attempts < job.maxRetries then do
    let job := { job with
      status := cjobPending
      worker := defaultKey
      startedAt := 0
      executeAfter := clock + backoff job.attempts retryAfterSecs }
    let retryIndexPage ← retryIndexPage.pushJob jobId
    updateAccount light args payer job
    pure (queue, job, retryIndexPage,
      .jobRetrying queueKey jobId job.attempts job.executeAfter errorMessage)
  else do
    let job := { job with status := cjobFailed, completedAt := clock }
    let failedCount ← okOr (checkedAdd u64Max queue.failedCount 1) .overflow
    updateAccount light args payer job
    pure ({ queue with pendingCount := queue.pendingCount - 1, failedCount := failedCount }, job,
      retryIndexPage, .jobFailed queueKey jobId job.attempts errorMessage clock)

end

/-! ### Contexts and instructions -/

structure ClaimCompressedJob (K : Type) where
  worker : K
  payer : K
  sourceIndexPage : K

structure CompleteCompressedJob (K : Type) where
  queue : K
  worker : K
  payer : K

structure FailCompressedJob (K : Type) where
  queue : K
  worker : K
  payer : K
  retryIndexPage : K

inductive CompressedInstruction (K : Type) where
  | claimCompressedJob (ctx : ClaimCompressedJob K)
  | completeCompressedJob (ctx : CompleteCompressedJob K) (result : Option String)
  | failCompressedJob (ctx : FailCompressedJob K) (errorMessage : String) (retryAfterSecs : Int64)

section
variable [AddressDerivation K] [DefaultKey K] (light : LightSystem K Proof Meta)
  (args : LightArgs K Proof Meta) (clock : Int64) (L : Ledger K)

/-- The new ledger, the record that the CPI stores, and the events. -/
def execCompressed : CompressedInstruction K →
    Except ProgramError (Ledger K × JobAccount K × List (Event K))
  | .claimCompressedJob ctx => do
      let sourceIndexPage ← loadJobIndex L ctx.sourceIndexPage
      require (sourceIndexPage.queue ≠ defaultKey) (.custom .queueMismatch)
      let (job, sourceIndexPage, event) ← lift <|
        claimCompressedJob light args clock ctx.worker ctx.payer sourceIndexPage
      pure (write L ctx.sourceIndexPage (.jobIndex sourceIndexPage), job, [event])
  | .completeCompressedJob ctx result => do
      let queue ← loadQueue L ctx.queue
      let (queue, job, event) ← lift <|
        completeCompressedJob light args clock ctx.queue ctx.worker ctx.payer queue result
      pure (write L ctx.queue (.queue queue), job, [event])
  | .failCompressedJob ctx errorMessage retryAfterSecs => do
      let queue ← loadQueue L ctx.queue
      let retryIndexPage ← loadJobIndex L ctx.retryIndexPage
      require (retryIndexPage.queue = ctx.queue) (.custom .queueMismatch)
      let (queue, job, retryIndexPage, event) ← lift <|
        failCompressedJob light args clock ctx.queue ctx.worker ctx.payer queue retryIndexPage
          errorMessage retryAfterSecs
      pure (write (write L ctx.queue (.queue queue)) ctx.retryIndexPage (.jobIndex retryIndexPage),
        job, [event])

end

/-! ### When a handler succeeds -/

/-- The SDK takes the record and the CPI stores it. -/
structure Accepts (light : LightSystem K Proof Meta) (args : LightArgs K Proof Meta) (payer : K)
    (job : JobAccount K) : Prop where
  newMut : light.newMut args.jobMeta job = true
  withLightAccount : light.withLightAccount args.proof args.jobMeta job = true
  invoke : light.invoke payer args.remainingAccounts args.proof args.jobMeta job = true

def locked (clock : Int64) (worker : K) (job : JobAccount K) : JobAccount K :=
  { job with
    status := cjobProcessing
    worker := worker
    startedAt := clock
    attempts := saturatingAdd u8Max job.attempts 1 }

def finished (clock : Int64) (job : JobAccount K) : JobAccount K :=
  { job with status := cjobCompleted, completedAt := clock }

def retried [AddressDerivation K] [DefaultKey K] (clock retryAfterSecs : Int64) (job : JobAccount K) :
    JobAccount K :=
  { job with
    status := cjobPending
    worker := defaultKey
    startedAt := 0
    executeAfter := clock + backoff job.attempts retryAfterSecs }

def deadLettered (clock : Int64) (job : JobAccount K) : JobAccount K :=
  { job with status := cjobFailed, completedAt := clock }

section
variable (light : LightSystem K Proof Meta) (args : LightArgs K Proof Meta) (clock : Int64)

omit [DecidableEq K] in
theorem updateAccount_ok_iff (payer : K) (job : JobAccount K) (u : Unit) :
    updateAccount light args payer job = .ok u ↔ Accepts light args payer job := by
  simp only [updateAccount, bind_ok_iff, require_ok_iff, exists_const]
  constructor
  · rintro ⟨hn, hw, hi⟩
    exact ⟨hn, hw, hi⟩
  · rintro ⟨hn, hw, hi⟩
    exact ⟨hn, hw, hi⟩

omit [DecidableEq K] in
theorem claimCompressedJob_ok_iff (worker payer : K) (page : JobIndex K)
    (r : JobAccount K × JobIndex K × Event K) :
    claimCompressedJob light args clock worker payer page = .ok r ↔
      ∃ job, light.tryFromSlice args.jobData = some job ∧ job.status = cjobPending ∧
        job.executeAfter ≤ clock ∧ ∃ page', page.removeJob job.jobId = .ok page' ∧
          Accepts light args payer (locked clock worker job) ∧
          (locked clock worker job, page',
            .jobClaimed job.queue job.jobId worker (locked clock worker job).attempts clock) = r := by
  simp only [claimCompressedJob, bind_ok_iff, require_ok_iff, okOr_ok_iff, updateAccount_ok_iff,
    pure_ok_iff, exists_const]
  rfl

theorem completeCompressedJob_ok_iff (queueKey worker payer : K) (queue : Queue K)
    (result : Option String) (r : Queue K × JobAccount K × Event K) :
    completeCompressedJob light args clock queueKey worker payer queue result = .ok r ↔
      ∃ job, light.tryFromSlice args.jobData = some job ∧ job.status = cjobProcessing ∧
        job.worker = worker ∧ ResultFits result ∧ queue.processedCount + 1 ≤ u64Max ∧
        Accepts light args payer (finished clock job) ∧
        ({ queue with
            pendingCount := queue.pendingCount - 1
            processedCount := queue.processedCount + 1 },
          finished clock job, .jobCompleted queueKey job.jobId worker result clock) = r := by
  simp only [completeCompressedJob, bind_ok_iff, require_ok_iff, resultFits_ok_iff, okOr_ok_iff,
    checkedAdd_some_iff, updateAccount_ok_iff, pure_ok_iff, exists_const]
  constructor
  · rintro ⟨hf, job, hjob, hs, hw, _, ⟨hc, rfl⟩, ha, hr⟩
    exact ⟨job, hjob, hs, hw, hf, hc, ha, hr⟩
  · rintro ⟨job, hjob, hs, hw, hf, hc, ha, hr⟩
    exact ⟨hf, job, hjob, hs, hw, _, ⟨hc, rfl⟩, ha, hr⟩

/-- The guards both branches of `fail_compressed_job` share. -/
def MayFailCompressed (worker : K) (job : JobAccount K) (errorMessage : String) : Prop :=
  job.status = cjobProcessing ∧ job.worker = worker ∧ errorMessage.utf8ByteSize ≤ 128

section
variable [AddressDerivation K] [DefaultKey K] {job : JobAccount K}
  (hjob : light.tryFromSlice args.jobData = some job) (queueKey worker payer : K) (queue : Queue K)
  (page : JobIndex K) (errorMessage : String) (retryAfterSecs : Int64)
  (r : Queue K × JobAccount K × JobIndex K × Event K)
include hjob

theorem failCompressedJob_retry_iff (hretry : job.attempts < job.maxRetries) :
    failCompressedJob light args clock queueKey worker payer queue page errorMessage
        retryAfterSecs = .ok r ↔
      MayFailCompressed worker job errorMessage ∧ page.jobIds.length < maxIndexEntries ∧
        Accepts light args payer (retried clock retryAfterSecs job) ∧
        (queue, retried clock retryAfterSecs job, { page with jobIds := page.jobIds ++ [job.jobId] },
          .jobRetrying queueKey job.jobId job.attempts
            (clock + backoff job.attempts retryAfterSecs) errorMessage) = r := by
  simp only [failCompressedJob, hjob, bind_ok_iff, require_ok_iff, okOr_ok_iff, exists_const,
    Option.some.injEq, exists_eq_left', if_pos hretry, pushJob_ok_iff, updateAccount_ok_iff,
    pure_ok_iff, MayFailCompressed]
  constructor
  · rintro ⟨he, hs, hw, _, ⟨hl, rfl⟩, ha, hr⟩
    exact ⟨⟨hs, hw, he⟩, hl, ha, hr⟩
  · rintro ⟨⟨hs, hw, he⟩, hl, ha, hr⟩
    exact ⟨he, hs, hw, _, ⟨hl, rfl⟩, ha, hr⟩

theorem failCompressedJob_dead_iff (hdead : ¬job.attempts < job.maxRetries) :
    failCompressedJob light args clock queueKey worker payer queue page errorMessage
        retryAfterSecs = .ok r ↔
      MayFailCompressed worker job errorMessage ∧ queue.failedCount + 1 ≤ u64Max ∧
        Accepts light args payer (deadLettered clock job) ∧
        ({ queue with
            pendingCount := queue.pendingCount - 1
            failedCount := queue.failedCount + 1 },
          deadLettered clock job, page,
          .jobFailed queueKey job.jobId job.attempts errorMessage clock) = r := by
  simp only [failCompressedJob, hjob, bind_ok_iff, require_ok_iff, okOr_ok_iff, exists_const,
    Option.some.injEq, exists_eq_left', if_neg hdead, checkedAdd_some_iff, updateAccount_ok_iff,
    pure_ok_iff, MayFailCompressed]
  constructor
  · rintro ⟨he, hs, hw, _, ⟨hc, rfl⟩, ha, hr⟩
    exact ⟨⟨hs, hw, he⟩, hc, ha, hr⟩
  · rintro ⟨⟨hs, hw, he⟩, hc, ha, hr⟩
    exact ⟨he, hs, hw, _, ⟨hc, rfl⟩, ha, hr⟩

end

end

end DecQueue.Compressed
