import DecQueue.Address
import DecQueue.Outcomes
import DecQueue.Kit.Transition

/-! # The program on the ledger (program/src/lib.rs, account contexts)

The ledger maps addresses to the accounts the program owns. An instruction
names the accounts it is run with; nothing restricts the caller's choice but
the checks of the context: the type of each account, the declared seeds with
the bump stored in the account, `has_one`, the raw constraints, and for `init`
that the address derives from the seeds and is not in use. Accounts are
deserialized first, then `init` runs, then the other constraints; the handler
follows, and the mutable accounts are written back. Rent and lamports are left
out. -/

namespace DecQueue.Program
open Kit.Fallible State Handlers Outcomes Address

inductive Account (K : Type) where
  | queue (data : Queue K)
  | queueHead (data : QueueHead K)
  | jobIndex (data : JobIndex K)
  | job (data : Job K)
  deriving DecidableEq

abbrev Ledger (K : Type) := K → Option (Account K)

inductive AnchorError where
  | accountNotInitialized | accountDiscriminatorMismatch | constraintSeeds | constraintHasOne
  | accountAlreadyInUse
  deriving DecidableEq, Repr

inductive ProgramError where
  | anchor (e : AnchorError)
  | custom (e : JobQueueError)
  deriving DecidableEq, Repr

def lift {α : Type} : Except JobQueueError α → Except ProgramError α
  | .ok a => .ok a
  | .error e => .error (.custom e)

/-! ### Account contexts -/

structure InitializeQueue (K : Type) where
  queue : K
  queueHead : K
  firstIndexPage : K
  authority : K

structure GrowIndex (K : Type) where
  queue : K
  queueHead : K
  currentTailPage : K
  newTailPage : K
  authority : K

structure AdvanceHead (K : Type) where
  queueHead : K
  headPage : K

structure EnqueueJob (K : Type) where
  queue : K
  job : K
  queueHead : K
  tailIndexPage : K
  payer : K

structure ClaimJob (K : Type) where
  job : K
  worker : K
  sourceIndexPage : K

structure CompleteJob (K : Type) where
  queue : K
  job : K
  worker : K

structure FailJob (K : Type) where
  queue : K
  job : K
  worker : K
  retryIndexPage : K

structure CancelJob (K : Type) where
  queue : K
  job : K
  authority : K
  sourceIndexPage : K

structure SetQueuePaused (K : Type) where
  queue : K
  authority : K

inductive Instruction (K : Type) where
  | initializeQueue (ctx : InitializeQueue K) (queueName : String) (maxRetries : Nat)
  | growIndex (ctx : GrowIndex K) (newSeq : Nat)
  | advanceHead (ctx : AdvanceHead K)
  | enqueueJob (ctx : EnqueueJob K) (payload : Bytes) (jobType : String) (priority : Nat)
      (executeAfter : Int64)
  | claimJob (ctx : ClaimJob K)
  | completeJob (ctx : CompleteJob K) (result : Option String)
  | failJob (ctx : FailJob K) (errorMessage : String) (retryAfterSecs : Int64)
  | cancelJob (ctx : CancelJob K)
  | setQueuePaused (ctx : SetQueuePaused K) (paused : Bool)

/-! ### Loading, checking and writing accounts -/

section
variable {K : Type}

def loadQueue (L : Ledger K) (k : K) : Except ProgramError (Queue K) :=
  match L k with
  | some (.queue data) => .ok data
  | some _ => .error (.anchor .accountDiscriminatorMismatch)
  | none => .error (.anchor .accountNotInitialized)

def loadQueueHead (L : Ledger K) (k : K) : Except ProgramError (QueueHead K) :=
  match L k with
  | some (.queueHead data) => .ok data
  | some _ => .error (.anchor .accountDiscriminatorMismatch)
  | none => .error (.anchor .accountNotInitialized)

def loadJobIndex (L : Ledger K) (k : K) : Except ProgramError (JobIndex K) :=
  match L k with
  | some (.jobIndex data) => .ok data
  | some _ => .error (.anchor .accountDiscriminatorMismatch)
  | none => .error (.anchor .accountNotInitialized)

def loadJob (L : Ledger K) (k : K) : Except ProgramError (Job K) :=
  match L k with
  | some (.job data) => .ok data
  | some _ => .error (.anchor .accountDiscriminatorMismatch)
  | none => .error (.anchor .accountNotInitialized)

variable [DecidableEq K]

def write (L : Ledger K) (k : K) (data : Account K) : Ledger K := Function.update L k (some data)

variable [AddressDerivation K]

/-- `init, seeds = .., bump`: the account must not exist yet. -/
def checkInit (L : Ledger K) (s : Seeds K) (k : K) : Except ProgramError Unit := do
  require (k = address s) (.anchor .constraintSeeds)
  require (L k = none) (.anchor .accountAlreadyInUse)

/-- `seeds = .., bump = account.bump`. -/
def checkSeeds (s : Seeds K) (bump : Nat) (k : K) : Except ProgramError Unit :=
  require (AddressDerivation.createProgramAddress s bump = some k) (.anchor .constraintSeeds)

/-! ### Instructions -/

def execInitializeQueue (clock : Int64) (L : Ledger K) (ctx : InitializeQueue K)
    (queueName : String) (maxRetries : Nat) : Except ProgramError (Ledger K × List (Event K)) := do
  -- the three addresses differ because their seeds do
  checkInit L (.queue ctx.authority queueName) ctx.queue
  checkInit L (.queueHead ctx.queue) ctx.queueHead
  checkInit L (.index ctx.queue 0) ctx.firstIndexPage
  let (queue, queueHead, firstPage, event) ← lift <|
    initializeQueue clock ctx.authority ctx.queue (bumpOf (.queue ctx.authority queueName))
      (bumpOf (.queueHead ctx.queue)) (bumpOf (.index ctx.queue 0)) queueName maxRetries
  pure (write (write (write L ctx.queue (.queue queue)) ctx.queueHead (.queueHead queueHead))
    ctx.firstIndexPage (.jobIndex firstPage), [event])

def execGrowIndex (L : Ledger K) (ctx : GrowIndex K) (newSeq : Nat) :
    Except ProgramError (Ledger K × List (Event K)) := do
  let queue ← loadQueue L ctx.queue
  let queueHead ← loadQueueHead L ctx.queueHead
  let currentTailPage ← loadJobIndex L ctx.currentTailPage
  checkInit L (.index ctx.queue newSeq) ctx.newTailPage
  checkSeeds (.queueHead ctx.queue) queueHead.bump ctx.queueHead
  checkSeeds (.index ctx.queue queueHead.tailIndexSeq) currentTailPage.bump ctx.currentTailPage
  let (queueHead, currentTailPage, newTailPage) ← lift <|
    growIndex ctx.authority ctx.queue (bumpOf (.index ctx.queue newSeq)) queue queueHead
      currentTailPage newSeq
  pure (write (write (write L ctx.queueHead (.queueHead queueHead))
    ctx.currentTailPage (.jobIndex currentTailPage)) ctx.newTailPage (.jobIndex newTailPage), [])

def execAdvanceHead (L : Ledger K) (ctx : AdvanceHead K) :
    Except ProgramError (Ledger K × List (Event K)) := do
  let queueHead ← loadQueueHead L ctx.queueHead
  let headPage ← loadJobIndex L ctx.headPage
  checkSeeds (.queueHead headPage.queue) queueHead.bump ctx.queueHead
  checkSeeds (.index headPage.queue queueHead.headIndexSeq) headPage.bump ctx.headPage
  let queueHead ← lift <| advanceHead queueHead headPage
  pure (write L ctx.queueHead (.queueHead queueHead), [])

def execEnqueueJob (clock : Int64) (L : Ledger K) (ctx : EnqueueJob K) (payload : Bytes)
    (jobType : String) (priority : Nat) (executeAfter : Int64) :
    Except ProgramError (Ledger K × List (Event K)) := do
  let queue ← loadQueue L ctx.queue
  let queueHead ← loadQueueHead L ctx.queueHead
  let tailIndexPage ← loadJobIndex L ctx.tailIndexPage
  checkInit L (.job ctx.queue queue.jobCount) ctx.job
  checkSeeds (.queueHead ctx.queue) queueHead.bump ctx.queueHead
  checkSeeds (.index ctx.queue queueHead.tailIndexSeq) tailIndexPage.bump ctx.tailIndexPage
  let (queue, job, queueHead, tailIndexPage, event) ← lift <|
    enqueueJob clock ctx.queue (bumpOf (.job ctx.queue queue.jobCount)) queue queueHead
      tailIndexPage payload jobType priority executeAfter
  pure (write (write (write (write L ctx.queue (.queue queue)) ctx.job (.job job))
    ctx.queueHead (.queueHead queueHead)) ctx.tailIndexPage (.jobIndex tailIndexPage), [event])

def execClaimJob (clock : Int64) (L : Ledger K) (ctx : ClaimJob K) :
    Except ProgramError (Ledger K × List (Event K)) := do
  let job ← loadJob L ctx.job
  let sourceIndexPage ← loadJobIndex L ctx.sourceIndexPage
  require (sourceIndexPage.queue = job.queue) (.custom .queueMismatch)
  let (job, sourceIndexPage, event) ← lift <| claimJob clock ctx.worker job sourceIndexPage
  pure (write (write L ctx.job (.job job)) ctx.sourceIndexPage (.jobIndex sourceIndexPage),
    [event])

def execCompleteJob (clock : Int64) (L : Ledger K) (ctx : CompleteJob K)
    (result : Option String) : Except ProgramError (Ledger K × List (Event K)) := do
  let queue ← loadQueue L ctx.queue
  let job ← loadJob L ctx.job
  require (job.queue = ctx.queue) (.anchor .constraintHasOne)
  let (queue, job, event) ← lift <| completeJob clock ctx.queue ctx.worker queue job result
  pure (write (write L ctx.queue (.queue queue)) ctx.job (.job job), [event])

def execFailJob (clock : Int64) (L : Ledger K) (ctx : FailJob K) (errorMessage : String)
    (retryAfterSecs : Int64) : Except ProgramError (Ledger K × List (Event K)) := do
  let queue ← loadQueue L ctx.queue
  let job ← loadJob L ctx.job
  let retryIndexPage ← loadJobIndex L ctx.retryIndexPage
  require (job.queue = ctx.queue) (.anchor .constraintHasOne)
  require (retryIndexPage.queue = job.queue) (.custom .queueMismatch)
  let (queue, job, retryIndexPage, event) ← lift <|
    failJob clock ctx.queue ctx.worker queue job retryIndexPage errorMessage retryAfterSecs
  pure (write (write (write L ctx.queue (.queue queue)) ctx.job (.job job))
    ctx.retryIndexPage (.jobIndex retryIndexPage), [event])

def execCancelJob (clock : Int64) (L : Ledger K) (ctx : CancelJob K) :
    Except ProgramError (Ledger K × List (Event K)) := do
  let queue ← loadQueue L ctx.queue
  let job ← loadJob L ctx.job
  let sourceIndexPage ← loadJobIndex L ctx.sourceIndexPage
  require (job.queue = ctx.queue) (.anchor .constraintHasOne)
  require (sourceIndexPage.queue = job.queue) (.custom .queueMismatch)
  let (queue, job, sourceIndexPage, event) ← lift <|
    cancelJob clock ctx.queue ctx.authority queue job sourceIndexPage
  pure (write (write (write L ctx.queue (.queue queue)) ctx.job (.job job))
    ctx.sourceIndexPage (.jobIndex sourceIndexPage), [event])

def execSetQueuePaused (L : Ledger K) (ctx : SetQueuePaused K) (paused : Bool) :
    Except ProgramError (Ledger K × List (Event K)) := do
  let queue ← loadQueue L ctx.queue
  let (queue, event) ← lift <| setQueuePaused ctx.authority ctx.queue queue paused
  pure (write L ctx.queue (.queue queue), [event])

def exec (clock : Int64) (L : Ledger K) : Instruction K → Except ProgramError (Ledger K × List (Event K))
  | .initializeQueue ctx queueName maxRetries => execInitializeQueue clock L ctx queueName maxRetries
  | .growIndex ctx newSeq => execGrowIndex L ctx newSeq
  | .advanceHead ctx => execAdvanceHead L ctx
  | .enqueueJob ctx payload jobType priority executeAfter =>
      execEnqueueJob clock L ctx payload jobType priority executeAfter
  | .claimJob ctx => execClaimJob clock L ctx
  | .completeJob ctx result => execCompleteJob clock L ctx result
  | .failJob ctx errorMessage retryAfterSecs => execFailJob clock L ctx errorMessage retryAfterSecs
  | .cancelJob ctx => execCancelJob clock L ctx
  | .setQueuePaused ctx paused => execSetQueuePaused L ctx paused

/-! ### Runs -/

/-- An instruction together with the clock of the block it lands in. -/
structure Tx (K : Type) where
  clock : Int64
  ix : Instruction K

/-- A rejected transaction leaves no successor. -/
def step (L : Ledger K) (tx : Tx K) : Option (Ledger K) :=
  match exec tx.clock L tx.ix with
  | .ok (L', _) => some L'
  | .error _ => none

def genesis : Ledger K := fun _ => none

/-- Ledgers after any finite sequence of accepted transactions. The first one
can only be an `initialize_queue`. -/
def Reachable (L : Ledger K) : Prop := Kit.Transition.Reachable step genesis L

def ledgerAfter (txs : List (Tx K)) : Ledger K :=
  (Kit.Transition.run step genesis txs).getD genesis

end

/-! ### Equations -/

section
variable {K : Type}

theorem lift_ok_iff {α : Type} (x : Except JobQueueError α) (a : α) : lift x = .ok a ↔ x = .ok a := by
  cases x <;> simp [lift]

theorem lift_error_iff {α : Type} (x : Except JobQueueError α) (e : ProgramError) :
    lift x = .error e ↔ ∃ c, x = .error c ∧ e = .custom c := by
  cases x with
  | ok a => simp [lift]
  | error c => simp [lift, eq_comm]

theorem loadQueue_ok_iff (L : Ledger K) (k : K) (data : Queue K) :
    loadQueue L k = .ok data ↔ L k = some (.queue data) := by
  unfold loadQueue
  split <;> simp_all

theorem loadQueueHead_ok_iff (L : Ledger K) (k : K) (data : QueueHead K) :
    loadQueueHead L k = .ok data ↔ L k = some (.queueHead data) := by
  unfold loadQueueHead
  split <;> simp_all

theorem loadJobIndex_ok_iff (L : Ledger K) (k : K) (data : JobIndex K) :
    loadJobIndex L k = .ok data ↔ L k = some (.jobIndex data) := by
  unfold loadJobIndex
  split <;> simp_all

theorem loadJob_ok_iff (L : Ledger K) (k : K) (data : Job K) :
    loadJob L k = .ok data ↔ L k = some (.job data) := by
  unfold loadJob
  split <;> simp_all

/- No custom error comes from loading an account or from its address. -/

theorem loadQueue_custom (L : Ledger K) (k : K) (c : JobQueueError) :
    loadQueue L k = .error (.custom c) ↔ False := by
  unfold loadQueue
  split <;> simp

theorem loadQueueHead_custom (L : Ledger K) (k : K) (c : JobQueueError) :
    loadQueueHead L k = .error (.custom c) ↔ False := by
  unfold loadQueueHead
  split <;> simp

theorem loadJobIndex_custom (L : Ledger K) (k : K) (c : JobQueueError) :
    loadJobIndex L k = .error (.custom c) ↔ False := by
  unfold loadJobIndex
  split <;> simp

theorem loadJob_custom (L : Ledger K) (k : K) (c : JobQueueError) :
    loadJob L k = .error (.custom c) ↔ False := by
  unfold loadJob
  split <;> simp

variable [DecidableEq K]

@[simp] theorem write_self (L : Ledger K) (k : K) (data : Account K) :
    write L k data k = some data := Function.update_self ..

theorem write_of_ne {k k' : K} (h : k' ≠ k) (L : Ledger K) (data : Account K) :
    write L k data k' = L k' := Function.update_of_ne h ..

variable [AddressDerivation K]

theorem checkInit_ok_iff (L : Ledger K) (s : Seeds K) (k : K) (u : Unit) :
    checkInit L s k = .ok u ↔ k = address s ∧ L k = none := by
  simp only [checkInit, bind_ok_iff, require_ok_iff, exists_const]

theorem checkSeeds_ok_iff (s : Seeds K) (bump : Nat) (k : K) (u : Unit) :
    checkSeeds s bump k = .ok u ↔ AddressDerivation.createProgramAddress s bump = some k := by
  simp only [checkSeeds, require_ok_iff]

theorem checkInit_custom (L : Ledger K) (s : Seeds K) (k : K) (c : JobQueueError) :
    checkInit L s k = .error (.custom c) ↔ False := by
  simp [checkInit, bind_error_iff, require_error_iff]

theorem checkSeeds_custom (s : Seeds K) (bump : Nat) (k : K) (c : JobQueueError) :
    checkSeeds s bump k = .error (.custom c) ↔ False := by
  simp [checkSeeds, require_error_iff]

theorem step_eq_some (L L' : Ledger K) (tx : Tx K) :
    step L tx = some L' ↔ ∃ evs, exec tx.clock L tx.ix = .ok (L', evs) := by
  unfold step
  split
  next L'' evs h => simp [h]
  next e h => simp [h]

theorem ledgerAfter_run {txs : List (Tx K)}
    (h : (Kit.Transition.run step genesis txs).isSome = true) :
    Kit.Transition.run step genesis txs = some (ledgerAfter txs) := by
  obtain ⟨L, hL⟩ := Option.isSome_iff_exists.mp h
  rw [ledgerAfter, hL, Option.getD_some]

theorem ledgerAfter_extend {txs txs' : List (Tx K)}
    (h : (Kit.Transition.run step genesis (txs ++ txs')).isSome = true) :
    Kit.Transition.run step (ledgerAfter txs) txs' = some (ledgerAfter (txs ++ txs')) := by
  obtain ⟨L, hL, hrest⟩ := Kit.Transition.run_append.mp (ledgerAfter_run h)
  rw [ledgerAfter, hL, Option.getD_some, hrest]

theorem ledgerAfter_step {txs : List (Tx K)} {tx : Tx K}
    (h : (Kit.Transition.run step genesis (txs ++ [tx])).isSome = true) :
    step (ledgerAfter txs) tx = some (ledgerAfter (txs ++ [tx])) :=
  Kit.Transition.run_singleton.mp (ledgerAfter_extend h)

theorem ledgerAfter_reachable {txs : List (Tx K)}
    (h : (Kit.Transition.run step genesis txs).isSome = true) : Reachable (ledgerAfter txs) :=
  ⟨txs, ledgerAfter_run h⟩

end

end DecQueue.Program
