import DecQueue.Utf16
import DecQueue.Kit.ComparisonSort

/-! # Reading jobs (client/index.ts, client/worker.ts)

What `processReadyJobs` does before it sends anything: look up the ids,
fetch the records, keep the ready ones and order them. The fetches read the
ledger. `JSON.parse` of the decoded payload and the sorting routine of the
platform are arguments; the addresses of the client's own indexes are those
of a class, next to the addresses of the program. -/

namespace DecQueue.Records
open Kit.Fallible Kit.ComparisonSort State Address Program DecqueueCore Utf16

/-! ### Index addresses (shared/decqueue-core.ts) -/

inductive IndexType where
  | pending | processing | delayed | failed | completed | cancelled
  deriving DecidableEq, Repr

/-- Addresses under the seeds "index", queue, index type. They differ from
those of the program because the seeds do. -/
class IndexDerivation (K : Type) [AddressDerivation K] where
  deriveIndexPda : K → IndexType → K
  deriveIndexPda_ne : ∀ queue t s, deriveIndexPda queue t ≠ address s

export IndexDerivation (deriveIndexPda)

/-! ### Job records -/

/-- The time value in milliseconds, or an invalid date. -/
abbrev Date := Option Int

def newDate (ms : Int) : Date := if ms.natAbs ≤ 8640000000000000 then some ms else none

/-- `V` are the values of `JSON.parse`. -/
structure JobRecord (K V : Type) where
  publicKey : K
  jobId : Nat
  jobType : JsString
  payload : V
  status : JobStatus
  priority : Nat
  createdAt : Date
  executeAfter : Date
  attempts : Nat
  maxRetries : Nat
  worker : Option K
  startedAt : Option Date
  completedAt : Option Date
  result : Option JsString
  errorMessage : Option JsString
  deriving DecidableEq

def intToNumber (value : Int64) : Except ClientError Int :=
  if value.toInt.natAbs < 2 ^ 53 then .ok value.toInt
  else .error (.thrown "Number can only safely store up to 53 bits")

def dateOfSeconds (value : Int64) : Except ClientError Date := do
  let seconds ← intToNumber value
  pure (newDate (seconds * 1000))

section
variable {K V : Type}

def fetchJob (L : Ledger K) (jobPda : K) : Except ClientError (Job K) :=
  match loadJob L jobPda with
  | .ok data => .ok data
  | .error e => .error (.fetchFailed e)

def fetchJobIndex (L : Ledger K) (indexPda : K) : Except ClientError (JobIndex K) :=
  match loadJobIndex L indexPda with
  | .ok data => .ok data
  | .error e => .error (.fetchFailed e)

/-- `parse` is `JSON.parse` after the bytes have been decoded. -/
def parsePayload (parse : Bytes → Except String V) (payload : Bytes) : Except ClientError V :=
  match parse payload with
  | .ok value => .ok value
  | .error message => .error (.thrown message)

def getJob (parse : Bytes → Except String V) (L : Ledger K) (jobPda : K) :
    Except ClientError (JobRecord K V) := do
  let data ← fetchJob L jobPda
  let jobId ← toNumber data.jobId
  let payload ← parsePayload parse data.payload
  let createdAt ← dateOfSeconds data.createdAt
  let executeAfter ← dateOfSeconds data.executeAfter
  let startedAt ← data.startedAt.mapM dateOfSeconds
  let completedAt ← data.completedAt.mapM dateOfSeconds
  pure { publicKey := jobPda, jobId := jobId, jobType := utf16 data.jobType, payload := payload,
         status := data.status, priority := data.priority, createdAt := createdAt,
         executeAfter := executeAfter, attempts := data.attempts, maxRetries := data.maxRetries,
         worker := data.worker, startedAt := startedAt, completedAt := completedAt,
         result := data.result.map utf16, errorMessage := data.errorMessage.map utf16 }

/-! ### The order of work (worker.ts) -/

/-- `now` is `Date.now()`. A comparison with an invalid date is false. -/
def JobRecord.isReady (now : Int) (job : JobRecord K V) : Bool :=
  job.status == .pending && job.executeAfter.any fun t => decide (t ≤ now)

/-- The comparator. With an invalid date it returns NaN, which `sort` reads as zero. -/
def compareJobs (a b : JobRecord K V) : Int :=
  if a.priority ≠ b.priority then (b.priority : Int) - a.priority
  else
    match a.executeAfter, b.executeAfter with
    | some t, some u => if t ≠ u then t - u else (a.jobId : Int) - b.jobId
    | _, _ => 0

def sortReadyJobs (S : Sorter (JobRecord K V)) (now : Int) (jobs : List (JobRecord K V)) :
    List (JobRecord K V) :=
  S.sort compareJobs (jobs.filter (JobRecord.isReady now))

/-! ### Finding the jobs -/

variable [AddressDerivation K]

/-- A job whose record cannot be read is skipped. -/
def fetchJobsByIds (parse : Bytes → Except String V) (L : Ledger K) (queuePda : K) (jobIds : List Nat) :
    List (JobRecord K V) :=
  jobIds.filterMap fun id => (getJob parse L (address (.job queuePda id))).toOption

variable [IndexDerivation K]

def fetchIndexJobIds (L : Ledger K) (queuePda : K) (t : IndexType) : Except ClientError (List Nat) := do
  let data ← fetchJobIndex L (deriveIndexPda queuePda t)
  data.jobIds.mapM toNumber

/-- An error while fetching is an empty list. -/
def getIndexJobIds (L : Ledger K) (queuePda : K) (t : IndexType) : List Nat :=
  match fetchIndexJobIds L queuePda t with
  | .ok jobIds => jobIds
  | .error _ => []

def getReadyJobIds (L : Ledger K) (queuePda : K) : List Nat :=
  getIndexJobIds L queuePda .pending ++ getIndexJobIds L queuePda .delayed

def selectJobs (S : Sorter (JobRecord K V)) (parse : Bytes → Except String V) (now : Int)
    (L : Ledger K) (queuePda : K) : List (JobRecord K V) :=
  let readyIds := getReadyJobIds L queuePda
  if readyIds.length = 0 then []
  else sortReadyJobs S now (fetchJobsByIds parse L queuePda readyIds)

end

end DecQueue.Records
