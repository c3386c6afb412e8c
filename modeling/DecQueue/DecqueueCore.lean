import DecQueue.Program
import Mathlib.Data.Rat.Defs

/-! # Enqueueing from a client (shared/decqueue-core.ts)

`enqueueJobWithProgram` up to the point where the transaction is sent. A
string is a list of UTF-16 code units and a number a rational, an infinity or
NaN. `JSON.stringify`, the clock and the connection are outside: what they
return is an argument. Of the accounts of the instruction the client names the
queue, the job and the payer; the Anchor client fills in the rest from the
interface description. -/

namespace DecQueue.DecqueueCore
open Kit.Fallible State Address Program

/-! ### Strings and numbers of the language -/

abbrev JsString := List UInt16

def isHighSurrogate (u : UInt16) : Bool := 0xD800 ≤ u && u ≤ 0xDBFF

def isLowSurrogate (u : UInt16) : Bool := 0xDC00 ≤ u && u ≤ 0xDFFF

/-- A surrogate without its partner becomes U+FFFD, as in every UTF-8 encoder
of the platform. -/
def codePoint (u : UInt16) : Char :=
  if isHighSurrogate u || isLowSurrogate u then Char.ofNat 0xFFFD else Char.ofNat u.toNat

def surrogatePair (high low : UInt16) : Char :=
  Char.ofNat (0x10000 + (high.toNat - 0xD800) * 0x400 + (low.toNat - 0xDC00))

def codePoints : JsString → List Char
  | [] => []
  | [u] => [codePoint u]
  | u :: w :: rest =>
      if isHighSurrogate u && isLowSurrogate w then surrogatePair u w :: codePoints rest
      else codePoint u :: codePoints (w :: rest)

def toUnicode (s : JsString) : String := String.ofList (codePoints s)

/-- WhiteSpace and LineTerminator of the language. -/
def isSpace (u : UInt16) : Bool :=
  (0x09 ≤ u && u ≤ 0x0D) || u == 0x20 || u == 0xA0 || u == 0x1680 || (0x2000 ≤ u && u ≤ 0x200A) ||
    u == 0x2028 || u == 0x2029 || u == 0x202F || u == 0x205F || u == 0x3000 || u == 0xFEFF

def trim (s : JsString) : JsString := ((s.dropWhile isSpace).reverse.dropWhile isSpace).reverse

inductive JsNumber where
  | nan
  | infinity (negative : Bool)
  | finite (q : Rat)
  deriving DecidableEq

/-! ### The client -/

def maxJobPayloadBytes : Nat := 512
def maxJobTypeLength : Nat := 32

inductive ClientError where
  | thrown (message : String)
  | fetchFailed (e : ProgramError)
  | rpcFailed (e : ProgramError)
  deriving DecidableEq

/-- `JSON.stringify` returns a string or `undefined`, or it throws. -/
abbrev Stringified := Except String (Option JsString)

structure EnqueueArgs (K : Type) where
  payer : K
  queuePda : K
  jobType : JsString
  payload : Stringified
  priority : Option JsNumber
  delay : Option JsNumber

def serializeJobPayload : Stringified → Except ClientError Bytes
  | .error message => .error (.thrown message)
  | .ok none => .error (.thrown "Payload must be valid JSON.")
  | .ok (some encoded) => .ok (toUnicode encoded).toUTF8.data.toList

/-- `Number.isInteger(priority)` and the two bounds. -/
def checkPriority (priority : JsNumber) : Except ClientError Nat :=
  match priority with
  | .finite q =>
      if q.den = 1 ∧ 0 ≤ q.num ∧ q.num ≤ 2 then .ok q.num.toNat
      else .error (.thrown "Priority must be 0 (low), 1 (normal), or 2 (high).")
  | _ => .error (.thrown "Priority must be 0 (low), 1 (normal), or 2 (high).")

theorem serializeJobPayload_ok_iff {payload : Stringified} {bytes : Bytes} :
    serializeJobPayload payload = .ok bytes ↔
      ∃ encoded, payload = .ok (some encoded) ∧ bytes = (toUnicode encoded).toUTF8.data.toList := by
  cases payload with
  | error message => simp [serializeJobPayload]
  | ok encoded =>
    cases encoded with
    | none => simp [serializeJobPayload]
    | some encoded => simp [serializeJobPayload, eq_comm]

/-- What passes is the number itself. -/
theorem checkPriority_ok_iff {priority : JsNumber} {n : Nat} :
    checkPriority priority = .ok n ↔ priority = .finite n ∧ n ≤ 2 := by
  constructor
  · intro h
    unfold checkPriority at h
    split at h
    next q =>
      split at h
      next hq =>
        obtain ⟨hden, hlow, hhigh⟩ := hq
        cases h
        have hnum : ((q.num.toNat : Nat) : Int) = q.num := Int.toNat_of_nonneg hlow
        refine ⟨congrArg JsNumber.finite ?_, by omega⟩
        calc q = (q.num : Rat) := (Rat.coe_int_num_of_den_eq_one hden).symm
          _ = ((q.num.toNat : Int) : Rat) := by rw [hnum]
          _ = (q.num.toNat : Rat) := Rat.intCast_natCast _
      next => cases h
    next => cases h
  · intro ⟨he, hle⟩
    rw [he]
    exact if_pos ⟨Rat.den_natCast n, Int.natCast_nonneg n, Int.ofNat_le.mpr hle⟩

/-- `BN.toNumber` is exact up to 53 bits and throws above. -/
def toNumber (value : Nat) : Except ClientError Nat :=
  if value < 2 ^ 53 then .ok value
  else .error (.thrown "Number can only safely store up to 53 bits")

/-- `new BN(number)` asserts that the number has at most 53 bits. -/
def newBN (value : Int) : Except ClientError Int64 :=
  if value.natAbs < 2 ^ 53 then .ok (Int64.ofInt value) else .error (.thrown "Assertion failed")

/-- `now` is `Date.now()`, in milliseconds like the delay; the quotient is exact
here, a double there. -/
def buildExecuteAfter (now : Nat) (delay : JsNumber) : Except ClientError Int64 :=
  match delay with
  | .finite q =>
      if q < 0 then .error (.thrown "Delay must be zero or greater.")
      else if q = 0 then .ok 0
      else newBN ((now / 1000 : Nat) + (q / 1000).floor)
  | _ => .error (.thrown "Delay must be zero or greater.")

def fetchQueue {K : Type} (L : Ledger K) (queuePda : K) : Except ClientError (Queue K) :=
  match loadQueue L queuePda with
  | .ok queue => .ok queue
  | .error e => .error (.fetchFailed e)

structure Submission (K : Type) where
  payer : K
  queuePda : K
  jobPda : K
  jobId : Nat
  payloadBytes : Bytes
  jobType : String
  priority : Nat
  executeAfter : Int64

structure EnqueueJobResult (K : Type) where
  jobPda : K
  jobId : Nat
  signature : String
  payloadBytes : Nat

section
variable {K : Type}

def Submission.instruction (request : Submission K) (queueHead tailIndexPage : K) : Instruction K :=
  .enqueueJob ⟨request.queuePda, request.jobPda, queueHead, tailIndexPage, request.payer⟩
    request.payloadBytes request.jobType request.priority request.executeAfter

def Submission.result (request : Submission K) (signature : String) : EnqueueJobResult K :=
  ⟨request.jobPda, request.jobId, signature, request.payloadBytes.length⟩

variable [AddressDerivation K]

/-- From the call to the transaction, reading the queue from the ledger. -/
def prepare (L : Ledger K) (now : Nat) (args : EnqueueArgs K) :
    Except ClientError (Submission K) := do
  let normalizedJobType := trim args.jobType
  let priority := args.priority.getD (.finite 1)
  let delay := args.delay.getD (.finite 0)
  require (normalizedJobType ≠ []) (.thrown "Job type is required.")
  require (normalizedJobType.length ≤ maxJobTypeLength)
    (.thrown s!"Job type must be {maxJobTypeLength} characters or fewer.")
  let priority ← checkPriority priority
  let payloadBytes ← serializeJobPayload args.payload
  require (payloadBytes.length ≤ maxJobPayloadBytes)
    (.thrown s!"Payload is {payloadBytes.length} bytes. The on-chain limit is {maxJobPayloadBytes} bytes.")
  let queueData ← fetchQueue L args.queuePda
  let jobId ← toNumber queueData.jobCount
  let jobPda := address (.job args.queuePda jobId)
  let executeAfter ← buildExecuteAfter now delay
  pure { payer := args.payer, queuePda := args.queuePda, jobPda := jobPda, jobId := jobId,
         payloadBytes := payloadBytes, jobType := toUnicode normalizedJobType, priority := priority,
         executeAfter := executeAfter }

/-- The request carries what the producer asked for. -/
structure Carries (args : EnqueueArgs K) (request : Submission K) : Prop where
  queue : request.queuePda = args.queuePda
  job : request.jobPda = address (.job args.queuePda request.jobId)
  payload : serializeJobPayload args.payload = .ok request.payloadBytes
  jobType : request.jobType = toUnicode (trim args.jobType)
  priority : checkPriority (args.priority.getD (.finite 1)) = .ok request.priority

theorem carries_of_prepare {L : Ledger K} {now : Nat} {args : EnqueueArgs K} {request : Submission K}
    (h : prepare L now args = .ok request) : Carries args request := by
  simp only [prepare, bind_ok_iff, require_ok_iff, exists_const, pure_ok_iff] at h
  obtain ⟨_, _, priority, hpriority, payloadBytes, hpayload, _, queueData, _, jobId, _, _, _, rfl⟩ := h
  exact ⟨rfl, rfl, hpayload, rfl, hpriority⟩

end

end DecQueue.DecqueueCore
