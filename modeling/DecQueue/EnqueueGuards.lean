import DecQueue.Utf16
import DecQueue.Reachability

/-! # Two validators of one request

`enqueueJobWithProgram` checks a request before it is sent, `enqueue_job`
checks its arguments again. Payload and priority are measured alike on both
sides; the job type is limited to 32 code units by the client and to 32 bytes
by the program. -/

namespace DecQueue.EnqueueGuards
open Kit.Fallible State Handlers Address Program Reachability DecqueueCore Utf16

/-! ### The guards on the arguments -/

/-- What `enqueue_job` requires of its arguments, whatever the accounts hold. -/
structure ArgumentGuards (payload : Bytes) (jobType : String) (priority : Nat) : Prop where
  payload : payload.length ≤ 512
  jobType : 0 < jobType.utf8ByteSize ∧ jobType.utf8ByteSize ≤ 32
  priority : priority ≤ 2

/-- With a payload that fits, the error for the job type is raised exactly
when its length in bytes is wrong. -/
theorem nameTooLong_iff {K : Type} (clock : Int64) (queueKey : K) (jobBump : Nat) (queue : Queue K)
    (queueHead : QueueHead K) (tailPage : JobIndex K) {payload : Bytes} (jobType : String)
    (priority : Nat) (executeAfter : Int64) (hpayload : payload.length ≤ 512) :
    enqueueJob clock queueKey jobBump queue queueHead tailPage payload jobType priority executeAfter =
        .error .nameTooLong ↔ ¬(0 < jobType.utf8ByteSize ∧ jobType.utf8ByteSize ≤ 32) := by
  simp only [enqueueJob, JobIndex.pushJob, bind_error_iff, require_error_iff, okOr_error_iff,
    pure_error_iff, require_ok_iff, exists_const, hpayload, reduceCtorEq, and_false,
    exists_false, or_false, false_or, and_true, true_and, not_true]

/-! ### What the client has checked -/

section
variable {K : Type} [AddressDerivation K] {L : Ledger K} {now : Nat} {args : EnqueueArgs K}
  {request : Submission K}

theorem payload_le_of_prepare (h : prepare L now args = .ok request) :
    request.payloadBytes.length ≤ 512 := by
  simp only [prepare, bind_ok_iff, require_ok_iff, exists_const, pure_ok_iff] at h
  obtain ⟨_, _, _, _, payloadBytes, _, hle, _, _, _, _, _, _, rfl⟩ := h
  exact hle

theorem jobType_ne_of_prepare (h : prepare L now args = .ok request) : trim args.jobType ≠ [] := by
  simp only [prepare, bind_ok_iff, require_ok_iff, exists_const] at h
  exact h.1

theorem jobType_bytes (h : prepare L now args = .ok request) :
    request.jobType.utf8ByteSize = (trim args.jobType).length + extraBytes (trim args.jobType) := by
  rw [(carries_of_prepare h).jobType, utf8ByteSize_toUnicode]

theorem type_length_pos (h : prepare L now args = .ok request) : 0 < (trim args.jobType).length :=
  List.length_pos_iff.mpr (jobType_ne_of_prepare h)

/-- Of the three guards only the one on the job type can fail, and then the
program refuses the request for its job type. -/
theorem guards_hold_iff (h : prepare L now args = .ok request) :
    (ArgumentGuards request.payloadBytes request.jobType request.priority ↔
        (trim args.jobType).length + extraBytes (trim args.jobType) ≤ 32) ∧
      ∀ clock queueKey jobBump (queue : Queue K) queueHead tailPage,
        enqueueJob clock queueKey jobBump queue queueHead tailPage request.payloadBytes request.jobType
            request.priority request.executeAfter = .error .nameTooLong ↔
          32 < (trim args.jobType).length + extraBytes (trim args.jobType) := by
  have hbytes := jobType_bytes h
  have hpos := type_length_pos h
  have hpayload := payload_le_of_prepare h
  refine ⟨⟨fun hg => ?_, fun hle => ?_⟩, ?_⟩
  · rw [← hbytes]
    exact hg.jobType.2
  · refine ⟨hpayload, ?_, (checkPriority_ok_iff.mp (carries_of_prepare h).priority).2⟩
    omega
  · intro clock queueKey jobBump queue queueHead tailPage
    rw [nameTooLong_iff clock queueKey jobBump queue queueHead tailPage request.jobType
      request.priority request.executeAfter hpayload]
    omega

end

/-! ### A job type with accents -/

/-- Seventeen times U+00E9, two bytes each. -/
def accented : EnqueueArgs Key :=
  ⟨.wallet 5, demoQueue, List.replicate 17 0xE9, .ok (some [0x7B, 0x7D]), none, none⟩

def accentedRequest : Submission Key :=
  ⟨.wallet 5, demoQueue, address (.job demoQueue 2), 2, [0x7B, 0x7D],
    toUnicode (List.replicate 17 0xE9), 1, 0⟩

theorem accented_prepared : prepare (ledgerAfter demoRun) 5000 accented = .ok accentedRequest := rfl

theorem guards_hold_iff_demo : ¬ArgumentGuards accentedRequest.payloadBytes accentedRequest.jobType
    accentedRequest.priority := by
  rw [(guards_hold_iff accented_prepared).1]
  decide

/-- The client lets the request pass and the program refuses it. -/
theorem accented_refused :
    prepare (ledgerAfter demoRun) 5000 accented = .ok accentedRequest ∧
      ¬ArgumentGuards accentedRequest.payloadBytes accentedRequest.jobType accentedRequest.priority ∧
      exec 6 (ledgerAfter demoRun) (accentedRequest.instruction (address (.queueHead demoQueue))
        (address (.index demoQueue 0))) = .error (.custom .nameTooLong) := by
  have hbytes : accentedRequest.jobType.utf8ByteSize = 34 := jobType_bytes accented_prepared
  refine ⟨accented_prepared, fun hg => ?_, rfl⟩
  have hle := hg.jobType.2
  omega

end DecQueue.EnqueueGuards
