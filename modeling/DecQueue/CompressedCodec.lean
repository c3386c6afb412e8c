import DecQueue.AccountCodec
import DecQueue.Compressed

/-! # The bytes of a compressed record (program/src/state.rs, `JobAccount`)

The record travels in the instruction data, encoded by Borsh. `try_from_slice`
reads the fields in the order of their declaration and refuses data that goes
on behind the last one. -/

namespace DecQueue.CompressedCodec
open Kit.Borsh Kit.BorshDecode State AccountSpace AccountCodec Compressed

variable {K : Type}

def serializeRecord (pubkey : K → Address.Pubkey) (r : JobAccount K) : Bytes :=
  encodePubkey pubkey r.queue ++ leBytes 8 r.jobId ++ r.jobType.toList ++ leBytes 2 r.payloadLen ++
    r.payload.toList ++ [r.status] ++ leBytes 1 r.priority ++ encodeInt64 r.createdAt ++
    encodeInt64 r.executeAfter ++ leBytes 1 r.attempts ++ leBytes 1 r.maxRetries ++
    encodePubkey pubkey r.worker ++ encodeInt64 r.startedAt ++ encodeInt64 r.completedAt

section
variable (codec : KeyCodec K)

def deserializeRecord : Decoder (JobAccount K) := do
  let queue ← decodePubkey codec
  let jobId ← decodeLE 8
  let jobType ← decodeArray 32
  let payloadLen ← decodeLE 2
  let payload ← decodeArray 512
  let status ← decodeByte
  let priority ← decodeLE 1
  let createdAt ← decodeInt64
  let executeAfter ← decodeInt64
  let attempts ← decodeLE 1
  let maxRetries ← decodeLE 1
  let worker ← decodePubkey codec
  let startedAt ← decodeInt64
  let completedAt ← decodeInt64
  pure ⟨queue, jobId, jobType, payloadLen, payload, status, priority, createdAt, executeAfter,
    attempts, maxRetries, worker, startedAt, completedAt⟩

/-- `JobAccount::try_from_slice`. -/
def tryFromSlice (bytes : Bytes) : Option (JobAccount K) :=
  match deserializeRecord codec bytes with
  | some (r, []) => some r
  | _ => none

/-- The numbers of the record are of their types. -/
structure RecordEncodable (r : JobAccount K) : Prop where
  queue : codec.Known r.queue
  jobId : U64 r.jobId
  payloadLen : r.payloadLen < 256 ^ 2
  priority : U8 r.priority
  attempts : U8 r.attempts
  maxRetries : U8 r.maxRetries
  worker : codec.Known r.worker

end

section
variable {codec : KeyCodec K}

theorem decodes_record :
    Decodes (deserializeRecord codec) (RecordEncodable codec) (serializeRecord codec.pubkey) := by
  intro bs r rest
  simp only [deserializeRecord, decodes_pubkey.bind_iff, (decodes_LE 8).bind_iff,
    (decodes_LE 2).bind_iff, (decodes_LE 1).bind_iff, (decodes_array 32).bind_iff,
    (decodes_array 512).bind_iff, decodes_byte.bind_iff, decodes_int64.bind_iff, pure_iff]
  constructor
  · intro hparts
    obtain ⟨_, _, ⟨hq, h₁⟩, _, _, ⟨hi, h₂⟩, _, _, ⟨_, h₃⟩, _, _, ⟨hl, h₄⟩, _, _, ⟨_, h₅⟩, _, _, ⟨_, h₆⟩,
      _, _, ⟨hp, h₇⟩, _, _, ⟨_, h₈⟩, _, _, ⟨_, h₉⟩, _, _, ⟨ha, h₁₀⟩, _, _, ⟨hm, h₁₁⟩, _, _, ⟨hw, h₁₂⟩,
      _, _, ⟨_, h₁₃⟩, _, _, ⟨_, h₁₄⟩, he, hrest⟩ := hparts
    subst h₁ h₂ h₃ h₄ h₅ h₆ h₇ h₈ h₉ h₁₀ h₁₁ h₁₂ h₁₃ h₁₄ he hrest
    refine ⟨⟨hq, hi, hl, hp, ha, hm, hw⟩, ?_⟩
    simp only [serializeRecord, List.append_assoc]
  · intro hparts
    obtain ⟨h, hbs⟩ := hparts
    simp only [serializeRecord, List.append_assoc] at hbs
    exact ⟨_, _, ⟨h.queue, hbs⟩, _, _, ⟨h.jobId, rfl⟩, _, _, ⟨trivial, rfl⟩, _, _, ⟨h.payloadLen, rfl⟩,
      _, _, ⟨trivial, rfl⟩, _, _, ⟨trivial, rfl⟩, _, _, ⟨h.priority, rfl⟩, _, _, ⟨trivial, rfl⟩, _, _,
      ⟨trivial, rfl⟩, _, _, ⟨h.attempts, rfl⟩, _, _, ⟨h.maxRetries, rfl⟩, _, _, ⟨h.worker, rfl⟩, _, _,
      ⟨trivial, rfl⟩, _, _, ⟨trivial, rfl⟩, rfl, rfl⟩

/-- The data of an instruction is read as a record if and only if it is the
encoding of that record. -/
theorem tryFromSlice_iff {bytes : Bytes} {r : JobAccount K} :
    tryFromSlice codec bytes = some r ↔
      RecordEncodable codec r ∧ bytes = serializeRecord codec.pubkey r := by
  have hdecodes : deserializeRecord codec bytes = some (r, []) ↔
      RecordEncodable codec r ∧ bytes = serializeRecord codec.pubkey r ++ [] :=
    decodes_record bytes r []
  rw [List.append_nil] at hdecodes
  rw [← hdecodes, tryFromSlice]
  constructor
  · intro h
    split at h
    next r' hread =>
      cases h
      exact hread
    next => cases h
  · intro h
    simp only [h]

end

/-! ### A Light System Program

Enough of one for the small runs: a proof is the encoding of the record that it
is for, and an account of the tree is known by queue and id. -/

def recordLight (codec : KeyCodec K) [DecidableEq K] : LightSystem K Bytes (K × Nat) where
  tryFromSlice := tryFromSlice codec
  newMut jobMeta r := decide (jobMeta = (r.queue, r.jobId))
  withLightAccount proof _ _ := decide (proof ≠ [])
  invoke _ remainingAccounts proof _ r :=
    decide (remainingAccounts ≠ [] ∧ proof = serializeRecord codec.pubkey r)

/-- The arguments of a caller who has the record as `r` and a proof for `presented`. -/
def recordArgs (codec : KeyCodec K) (r presented : JobAccount K) (remainingAccounts : List K) :
    LightArgs K Bytes (K × Nat) :=
  ⟨serializeRecord codec.pubkey presented, (presented.queue, presented.jobId),
    serializeRecord codec.pubkey r, remainingAccounts⟩

theorem recordLight_reads [DecidableEq K] {codec : KeyCodec K} {r : JobAccount K}
    (h : RecordEncodable codec r) (presented : JobAccount K) (remainingAccounts : List K) :
    (recordLight codec).tryFromSlice (recordArgs codec r presented remainingAccounts).jobData = some r :=
  tryFromSlice_iff.mpr ⟨h, rfl⟩

theorem recordLight_accepts [DecidableEq K] (codec : KeyCodec K) (r presented : JobAccount K)
    {remainingAccounts : List K} (hne : remainingAccounts ≠ []) (payer : K) :
    Accepts (recordLight codec) (recordArgs codec r presented remainingAccounts) payer presented := by
  have hproof : serializeRecord codec.pubkey presented ≠ [] := by simp [serializeRecord]
  exact ⟨decide_eq_true rfl, decide_eq_true hproof, decide_eq_true ⟨hne, rfl⟩⟩

end DecQueue.CompressedCodec
