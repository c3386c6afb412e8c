import DecQueue.AuditRecord
import DecQueue.Kit.Borsh

/-! # Account data and the space it is given (program/src/state.rs, `SPACE`)

An account is allocated once, when it is created, and never resized. After
each instruction Anchor writes the mutable accounts back: an eight-byte
discriminator, then the Borsh encoding of the record. The encoding of a name,
a payload, a result, an error message or a page varies in length; each of them
is bounded by a guard of the instruction that writes it. -/

namespace DecQueue.AccountSpace
open Kit.Borsh Kit.Fallible Kit.Transition State Handlers Outcomes Address Program View Reachability
  AuditRecord

variable {K : Type}

/-! ### Encoding of the records -/

/-- Position in the enum. -/
def variantIndex : JobStatus → Nat
  | .pending => 0
  | .processing => 1
  | .completed => 2
  | .failed => 3
  | .cancelled => 4

section
variable (pubkey : K → Pubkey)

def encodePubkey (k : K) : Bytes := (pubkey k).toList

def serializeQueue (q : Queue K) : Bytes :=
  encodePubkey pubkey q.authority ++ encodeString q.name ++ leBytes 8 q.jobCount ++
    leBytes 8 q.pendingCount ++ leBytes 8 q.processedCount ++ leBytes 8 q.failedCount ++
    leBytes 1 q.maxRetries ++ encodeBool q.paused ++ encodeInt64 q.createdAt ++ leBytes 1 q.bump

def serializeQueueHead (h : QueueHead K) : Bytes :=
  encodePubkey pubkey h.authority ++ leBytes 8 h.headIndexSeq ++ leBytes 8 h.tailIndexSeq ++
    leBytes 8 h.totalJobs ++ leBytes 1 h.bump

def serializeJob (j : Job K) : Bytes :=
  encodePubkey pubkey j.queue ++ leBytes 8 j.jobId ++ encodeString j.jobType ++
    encodeBytes j.payload ++ leBytes 1 (variantIndex j.status) ++ leBytes 1 j.priority ++
    encodeInt64 j.createdAt ++ encodeInt64 j.executeAfter ++ leBytes 1 j.attempts ++
    leBytes 1 j.maxRetries ++ encodeOption (encodePubkey pubkey) j.worker ++
    encodeOption encodeInt64 j.startedAt ++ encodeOption encodeInt64 j.completedAt ++
    encodeOption encodeString j.result ++ encodeOption encodeString j.errorMessage ++
    leBytes 1 j.bump

def serializeJobIndex (p : JobIndex K) : Bytes :=
  encodePubkey pubkey p.queue ++ leBytes 8 p.seq ++ leBytes 8 p.nextSeq ++
    encodeVec (leBytes 8) p.jobIds ++ leBytes 1 p.bump

def serialize : Account K → Bytes
  | .queue q => serializeQueue pubkey q
  | .queueHead h => serializeQueueHead pubkey h
  | .jobIndex p => serializeJobIndex pubkey p
  | .job j => serializeJob pubkey j

end

/-! ### Allocation -/

def queueSpace : Nat := 8 + 32 + 36 + 8 + 8 + 8 + 8 + 1 + 1 + 8 + 1 + 32

def queueHeadSpace : Nat := 8 + 32 + 8 + 8 + 8 + 1 + 32

def jobSpace : Nat :=
  8 + 32 + 8 + (4 + 32) + (4 + 512) + 1 + 1 + 8 + 8 + 1 + 1 + (1 + 32) + (1 + 8) + (1 + 8) +
    (1 + 4 + 128) + (1 + 4 + 128) + 1 + 64

def jobIndexSpace : Nat := 8 + 32 + 8 + 8 + (4 + maxIndexEntries * 8) + 1 + 32

/-- The `space` of the `init` constraint for accounts of this type. -/
def space : Account K → Nat
  | .queue _ => queueSpace
  | .queueHead _ => queueHeadSpace
  | .jobIndex _ => jobIndexSpace
  | .job _ => jobSpace

/-- `exit` of an Anchor account: discriminator and record overwrite the front
of the data slice, or the slice is too short. -/
def writeBack (discriminator : Account K → Vector UInt8 8) (pubkey : K → Pubkey) (data : Account K)
    (slice : Bytes) : Option Bytes :=
  let encoded := (discriminator data).toList ++ serialize pubkey data
  if encoded.length ≤ slice.length then some (encoded ++ slice.drop encoded.length) else none

/-- The type of an account never changes, so its space is the one it was created with. -/
theorem space_of_sameAccount {data data' : Account K} (h : SameAccount data data') :
    space data' = space data := by
  cases h <;> rfl

/-! ### Bounded records -/

structure JobFits (j : Job K) : Prop where
  jobType : j.jobType.utf8ByteSize ≤ 32
  payload : j.payload.length ≤ 512
  result : ResultFits j.result
  errorMessage : ResultFits j.errorMessage

/-- The parts of variable length are within the limits of the handlers. -/
def Fits : Account K → Prop
  | .queue q => q.name.utf8ByteSize ≤ 32
  | .queueHead _ => True
  | .jobIndex p => p.jobIds.length ≤ maxIndexEntries
  | .job j => JobFits j

section
variable {pubkey : K → Pubkey}

@[simp] theorem length_encodePubkey (k : K) : (encodePubkey pubkey k).length = 32 :=
  Vector.length_toList

theorem encodeString_le {x : Option String} (h : ResultFits x) :
    (encodeOption encodeString x).length ≤ 1 + 4 + 128 := by
  have hbound : ∀ s ∈ x, (encodeString s).length ≤ 4 + 128 := by
    intro s hs
    have hsize := h s hs
    rw [length_encodeString]
    omega
  have hle := length_encodeOption_le hbound
  omega

theorem serializeJob_le {j : Job K} (h : JobFits j) : 8 + (serializeJob pubkey j).length ≤ jobSpace := by
  have htype := h.jobType
  have hpayload := h.payload
  have hresult := encodeString_le h.result
  have herror := encodeString_le h.errorMessage
  have hworker : (encodeOption (encodePubkey pubkey) j.worker).length ≤ 1 + 32 :=
    length_encodeOption_le fun k _ => (length_encodePubkey k).le
  have hstarted : (encodeOption encodeInt64 j.startedAt).length ≤ 1 + 8 :=
    length_encodeOption_le fun t _ => (length_encodeInt64 t).le
  have hcompleted : (encodeOption encodeInt64 j.completedAt).length ≤ 1 + 8 :=
    length_encodeOption_le fun t _ => (length_encodeInt64 t).le
  simp only [serializeJob, List.length_append, length_encodePubkey, length_leBytes,
    length_encodeString, length_encodeBytes, length_encodeInt64]
  unfold jobSpace
  omega

theorem serialize_le {data : Account K} (h : Fits data) :
    8 + (serialize pubkey data).length ≤ space data := by
  cases data with
  | queue q =>
    have hname : q.name.utf8ByteSize ≤ 32 := h
    simp only [serialize, serializeQueue, List.length_append, length_encodePubkey, length_leBytes,
      length_encodeString, length_encodeBool, length_encodeInt64, space, queueSpace]
    omega
  | queueHead hd =>
    simp only [serialize, serializeQueueHead, List.length_append, length_encodePubkey,
      length_leBytes, space, queueHeadSpace]
    omega
  | jobIndex p =>
    have hroom : p.jobIds.length ≤ maxIndexEntries := h
    have hids : (encodeVec (leBytes 8) p.jobIds).length = 4 + p.jobIds.length * 8 :=
      length_encodeVec (length_leBytes 8) p.jobIds
    simp only [serialize, serializeJobIndex, List.length_append, length_encodePubkey,
      length_leBytes, hids, space, jobIndexSpace]
    omega
  | job j => exact serializeJob_le h

end

/-! ### What the handlers write -/

section
variable {clock : Int64} {j : Job K}

theorem JobFits.locked (h : JobFits j) (worker : K) : JobFits (locked clock worker j) :=
  ⟨h.jobType, h.payload, h.result, h.errorMessage⟩

theorem JobFits.finished (h : JobFits j) {result : Option String} (hresult : ResultFits result) :
    JobFits (finished clock result j) :=
  ⟨h.jobType, h.payload, hresult, h.errorMessage⟩

theorem JobFits.retried (h : JobFits j) {errorMessage : String} {worker : K}
    (hmay : MayFail worker j errorMessage) (retryAfterSecs : Int64) :
    JobFits (retried clock errorMessage retryAfterSecs j) :=
  ⟨h.jobType, h.payload, h.result, by
    intro r hr
    cases hr
    exact hmay.2.2⟩

theorem JobFits.deadLettered (h : JobFits j) {errorMessage : String} {worker : K}
    (hmay : MayFail worker j errorMessage) : JobFits (deadLettered clock errorMessage j) :=
  ⟨h.jobType, h.payload, h.result, by
    intro r hr
    cases hr
    exact hmay.2.2⟩

theorem JobFits.cancelled (h : JobFits j) : JobFits (cancelled clock j) :=
  ⟨h.jobType, h.payload, h.result, h.errorMessage⟩

theorem fits_push {p : JobIndex K} (hroom : p.jobIds.length < maxIndexEntries) (id : Nat) :
    Fits (.jobIndex { p with jobIds := p.jobIds ++ [id] }) := by
  show (p.jobIds ++ [id]).length ≤ maxIndexEntries
  rw [List.length_append, List.length_singleton]
  exact hroom

theorem fits_remove {p p' : JobIndex K} {id : Nat} (h : Fits (.jobIndex p))
    (hremove : p.removeJob id = .ok p') : Fits (.jobIndex p') := by
  have hlength := (removeJob_perm hremove).length_eq
  rw [List.length_cons] at hlength
  have hroom : p.jobIds.length ≤ maxIndexEntries := h
  show p'.jobIds.length ≤ maxIndexEntries
  omega

end

/-! ### Every account of a reachable ledger -/

def AllFit (L : Ledger K) : Prop := ∀ k data, L k = some data → Fits data

section
variable [DecidableEq K] {L L' : Ledger K}

theorem AllFit.write (h : AllFit L) (k : K) {data : Account K} (hdata : Fits data) :
    AllFit (write L k data) := by
  intro k' data' hk'
  by_cases he : k' = k
  · rw [he, write_self] at hk'
    cases hk'
    exact hdata
  · rw [write_of_ne he] at hk'
    exact h k' data' hk'

theorem AllFit.writeQueue (h : AllFit L) (k : K) {q : Queue K} (hq : q.name.utf8ByteSize ≤ 32) :
    AllFit (Program.write L k (.queue q)) := h.write k hq

theorem AllFit.writeHead (h : AllFit L) (k : K) (hd : QueueHead K) :
    AllFit (Program.write L k (.queueHead hd)) := h.write k trivial

theorem AllFit.writePage (h : AllFit L) (k : K) {p : JobIndex K}
    (hp : p.jobIds.length ≤ maxIndexEntries) : AllFit (Program.write L k (.jobIndex p)) := h.write k hp

theorem AllFit.writeJob (h : AllFit L) (k : K) {j : Job K} (hj : JobFits j) :
    AllFit (Program.write L k (.job j)) := h.write k hj

variable [AddressDerivation K]

theorem allFit_exec {clock : Int64} {ix : Instruction K} {evs : List (Event K)} (hL : AllFit L)
    (h : exec clock L ix = .ok (L', evs)) : AllFit L' := by
  cases ix with
  | initializeQueue ctx queueName maxRetries =>
    simp only [exec, execInitializeQueue, bind_ok_iff, checkInit_ok_iff, lift_ok_iff,
      initializeQueue_ok_iff, pure_ok_iff] at h
    obtain ⟨_, _, _, _, _, _, _, ⟨hname, _, rfl⟩, hout⟩ := h
    cases hout
    exact ((hL.writeQueue _ hname.2).writeHead _ _).writePage _ (Nat.zero_le _)
  | growIndex ctx newSeq =>
    simp only [exec, execGrowIndex, bind_ok_iff, loadQueue_ok_iff, loadQueueHead_ok_iff,
      loadJobIndex_ok_iff, lift_ok_iff, growIndex_ok_iff, pure_ok_iff] at h
    obtain ⟨_, _, _, _, tail, htail, _, _, _, _, _, _, _, ⟨_, _, _, _, rfl⟩, hout⟩ := h
    cases hout
    have hroom := hL _ _ htail
    refine ((hL.writeHead _ _).writePage _ ?_).writePage _ ?_
    · exact hroom
    · exact Nat.zero_le _
  | advanceHead ctx =>
    simp only [exec, execAdvanceHead, bind_ok_iff, lift_ok_iff, pure_ok_iff] at h
    obtain ⟨_, _, _, _, _, _, _, _, _, _, hout⟩ := h
    cases hout
    exact hL.writeHead _ _
  | enqueueJob ctx payload jobType priority executeAfter =>
    simp only [exec, execEnqueueJob, bind_ok_iff, loadQueue_ok_iff, loadQueueHead_ok_iff,
      loadJobIndex_ok_iff, lift_ok_iff, enqueueJob_ok_iff, pure_ok_iff] at h
    obtain ⟨q, hq, _, _, tail, _, _, _, _, _, _, _, _, ⟨hpayload, htype, _, _, hroom, _, _, _, rfl⟩,
      hout⟩ := h
    cases hout
    have hname := hL _ _ hq
    have hnone : ResultFits none := fun r hr => absurd hr (Option.not_mem_none r)
    have hjob : JobFits (enqueued clock ctx.queue (bumpOf (.job ctx.queue q.jobCount)) q payload
        jobType priority executeAfter) := ⟨htype.2, hpayload, hnone, hnone⟩
    refine (((hL.writeQueue _ ?_).writeJob _ hjob).writeHead _ _).writePage _ ?_
    · exact hname
    · exact fits_push hroom _
  | claimJob ctx =>
    simp only [exec, execClaimJob, bind_ok_iff, loadJob_ok_iff, loadJobIndex_ok_iff, lift_ok_iff,
      claimJob_ok_iff, pure_ok_iff] at h
    obtain ⟨j, hj, p, hp, _, _, _, ⟨_, _, p', hremove, rfl⟩, hout⟩ := h
    cases hout
    exact (hL.writeJob _ (JobFits.locked (hL _ _ hj) _)).writePage _ (fits_remove (hL _ _ hp) hremove)
  | completeJob ctx result =>
    simp only [exec, execCompleteJob, bind_ok_iff, loadQueue_ok_iff, loadJob_ok_iff, lift_ok_iff,
      completeJob_ok_iff, pure_ok_iff] at h
    obtain ⟨q, hq, j, hj, _, _, _, ⟨_, _, hresult, _, rfl⟩, hout⟩ := h
    cases hout
    have hname := hL _ _ hq
    refine (hL.writeQueue _ ?_).writeJob _ ?_
    · exact hname
    · exact JobFits.finished (hL _ _ hj) hresult
  | failJob ctx errorMessage retryAfterSecs =>
    simp only [exec, execFailJob, bind_ok_iff, loadQueue_ok_iff, loadJob_ok_iff,
      loadJobIndex_ok_iff, lift_ok_iff, pure_ok_iff] at h
    obtain ⟨q, hq, j, hj, p, hp, _, _, _, _, r, hok, hout⟩ := h
    have hname := hL _ _ hq
    by_cases hretry : j.attempts < j.maxRetries
    · obtain ⟨hmay, hroom, rfl⟩ := (failJob_retry_iff _ _ _ _ _ _ _ _ hretry _).mp hok
      cases hout
      refine ((hL.writeQueue _ hname).writeJob _ ?_).writePage _ ?_
      · exact JobFits.retried (hL _ _ hj) hmay retryAfterSecs
      · exact fits_push hroom _
    · obtain ⟨hmay, _, rfl⟩ := (failJob_dead_iff _ _ _ _ _ _ _ _ hretry _).mp hok
      cases hout
      refine ((hL.writeQueue _ ?_).writeJob _ ?_).writePage _ (hL _ _ hp)
      · exact hname
      · exact JobFits.deadLettered (hL _ _ hj) hmay
  | cancelJob ctx =>
    simp only [exec, execCancelJob, bind_ok_iff, loadQueue_ok_iff, loadJob_ok_iff,
      loadJobIndex_ok_iff, lift_ok_iff, cancelJob_ok_iff, pure_ok_iff] at h
    obtain ⟨q, hq, j, hj, p, hp, _, _, _, _, _, ⟨_, _, p', hremove, rfl⟩, hout⟩ := h
    cases hout
    have hname := hL _ _ hq
    refine ((hL.writeQueue _ ?_).writeJob _ ?_).writePage _ (fits_remove (hL _ _ hp) hremove)
    · exact hname
    · exact JobFits.cancelled (hL _ _ hj)
  | setQueuePaused ctx paused =>
    simp only [exec, execSetQueuePaused, bind_ok_iff, loadQueue_ok_iff, lift_ok_iff,
      setQueuePaused_ok_iff, pure_ok_iff] at h
    obtain ⟨q, hq, _, ⟨_, rfl⟩, hout⟩ := h
    cases hout
    have hname := hL _ _ hq
    refine hL.writeQueue _ ?_
    exact hname

theorem reachable_allFit (h : Program.Reachable L) : AllFit L := by
  refine Kit.Transition.Reachable.invariant (P := AllFit) h nofun ?_
  intro L tx L' hL hstep
  obtain ⟨evs, hexec⟩ := (step_eq_some L L' tx).mp hstep
  exact allFit_exec hL hexec

/-! ### Writing an account back -/

omit [DecidableEq K] [AddressDerivation K] in
/-- In a slice of its space a record finds room, behind the discriminator. -/
theorem writeBack_eq (discriminator : Account K → Vector UInt8 8) {pubkey : K → Pubkey}
    {data : Account K} {slice : Bytes} (hroom : 8 + (serialize pubkey data).length ≤ space data)
    (hslice : slice.length = space data) :
    writeBack discriminator pubkey data slice = some ((discriminator data).toList ++
        serialize pubkey data ++ slice.drop (8 + (serialize pubkey data).length)) ∧
      ((discriminator data).toList ++ serialize pubkey data ++
        slice.drop (8 + (serialize pubkey data).length)).length = slice.length := by
  have hlength : ((discriminator data).toList ++ serialize pubkey data).length =
      8 + (serialize pubkey data).length := by
    rw [List.length_append, Vector.length_toList]
  constructor
  · simp only [writeBack, hlength]
    exact if_pos (hslice ▸ hroom)
  · rw [List.length_append, hlength, List.length_drop]
    omega

/-- An account fits at any time into the space of its type. What it has become
after any further run fits into the space it has now: writing it back gives a
slice of the same length, of the discriminator, the record and what was behind. -/
theorem accounts_fit_space (discriminator : Account K → Vector UInt8 8) (pubkey : K → Pubkey)
    (hL : Program.Reachable L) :
    (∀ k data, L k = some data → 8 + (serialize pubkey data).length ≤ space data) ∧
      ∀ txs L', run step L txs = some L' → ∀ k data, L k = some data →
        ∃ data', L' k = some data' ∧ space data' = space data ∧
          ∀ slice : Bytes, slice.length = space data →
            ∃ slice', writeBack discriminator pubkey data' slice = some slice' ∧
              slice' = (discriminator data').toList ++ serialize pubkey data' ++
                slice.drop (8 + (serialize pubkey data').length) ∧
              slice'.length = slice.length := by
  refine ⟨fun k data hk => serialize_le (reachable_allFit hL k data hk), ?_⟩
  intro txs L' hrun k data hk
  obtain ⟨data', hk', hsame⟩ := account_run (reachable_wellFormed hL) hrun hk
  have hspace := space_of_sameAccount hsame
  have hroom : 8 + (serialize pubkey data').length ≤ space data' :=
    serialize_le (reachable_allFit (hL.extend hrun) k data' hk')
  refine ⟨data', hk', hspace, fun slice hslice => ?_⟩
  obtain ⟨hwrite, hlength⟩ := writeBack_eq discriminator hroom (hslice.trans hspace.symm)
  exact ⟨_, hwrite, rfl, hlength⟩

/-- The claimed job, and what is written to its slice when it is completed. -/
theorem accounts_fit_space_demo :
    8 + (serialize (fun _ => Vector.replicate 32 0) (.job demoClaimed)).length ≤ jobSpace ∧
      ∃ L' data' slice',
        run step (ledgerAfter demoRun) [⟨4, completeAt demoQueue (.wallet 1) 0 (some "done")⟩] = some L' ∧
        L' (address (.job demoQueue 0)) = some data' ∧
        writeBack (fun _ => Vector.replicate 8 1) (fun _ => Vector.replicate 32 0) data'
          (List.replicate jobSpace 7) = some slice' ∧
        slice' = (Vector.replicate 8 1).toList ++ serialize (fun _ => Vector.replicate 32 0) data' ++
          (List.replicate jobSpace 7).drop
            (8 + (serialize (fun _ => Vector.replicate 32 0) data').length) := by
  obtain ⟨hfit, hlater⟩ := accounts_fit_space (fun _ => Vector.replicate 8 1)
    (fun _ => Vector.replicate 32 0) demo_reachable
  have hrun : (run step (ledgerAfter demoRun)
      [⟨4, completeAt demoQueue (.wallet 1) 0 (some "done")⟩]).isSome = true := by decide
  obtain ⟨L', hL'⟩ := Option.isSome_iff_exists.mp hrun
  obtain ⟨data', hdata', _, hslices⟩ := hlater _ L' hL' _ _ demo_claimed
  obtain ⟨slice', hwrite, hparts, _⟩ := hslices (List.replicate jobSpace 7) List.length_replicate
  exact ⟨hfit _ _ demo_claimed, L', data', slice', hL', hdata', hwrite, hparts⟩

end

end DecQueue.AccountSpace
