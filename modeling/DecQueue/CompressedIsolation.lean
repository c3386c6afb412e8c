import DecQueue.CompressedCodec
import DecQueue.Reachability

/-! # Which queue a compressed instruction writes to

The record names its queue, but no handler compares that field with the
accounts of the instruction: `claim_compressed_job` takes any index page, and
the other two take any Queue account. They stay within the queue of the record
exactly when the caller names the accounts of that queue. -/

namespace DecQueue.CompressedIsolation
open Kit.Fallible State Handlers Outcomes Address Program View Reachability Compressed AccountCodec
  CompressedCodec

variable {K : Type}

/-- What changes is index pages of `Q` and the Queue account `Q`. -/
def Confined (L L' : Ledger K) (Q : K) : Prop :=
  ∀ k, L' k ≠ L k → (∃ page, L k = some (.jobIndex page) ∧ page.queue = Q) ∨
    ∃ queue, L k = some (.queue queue) ∧ k = Q

def NamesQueue (L : Ledger K) (Q : K) : CompressedInstruction K → Prop
  | .claimCompressedJob ctx => ∃ page, L ctx.sourceIndexPage = some (.jobIndex page) ∧ page.queue = Q
  | .completeCompressedJob ctx _ => ctx.queue = Q
  | .failCompressedJob ctx _ _ => ctx.queue = Q

section
variable [DecidableEq K] {L : Ledger K} {k Q : K}

theorem write_same {data : Account K} (h : L k = some data) : write L k data = L :=
  Function.update_eq_self_iff.mpr h.symm

theorem confined_writePage {page page' : JobIndex K} (hk : L k = some (.jobIndex page))
    (hne : page'.jobIds.length ≠ page.jobIds.length) :
    Confined L (write L k (.jobIndex page')) Q ↔ page.queue = Q := by
  constructor
  · intro h
    have hchanged : write L k (.jobIndex page') k ≠ L k := by
      rw [write_self, hk]
      intro he
      cases he
      exact hne rfl
    rcases h k hchanged with ⟨q, hq, hown⟩ | ⟨q, hq, _⟩
    · cases hk.symm.trans hq
      exact hown
    · cases hk.symm.trans hq
  · intro hown k' hne'
    by_cases he : k' = k
    · exact .inl ⟨page, he ▸ hk, hown⟩
    · exact absurd (write_of_ne he L _) hne'

theorem confined_writeQueue {queue queue' : Queue K} (hk : L k = some (.queue queue))
    (hne : queue' ≠ queue) : Confined L (write L k (.queue queue')) Q ↔ k = Q := by
  constructor
  · intro h
    have hchanged : write L k (.queue queue') k ≠ L k := by
      rw [write_self, hk]
      intro he
      cases he
      exact hne rfl
    rcases h k hchanged with ⟨q, hq, _⟩ | ⟨q, hq, hown⟩
    · cases hk.symm.trans hq
    · exact hown
  · rintro rfl k' hne'
    by_cases he : k' = k
    · exact .inr ⟨queue, he ▸ hk, he⟩
    · exact absurd (write_of_ne he L _) hne'

end

section
variable [DecidableEq K] [AddressDerivation K] [DefaultKey K] {Proof Meta : Type}
  {light : LightSystem K Proof Meta} {args : LightArgs K Proof Meta} {clock : Int64}
  {L L' : Ledger K} {r record : JobAccount K} {evs : List (Event K)}

theorem claim_writes {ctx : ClaimCompressedJob K} (hr : light.tryFromSlice args.jobData = some r)
    (h : execCompressed light args clock L (.claimCompressedJob ctx) = .ok (L', record, evs)) :
    ∃ page page', L ctx.sourceIndexPage = some (.jobIndex page) ∧
      page.removeJob r.jobId = .ok page' ∧ L' = write L ctx.sourceIndexPage (.jobIndex page') := by
  simp only [execCompressed, bind_ok_iff, loadJobIndex_ok_iff, require_ok_iff, lift_ok_iff,
    claimCompressedJob_ok_iff, pure_ok_iff] at h
  obtain ⟨page, hpage, _, _, _, ⟨job, hjob, _, _, page', hremove, _, rfl⟩, hout⟩ := h
  cases hjob.symm.trans hr
  cases hout
  exact ⟨page, page', hpage, hremove, rfl⟩

theorem complete_writes {ctx : CompleteCompressedJob K} {result : Option String}
    (h : execCompressed light args clock L (.completeCompressedJob ctx result) =
      .ok (L', record, evs)) :
    ∃ queue queue' : Queue K, L ctx.queue = some (.queue queue) ∧
      queue'.processedCount = queue.processedCount + 1 ∧ L' = write L ctx.queue (.queue queue') := by
  simp only [execCompressed, bind_ok_iff, loadQueue_ok_iff, lift_ok_iff,
    completeCompressedJob_ok_iff, pure_ok_iff] at h
  obtain ⟨queue, hqueue, _, ⟨job, _, _, _, _, _, _, rfl⟩, hout⟩ := h
  cases hout
  exact ⟨queue, _, hqueue, rfl, rfl⟩

/-- A retry writes to the page, the last failure to the queue. -/
theorem fail_writes {ctx : FailCompressedJob K} {errorMessage : String} {retryAfterSecs : Int64}
    (hr : light.tryFromSlice args.jobData = some r)
    (h : execCompressed light args clock L
      (.failCompressedJob ctx errorMessage retryAfterSecs) = .ok (L', record, evs)) :
    (∃ page page' : JobIndex K, L ctx.retryIndexPage = some (.jobIndex page) ∧
        page.queue = ctx.queue ∧ page'.jobIds.length = page.jobIds.length + 1 ∧
        L' = write L ctx.retryIndexPage (.jobIndex page')) ∨
      ∃ queue queue' : Queue K, L ctx.queue = some (.queue queue) ∧
        queue'.failedCount = queue.failedCount + 1 ∧ L' = write L ctx.queue (.queue queue') := by
  simp only [execCompressed, bind_ok_iff, loadQueue_ok_iff, loadJobIndex_ok_iff, require_ok_iff,
    lift_ok_iff, pure_ok_iff] at h
  obtain ⟨queue, hqueue, page, hpage, _, hown, _, hok, hout⟩ := h
  by_cases hretry : r.attempts < r.maxRetries
  · rw [failCompressedJob_retry_iff light args clock hr _ _ _ _ _ _ _ _ hretry] at hok
    obtain ⟨_, _, _, rfl⟩ := hok
    cases hout
    rw [write_same hqueue]
    exact .inl ⟨page, _, hpage, hown, by rw [List.length_append, List.length_singleton], rfl⟩
  · rw [failCompressedJob_dead_iff light args clock hr _ _ _ _ _ _ _ _ hretry] at hok
    obtain ⟨_, _, _, rfl⟩ := hok
    cases hout
    have hne : ctx.retryIndexPage ≠ ctx.queue := by
      intro he
      rw [he, hqueue] at hpage
      cases hpage
    rw [write_same ((write_of_ne hne L _).trans hpage)]
    exact .inr ⟨queue, _, hqueue, rfl, rfl⟩

/-- The queue of the record is the only one touched, if and only if the
account named for the change belongs to it. -/
theorem compressed_confined_iff {ix : CompressedInstruction K}
    (hr : light.tryFromSlice args.jobData = some r)
    (h : execCompressed light args clock L ix = .ok (L', record, evs)) :
    Confined L L' r.queue ↔ NamesQueue L r.queue ix := by
  cases ix with
  | claimCompressedJob ctx =>
    obtain ⟨page, page', hpage, hremove, rfl⟩ := claim_writes hr h
    have hlength := (removeJob_perm hremove).length_eq
    rw [List.length_cons] at hlength
    rw [confined_writePage hpage (by omega)]
    constructor
    · exact fun hown => ⟨page, hpage, hown⟩
    · rintro ⟨q, hq, hown⟩
      cases hpage.symm.trans hq
      exact hown
  | completeCompressedJob ctx result =>
    obtain ⟨queue, queue', hqueue, hcount, rfl⟩ := complete_writes h
    exact confined_writeQueue hqueue fun he => absurd (he ▸ hcount) (by omega)
  | failCompressedJob ctx errorMessage retryAfterSecs =>
    rcases fail_writes hr h with ⟨page, page', hpage, hown, hlength, rfl⟩ |
      ⟨queue, queue', hqueue, hcount, rfl⟩
    · rw [confined_writePage hpage (by omega), hown]
      exact Iff.rfl
    · exact confined_writeQueue hqueue fun he => absurd (he ▸ hcount) (by omega)

end

/-! ### A page of another queue

A record of the queue `mail` is claimed through the page of the queue `jobs`,
which loses the id of its own job. -/

def mailQueue : Key := address (.queue (.wallet 0) "mail")

def mailRun : List (Tx Key) := demoStart ++ [⟨3, initializeAt (.wallet 0) "mail" 3⟩]

def mailRecord : JobAccount Key where
  queue := mailQueue
  jobId := 0
  jobType := Vector.replicate 32 0
  payloadLen := 0
  payload := Vector.replicate 512 0
  status := cjobPending
  priority := 1
  createdAt := 3
  executeAfter := 3
  attempts := 0
  maxRetries := 3
  worker := defaultKey
  startedAt := 0
  completedAt := 0

/-- The caller has a proof for the record as the claim changes it. -/
def mailArgs : LightArgs Key Bytes (Key × Nat) :=
  recordArgs (queueCodec "mail") mailRecord (locked 4 (.wallet 1) mailRecord) [.wallet 9]

def mailLight : LightSystem Key Bytes (Key × Nat) := recordLight (queueCodec "mail")

def mailClaim : CompressedInstruction Key :=
  .claimCompressedJob ⟨.wallet 1, .wallet 1, address (.index demoQueue 0)⟩

theorem mailRun_accepted : (Kit.Transition.run step genesis mailRun).isSome = true := by decide

theorem mail_page : ledgerAfter mailRun (address (.index demoQueue 0)) =
    some (.jobIndex ⟨demoQueue, 0, 0, [0, 1], 255⟩) := by decide

theorem mailRecord_encodable : RecordEncodable (queueCodec "mail") mailRecord :=
  ⟨by decide, by decide, by decide, by decide, by decide, by decide, by decide⟩

theorem mailRecord_read : mailLight.tryFromSlice mailArgs.jobData = some mailRecord :=
  recordLight_reads mailRecord_encodable _ _

theorem mailClaim_accepted : ∃ L' record evs,
    execCompressed mailLight mailArgs 4 (ledgerAfter mailRun) mailClaim = .ok (L', record, evs) := by
  simp only [mailClaim, execCompressed, bind_ok_iff, loadJobIndex_ok_iff, require_ok_iff, lift_ok_iff,
    claimCompressedJob_ok_iff, pure_ok_iff]
  exact ⟨_, _, _, _, mail_page, (), by decide, _, ⟨mailRecord, mailRecord_read, rfl, by decide, _, rfl,
    recordLight_accepts _ _ _ (List.cons_ne_nil _ _) _, rfl⟩, rfl⟩

theorem compressed_confined_iff_demo : ∃ L' record evs,
    execCompressed mailLight mailArgs 4 (ledgerAfter mailRun) mailClaim = .ok (L', record, evs) ∧
      (Confined (ledgerAfter mailRun) L' mailRecord.queue ↔
        NamesQueue (ledgerAfter mailRun) mailRecord.queue mailClaim) := by
  obtain ⟨L', record, evs, h⟩ := mailClaim_accepted
  exact ⟨L', record, evs, h, compressed_confined_iff mailRecord_read h⟩

theorem foreign_page_changed : Reachable (ledgerAfter mailRun) ∧ ∃ L' record evs,
    execCompressed mailLight mailArgs 4 (ledgerAfter mailRun) mailClaim = .ok (L', record, evs) ∧
      ¬Confined (ledgerAfter mailRun) L' mailRecord.queue := by
  refine ⟨ledgerAfter_reachable mailRun_accepted, ?_⟩
  obtain ⟨L', record, evs, h⟩ := mailClaim_accepted
  refine ⟨L', record, evs, h, ?_⟩
  obtain ⟨page, page', hp, hremove, rfl⟩ := claim_writes mailRecord_read h
  have hlength := (removeJob_perm hremove).length_eq
  rw [List.length_cons] at hlength
  rw [confined_writePage hp (by omega)]
  cases mail_page.symm.trans hp
  decide

end DecQueue.CompressedIsolation
