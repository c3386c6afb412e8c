import DecQueue.Records
import DecQueue.Reachability
import DecQueue.SeedBytes

/-! # What the worker finds

The program keeps job ids in numbered pages under the seeds "index", queue,
sequence number. The worker reads two accounts under "index", queue, index
type, which no instruction creates, and an account that cannot be fetched
counts as an empty index. It therefore selects no job of any queue. -/

namespace DecQueue.Discovery
open Kit.Fallible Kit.ComparisonSort State Address Program View Refinement Reachability DecqueueCore
  Records SeedBytes

/-! ### The addresses differ -/

def indexName : IndexType → String
  | .pending => "pending"
  | .processing => "processing"
  | .delayed => "delayed"
  | .failed => "failed"
  | .completed => "completed"
  | .cancelled => "cancelled"

def indexSeedBytes (queue : Pubkey) (t : IndexType) : Bytes :=
  asBytes "index" ++ queue.toList ++ asBytes (indexName t)

/-- No name of an index is eight bytes long, as a sequence number is. -/
theorem indexSeedBytes_ne (queue : Pubkey) (t : IndexType) (s : Seeds Pubkey) :
    indexSeedBytes queue t ≠ seedBytes s := by
  intro h
  cases s with
  | index queue' seq =>
    obtain ⟨_, hname⟩ := head_inj h
    have hlength := congrArg List.length hname
    rw [length_asBytes, Kit.Borsh.length_leBytes] at hlength
    revert hlength
    cases t <;> decide
  | queue | queueHead | job =>
    simp [indexSeedBytes, seedBytes, queueHead_bytes, queue_bytes, index_bytes, job_bytes] at h

/-! ### The selection -/

/-- The records are those of the ready jobs of the queue, each once. -/
structure Agrees {K V : Type} (L : Ledger K) (queue : K) (now : Int64)
    (records : List (JobRecord K V)) : Prop where
  once : (records.map JobRecord.publicKey).Nodup
  exact : ∀ k, k ∈ records.map JobRecord.publicKey ↔
    ∃ job, L k = some (.job job) ∧ job.queue = queue ∧ job.status = .pending ∧ job.executeAfter ≤ now

section
variable {K V : Type} [AddressDerivation K] {L : Ledger K} {Q k : K}

theorem slot_address (hQ : QueueKey Q) (h : Slot Q k) : ∃ s, k = address s := by
  rcases h with rfl | rfl | ⟨s, rfl⟩ | ⟨i, rfl⟩
  · obtain ⟨authority, name, rfl⟩ := hQ
    exact ⟨_, rfl⟩
  all_goals exact ⟨_, rfl⟩

variable [IndexDerivation K]

theorem index_vacant (hL : WellFormed L) (queue : K) (t : IndexType) :
    L (deriveIndexPda queue t) = none := by
  rw [Option.eq_none_iff_forall_not_mem]
  intro data hdata
  obtain ⟨Q, v, hv, hslot⟩ := hL _ data hdata
  obtain ⟨s, hs⟩ := slot_address hv.isKey hslot
  exact IndexDerivation.deriveIndexPda_ne queue t s hs

theorem getIndexJobIds_eq_nil (hL : WellFormed L) (queue : K) (t : IndexType) :
    getIndexJobIds L queue t = [] := by
  have hload : loadJobIndex L (deriveIndexPda queue t) = .error (.anchor .accountNotInitialized) := by
    simp only [loadJobIndex, index_vacant hL]
  have hfetch : fetchIndexJobIds L queue t = .error (.fetchFailed (.anchor .accountNotInitialized)) := by
    simp only [fetchIndexJobIds, fetchJobIndex, hload]
    rfl
  simp only [getIndexJobIds, hfetch]

theorem selectJobs_eq_nil (hL : WellFormed L) (S : Sorter (JobRecord K V))
    (parse : Bytes → Except String V) (now : Int) (queue : K) : selectJobs S parse now L queue = [] := by
  have hids : getReadyJobIds L queue = [] := by
    simp only [getReadyJobIds, getIndexJobIds_eq_nil hL, List.append_nil]
  simp only [selectJobs, hids, List.length_nil, if_true]

variable [DecidableEq K]

/-- The selection is right exactly when there is nothing to select. -/
theorem discovery_agrees_iff (hL : Program.Reachable L) (S : Sorter (JobRecord K V))
    (parse : Bytes → Except String V) (queue : K) (now : Int64) :
    Agrees L queue now (selectJobs S parse (now.toInt * 1000) L queue) ↔
      ∀ k job, L k = some (.job job) → job.queue = queue → job.status = .pending →
        ¬job.executeAfter ≤ now := by
  rw [selectJobs_eq_nil (reachable_wellFormed hL)]
  constructor
  · intro h k job hk hq hs hle
    have hmem := (h.exact k).mpr ⟨job, hk, hq, hs, hle⟩
    simp at hmem
  · intro h
    refine ⟨List.nodup_nil, fun k => ⟨fun hk => ?_, fun ⟨job, hk, hq, hs, hle⟩ => ?_⟩⟩
    · simp at hk
    · exact absurd hle (h k job hk hq hs)

end

/-! ### One ready job -/

/-- Six addresses without an account on the small ledgers. -/
instance : IndexDerivation Key where
  deriveIndexPda _ t := .wallet (match t with
    | .pending => 101
    | .processing => 102
    | .delayed => 103
    | .failed => 104
    | .completed => 105
    | .cancelled => 106)
  deriveIndexPda_ne queue t s := by cases s <;> simp [address, AddressDerivation.findProgramAddress, Key.ofSeeds]

def readyRun : List (Tx Key) :=
  [⟨0, initializeAt (.wallet 0) "jobs" 3⟩, ⟨1, enqueueAt demoQueue (.wallet 5) 0 0 [0x7B, 0x7D] "email" 1 0⟩]

theorem readyRun_reachable : Program.Reachable (ledgerAfter readyRun) := ledgerAfter_reachable (by decide)

def readyJob : Job Key :=
  ⟨demoQueue, 0, "email", [0x7B, 0x7D], .pending, 1, 1, 1, 0, 3, none, none, none, none, none, 255⟩

theorem readyRun_job : ledgerAfter readyRun (address (.job demoQueue 0)) = some (.job readyJob) := by decide

def parseEmpty (payload : Bytes) : Except String Unit :=
  if payload = [0x7B, 0x7D] then .ok () else .error "Unexpected token"

/-- As soon as the job is due, the selection is wrong. -/
theorem discovery_agrees_iff_demo :
    ¬Agrees (ledgerAfter readyRun) demoQueue 1
      (selectJobs (mergeSorter _) parseEmpty ((1 : Int64).toInt * 1000) (ledgerAfter readyRun) demoQueue) := by
  intro h
  exact (discovery_agrees_iff readyRun_reachable (mergeSorter _) parseEmpty demoQueue 1).mp h _ readyJob
    readyRun_job rfl rfl (by decide)

/-- The job is ready and readable, and the worker selects nothing. -/
theorem ready_job_missed :
    Program.Reachable (ledgerAfter readyRun) ∧
      ledgerAfter readyRun (address (.job demoQueue 0)) = some (.job readyJob) ∧
      (getJob parseEmpty (ledgerAfter readyRun) (address (.job demoQueue 0))).toOption.any
        (JobRecord.isReady 2000) = true ∧
      selectJobs (mergeSorter _) parseEmpty 2000 (ledgerAfter readyRun) demoQueue = [] := by
  refine ⟨readyRun_reachable, readyRun_job, by decide, ?_⟩
  exact selectJobs_eq_nil (reachable_wellFormed readyRun_reachable) (mergeSorter _) parseEmpty 2000 demoQueue

end DecQueue.Discovery
