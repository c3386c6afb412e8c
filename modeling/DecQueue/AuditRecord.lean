import DecQueue.JobLife

/-! # Accounts as permanent records

An account that exists is never closed, initialised again or given to another
purpose: its identity fields stay, and a job in a terminal state stays as it
is. Both follow from what one step of a queue does to each entry of its view. -/

namespace DecQueue.AuditRecord
open Kit.Fallible Kit.Transition Kit.Lists State Handlers Outcomes Address Program View Refinement
  Reachability Invariants JobLife

variable {K : Type}

/-! ### Identity fields -/

structure SameQueue (q q' : Queue K) : Prop where
  authority : q'.authority = q.authority
  name : q'.name = q.name
  maxRetries : q'.maxRetries = q.maxRetries
  createdAt : q'.createdAt = q.createdAt
  bump : q'.bump = q.bump
  /-- ids are never handed out twice -/
  jobCount : q.jobCount ≤ q'.jobCount

structure SameHead (h h' : QueueHead K) : Prop where
  authority : h'.authority = h.authority
  bump : h'.bump = h.bump

structure SamePage (p p' : JobIndex K) : Prop where
  queue : p'.queue = p.queue
  seq : p'.seq = p.seq
  bump : p'.bump = p.bump

structure SameJob (j j' : Job K) : Prop where
  queue : j'.queue = j.queue
  jobId : j'.jobId = j.jobId
  jobType : j'.jobType = j.jobType
  payload : j'.payload = j.payload
  priority : j'.priority = j.priority
  createdAt : j'.createdAt = j.createdAt
  maxRetries : j'.maxRetries = j.maxRetries
  bump : j'.bump = j.bump

theorem SameQueue.refl (q : Queue K) : SameQueue q q := ⟨rfl, rfl, rfl, rfl, rfl, le_rfl⟩

theorem SameHead.refl (h : QueueHead K) : SameHead h h := ⟨rfl, rfl⟩

theorem SamePage.refl (p : JobIndex K) : SamePage p p := ⟨rfl, rfl, rfl⟩

theorem SameJob.refl (j : Job K) : SameJob j j := ⟨rfl, rfl, rfl, rfl, rfl, rfl, rfl, rfl⟩

inductive SameAccount : Account K → Account K → Prop where
  | queue {q q' : Queue K} (h : SameQueue q q') : SameAccount (.queue q) (.queue q')
  | queueHead {h h' : QueueHead K} (hs : SameHead h h') : SameAccount (.queueHead h) (.queueHead h')
  | jobIndex {p p' : JobIndex K} (h : SamePage p p') : SameAccount (.jobIndex p) (.jobIndex p')
  | job {j j' : Job K} (h : SameJob j j') : SameAccount (.job j) (.job j')

theorem SameAccount.refl (data : Account K) : SameAccount data data := by
  cases data with
  | queue q => exact .queue (.refl q)
  | queueHead h => exact .queueHead (.refl h)
  | jobIndex p => exact .jobIndex (.refl p)
  | job j => exact .job (.refl j)

theorem SameAccount.trans {a b c : Account K} (h : SameAccount a b) (h' : SameAccount b c) :
    SameAccount a c := by
  cases h with
  | queue h =>
    cases h' with
    | queue h' =>
      exact .queue ⟨h'.authority.trans h.authority, h'.name.trans h.name,
        h'.maxRetries.trans h.maxRetries, h'.createdAt.trans h.createdAt, h'.bump.trans h.bump,
        h.jobCount.trans h'.jobCount⟩
  | queueHead h =>
    cases h' with
    | queueHead h' => exact .queueHead ⟨h'.authority.trans h.authority, h'.bump.trans h.bump⟩
  | jobIndex h =>
    cases h' with
    | jobIndex h' =>
      exact .jobIndex ⟨h'.queue.trans h.queue, h'.seq.trans h.seq, h'.bump.trans h.bump⟩
  | job h =>
    cases h' with
    | job h' =>
      exact .job ⟨h'.queue.trans h.queue, h'.jobId.trans h.jobId, h'.jobType.trans h.jobType,
        h'.payload.trans h.payload, h'.priority.trans h.priority, h'.createdAt.trans h.createdAt,
        h'.maxRetries.trans h.maxRetries, h'.bump.trans h.bump⟩

/-! ### One step of a queue -/

/-- Every entry of `v` is still there in `v'`, with its identity. -/
structure Kept (v v' : QueueView K) : Prop where
  queue : SameQueue v.queue v'.queue
  head : SameHead v.head v'.head
  page : ∀ (s : Nat) p, v.pages[s]? = some p → ∃ p', v'.pages[s]? = some p' ∧ SamePage p p'
  job : ∀ (i : Nat) j, v.jobs[i]? = some j → ∃ j', v'.jobs[i]? = some j' ∧ SameJob j j'

theorem Kept.refl (v : QueueView K) : Kept v v :=
  ⟨.refl _, .refl _, fun _ p h => ⟨p, h, .refl p⟩, fun _ j h => ⟨j, h, .refl j⟩⟩

theorem sameJob_of_jobStep {k authority : K} {clock : Int64} {ix : Instruction K} {j j' : Job K}
    (h : JobStep k clock authority ix j j') : SameJob j j' := by
  cases h <;> exact ⟨rfl, rfl, rfl, rfl, rfl, rfl, rfl, rfl⟩

section
variable [AddressDerivation K] {Q : K} {clock : Int64} {ix : Instruction K} {v v' : QueueView K}
  {evs : List (Event K)}

theorem page_kept (h : QueueStep Q clock ix v v' evs) :
    ∀ (s : Nat) p, v.pages[s]? = some p → ∃ p', v'.pages[s]? = some p' ∧ SamePage p p' := by
  have hsame : ∀ (s : Nat) p, v.pages[s]? = some p → ∃ p', v.pages[s]? = some p' ∧ SamePage p p' :=
    (Kept.refl v).page
  cases h with
  | growIndex hpage => exact exists_concat (exists_set SamePage.refl hpage ⟨rfl, rfl, rfl⟩)
  | enqueueJob payer payload jobType priority executeAfter hpage =>
    exact exists_set SamePage.refl hpage ⟨rfl, rfl, rfl⟩
  | claimJob worker hjob hpage hstatus hready hremove =>
    obtain ⟨hq, hs, _, hb⟩ := removeJob_fields hremove
    exact exists_set SamePage.refl hpage ⟨hq, hs, hb⟩
  | retryJob worker errorMessage retryAfterSecs hjob hpage =>
    exact exists_set SamePage.refl hpage ⟨rfl, rfl, rfl⟩
  | cancelJob hjob hpage hstatus hremove =>
    obtain ⟨hq, hs, _, hb⟩ := removeJob_fields hremove
    exact exists_set SamePage.refl hpage ⟨hq, hs, hb⟩
  | advanceHead | completeJob | deadLetter | setQueuePaused => exact hsame

theorem kept_step (hq : Placed Q v) (h : QueueStep Q clock ix v v' evs) : Kept v v' := by
  refine ⟨?_, ?_, page_kept h, fun i j hj => ?_⟩
  · cases h <;> exact ⟨rfl, rfl, rfl, rfl, rfl, by simp⟩
  · cases h <;> exact ⟨rfl, rfl⟩
  · obtain ⟨j', hj', hs⟩ := view_job_step hj (hq.job i j hj).1 h
    exact ⟨j', hj', sameJob_of_jobStep hs⟩

variable {L L' : Ledger K}

theorem Kept.account (h : Kept v v') (hv : Hosts L Q v) (hv' : Hosts L' Q v') {k : K}
    {data : Account K} (hs : Slot Q k) (hk : L k = some data) :
    ∃ data', L' k = some data' ∧ SameAccount data data' := by
  rcases hv.account hs hk with ⟨rfl, rfl⟩ | ⟨rfl, rfl⟩ | ⟨s, p, rfl, hp, rfl⟩ | ⟨i, j, rfl, hj, rfl⟩
  · exact ⟨_, hv'.view.queueAt, .queue h.queue⟩
  · exact ⟨_, hv'.view.headAt, .queueHead h.head⟩
  · obtain ⟨p', hp', hsame⟩ := h.page s p hp
    exact ⟨_, hv'.page hp', .jobIndex hsame⟩
  · obtain ⟨j', hj', hsame⟩ := h.job i j hj
    exact ⟨_, hv'.job hj', .job hsame⟩

end

/-! ### Every account, over whole runs -/

section
variable [DecidableEq K] [AddressDerivation K] {L L' : Ledger K} {tx : Tx K} {txs : List (Tx K)} {k : K}

theorem account_step (hL : WellFormed L) (h : step L tx = some L') {data : Account K}
    (hk : L k = some data) : ∃ data', L' k = some data' ∧ SameAccount data data' := by
  obtain ⟨Q, v, hv, hs⟩ := hL k data hk
  obtain ⟨evs, heff⟩ := effect_of_step hL h
  obtain ⟨v', hv', rfl | hstep⟩ := heff.forward hv
  · exact (Kept.refl v').account hv hv' hs hk
  · exact (kept_step hv.placed hstep).account hv hv' hs hk

theorem account_run (hL : WellFormed L) (hrun : run step L txs = some L') {data : Account K}
    (hk : L k = some data) : ∃ data', L' k = some data' ∧ SameAccount data data' := by
  have hrel := run_relation (P := WellFormed) (R := fun L L' : Ledger K => ∀ k data, L k = some data →
      ∃ data', L' k = some data' ∧ SameAccount data data')
    (fun L k data hk => ⟨data, hk, .refl data⟩) ?_ ?_ hL hrun
  · exact hrel k data hk
  · intro L M N h h' k data hk
    obtain ⟨b, hb, hs⟩ := h k data hk
    obtain ⟨c, hc, hs'⟩ := h' k b hb
    exact ⟨c, hc, hs.trans hs'⟩
  · intro L tx L' hL h
    exact ⟨wellFormed_step L tx L' hL h, fun k data hk => account_step hL h hk⟩

def creates : Instruction K → List K
  | .initializeQueue ctx _ _ => [ctx.queue, ctx.queueHead, ctx.firstIndexPage]
  | .growIndex ctx _ => [ctx.newTailPage]
  | .enqueueJob ctx _ _ _ _ => [ctx.job]
  | .advanceHead _ | .claimJob _ | .completeJob _ _ | .failJob _ _ _ | .cancelJob _
  | .setQueuePaused _ _ => []

theorem creates_vacant (h : step L tx = some L') : ∀ k ∈ creates tx.ix, L k = none := by
  obtain ⟨evs, hexec⟩ := (step_eq_some L L' tx).mp h
  generalize tx.ix = ix at hexec ⊢
  cases ix with
  | initializeQueue ctx queueName maxRetries =>
    simp only [exec, execInitializeQueue, bind_ok_iff, checkInit_ok_iff] at hexec
    obtain ⟨_, ⟨_, hq⟩, _, ⟨_, hh⟩, _, ⟨_, hp⟩, _⟩ := hexec
    simp [creates, hq, hh, hp]
  | growIndex ctx newSeq =>
    simp only [exec, execGrowIndex, bind_ok_iff, checkInit_ok_iff] at hexec
    obtain ⟨_, _, _, _, _, _, _, ⟨_, hp⟩, _⟩ := hexec
    simp [creates, hp]
  | enqueueJob ctx payload jobType priority executeAfter =>
    simp only [exec, execEnqueueJob, bind_ok_iff, checkInit_ok_iff] at hexec
    obtain ⟨_, _, _, _, _, _, _, ⟨_, hj⟩, _⟩ := hexec
    simp [creates, hj]
  | advanceHead | claimJob | completeJob | failJob | cancelJob | setQueuePaused => simp [creates]

end

/-! ### The life of a job -/

inductive Moves : JobStatus → JobStatus → Prop where
  | claim : Moves .pending .processing
  | complete : Moves .processing .completed
  | deadLetter : Moves .processing .failed
  | retry : Moves .processing .pending
  | cancel {status : JobStatus} (h : status = .pending ∨ status = .processing) :
      Moves status .cancelled

def terminal : JobStatus → Bool
  | .pending | .processing => false
  | .completed | .failed | .cancelled => true

section
variable {k authority : K} {clock : Int64} {ix : Instruction K} {j j' : Job K}

theorem moves_of_jobStep (h : JobStep k clock authority ix j j') :
    j'.status = j.status ∨ Moves j.status j'.status := by
  cases h with
  | other => exact .inl rfl
  | claim _ _ hstatus => exact .inr (hstatus ▸ .claim)
  | complete _ _ hstatus => exact .inr (hstatus ▸ .complete)
  | retry _ _ _ _ hmay => exact .inr (hmay.1 ▸ .retry)
  | deadLetter _ _ _ _ hmay => exact .inr (hmay.1 ▸ .deadLetter)
  | cancel _ hstatus => exact .inr (.cancel hstatus)

theorem jobStep_of_terminal (h : JobStep k clock authority ix j j')
    (ht : terminal j.status = true) : j' = j := by
  cases h with
  | other => rfl
  | claim _ _ hstatus | complete _ _ hstatus =>
    rw [hstatus] at ht
    cases ht
  | retry _ _ _ _ hmay | deadLetter _ _ _ _ hmay =>
    rw [hmay.1] at ht
    cases ht
  | cancel _ hstatus =>
    rcases hstatus with hs | hs
    all_goals
      rw [hs] at ht
      cases ht

end

section
variable [DecidableEq K] [AddressDerivation K] {L L' : Ledger K} {txs : List (Tx K)} {k : K}

theorem terminal_run (hL : WellFormed L) (hrun : run step L txs = some L') {job : Job K}
    (hk : L k = some (.job job)) (ht : terminal job.status = true) : L' k = some (.job job) := by
  refine (run_invariant (P := fun M => WellFormed M ∧ M k = some (.job job)) ?_ ⟨hL, hk⟩ hrun).2
  intro M tx M' ⟨hM, hk⟩ h
  obtain ⟨_, job', _, hk', hs⟩ := job_step hM hk h
  cases jobStep_of_terminal hs ht
  exact ⟨wellFormed_step M tx M' hM h, hk'⟩

/-- What the ledger promises to keep of the accounts it holds now. -/
structure Permanent (L : Ledger K) : Prop where
  identity : ∀ k job, L k = some (.job job) → ∀ txs L', run step L txs = some L' →
    ∃ job', L' k = some (.job job') ∧ SameJob job job'
  status : ∀ k job, L k = some (.job job) → ∀ tx L', step L tx = some L' →
    ∃ job', L' k = some (.job job') ∧ (job'.status = job.status ∨ Moves job.status job'.status)
  frozen : ∀ k job, L k = some (.job job) → terminal job.status = true →
    ∀ txs L', run step L txs = some L' → L' k = some (.job job)
  /-- nothing is closed or given other contents -/
  kept : ∀ k data, L k = some data → ∀ txs L', run step L txs = some L' →
    ∃ data', L' k = some data' ∧ SameAccount data data'
  /-- nothing is initialised twice -/
  vacant : ∀ tx L', step L tx = some L' → ∀ k ∈ creates tx.ix, L k = none

theorem audit_record (hL : Reachable L) : Permanent L := by
  have hwf := reachable_wellFormed hL
  refine ⟨?_, ?_, ?_, ?_, fun tx L' h => creates_vacant h⟩
  · intro k job hk txs L' hrun
    obtain ⟨_, hk', hs⟩ := account_run hwf hrun hk
    cases hs with
    | job h => exact ⟨_, hk', h⟩
  · intro k job hk tx L' h
    obtain ⟨_, job', _, hk', hs⟩ := job_step hwf hk h
    exact ⟨job', hk', moves_of_jobStep hs⟩
  · exact fun k job hk ht txs L' hrun => terminal_run hwf hrun hk ht
  · exact fun k data hk txs L' hrun => account_run hwf hrun hk

end

theorem audit_record_demo : Permanent (ledgerAfter demoRun) := audit_record demo_reachable

end DecQueue.AuditRecord
