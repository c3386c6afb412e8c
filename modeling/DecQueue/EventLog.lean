import DecQueue.Invariants

/-! # The event log replays to the accounts

A reader of the transaction log sees events only. `replay` is what such a
reader computes: one entry for each `JobEnqueued`, changed by the later events
of the job. It agrees with the Job accounts of the queue after every run, so
the log and the accounts are two copies of one history. -/

namespace DecQueue.EventLog
open Kit.Transition Kit.Lists State Handlers Outcomes Address Program View Refinement Reachability
  Invariants

variable {K : Type}

/-! ### Replaying events -/

/-- What the events of a job tell about it. -/
structure Entry (K : Type) where
  jobType : String
  priority : Nat
  createdAt : Int64
  executeAfter : Int64
  status : JobStatus
  attempts : Nat
  worker : Option K
  startedAt : Option Int64
  completedAt : Option Int64
  result : Option String
  errorMessage : Option String
  deriving DecidableEq

/-- Entries under their job ids, in the order of their creation. -/
abbrev Log (K : Type) := List (Nat × Entry K)

def amend (log : Log K) (jobId : Nat) (f : Entry K → Entry K) : Log K :=
  log.map fun e => if e.1 = jobId then (e.1, f e.2) else e

def apply (log : Log K) : Event K → Log K
  | .queueCreated _ _ _ | .queuePauseChanged _ _ _ => log
  | .jobEnqueued _ jobId jobType priority executeAfter enqueuedAt =>
      log ++ [(jobId,
        { jobType := jobType, priority := priority, createdAt := enqueuedAt,
          executeAfter := executeAfter, status := .pending, attempts := 0, worker := none,
          startedAt := none, completedAt := none, result := none, errorMessage := none })]
  | .jobClaimed _ jobId worker attempt claimedAt =>
      amend log jobId fun e => { e with
        status := .processing
        worker := some worker
        attempts := attempt
        startedAt := some claimedAt }
  | .jobCompleted _ jobId _ result completedAt =>
      amend log jobId fun e =>
        { e with status := .completed, result := result, completedAt := some completedAt }
  | .jobRetrying _ jobId _ retryAt error =>
      amend log jobId fun e => { e with
        status := .pending
        worker := none
        startedAt := none
        executeAfter := retryAt
        errorMessage := some error }
  | .jobFailed _ jobId attempts error failedAt =>
      amend log jobId fun e => { e with
        status := .failed
        attempts := attempts
        errorMessage := some error
        completedAt := some failedAt }
  | .jobCancelled _ jobId _ cancelledAt =>
      amend log jobId fun e => { e with status := .cancelled, completedAt := some cancelledAt }

/-- The queue an event names; `QueueCreated` names none. -/
def queueOf : Event K → Option K
  | .queueCreated _ _ _ => none
  | .queuePauseChanged queue _ _ | .jobEnqueued queue _ _ _ _ _ | .jobClaimed queue _ _ _ _
  | .jobCompleted queue _ _ _ _ | .jobRetrying queue _ _ _ _ | .jobFailed queue _ _ _ _
  | .jobCancelled queue _ _ _ => some queue

section
variable [DecidableEq K]

def ofQueue (Q : K) (events : List (Event K)) : List (Event K) :=
  events.filter fun e => decide (queueOf e = some Q)

def replay (Q : K) (events : List (Event K)) : Log K := (ofQueue Q events).foldl apply []

theorem replay_append (Q : K) (events evs : List (Event K)) :
    replay Q (events ++ evs) = (ofQueue Q evs).foldl apply (replay Q events) := by
  simp only [replay, ofQueue, List.filter_append, List.foldl_append]

theorem ofQueue_other {Q : K} {events : List (Event K)}
    (h : ∀ e ∈ events, queueOf e ≠ some Q) : ofQueue Q events = [] := by
  apply List.filter_eq_nil_iff.mpr
  intro e he hd
  exact h e he (of_decide_eq_true hd)

end

/-! ### Entries of job records -/

def entryOf (j : Job K) : Entry K where
  jobType := j.jobType
  priority := j.priority
  createdAt := j.createdAt
  executeAfter := j.executeAfter
  status := j.status
  attempts := j.attempts
  worker := j.worker
  startedAt := j.startedAt
  completedAt := j.completedAt
  result := j.result
  errorMessage := j.errorMessage

def logOf (jobs : List (Job K)) : Log K := jobs.map fun j => (j.jobId, entryOf j)

theorem amend_logOf {jobs : List (Job K)} {i : Nat} {j j' : Job K} {f : Entry K → Entry K}
    (hids : ∀ (t : Nat) r, jobs[t]? = some r → r.jobId = t) (hj : jobs[i]? = some j)
    (hid : j'.jobId = j.jobId) (hf : f (entryOf j) = entryOf j') :
    amend (logOf jobs) j.jobId f = logOf (jobs.set i j') := by
  apply List.ext_getElem?
  intro t
  simp only [amend, logOf, List.getElem?_map, Option.map_map]
  rw [getElem?_set_of_some j' hj]
  by_cases ht : t = i
  · subst ht
    simp [hj, hid, hf]
  · rw [if_neg ht]
    cases hr : jobs[t]? with
    | none => rfl
    | some r =>
      have hne : r.jobId ≠ j.jobId := by
        rw [hids t r hr, hids i j hj]
        exact ht
      simp [hne]

section
variable [AddressDerivation K] {Q : K} {clock : Int64} {ix : Instruction K} {v v' : QueueView K}
  {evs : List (Event K)}

theorem queueOf_step (hq : Placed Q v) (h : QueueStep Q clock ix v v' evs) :
    ∀ e ∈ evs, queueOf e = some Q := by
  intro e he
  cases h with
  | growIndex | advanceHead => cases he
  | claimJob worker hjob =>
    cases List.mem_singleton.mp he
    exact congrArg some (hq.job _ _ hjob).1
  | enqueueJob | completeJob | retryJob | deadLetter | cancelJob | setQueuePaused =>
    cases List.mem_singleton.mp he
    rfl

variable [DecidableEq K]

theorem ofQueue_step (hq : Placed Q v) (h : QueueStep Q clock ix v v' evs) : ofQueue Q evs = evs :=
  List.filter_eq_self.mpr fun e he => decide_eq_true (queueOf_step hq h e he)

theorem replay_step (hq : Placed Q v) (h : QueueStep Q clock ix v v' evs) :
    (ofQueue Q evs).foldl apply (logOf v.jobs) = logOf v'.jobs := by
  have hids : ∀ (t : Nat) r, v.jobs[t]? = some r → r.jobId = t := fun t r hr => (hq.job t r hr).2.1
  rw [ofQueue_step hq h]
  cases h with
  | growIndex | advanceHead | setQueuePaused => rfl
  | enqueueJob => simp [logOf, apply, enqueued, entryOf]
  | claimJob worker hjob =>
    simp only [List.foldl_cons, List.foldl_nil, apply]
    exact amend_logOf hids hjob rfl rfl
  | completeJob worker result hjob =>
    simp only [List.foldl_cons, List.foldl_nil, apply]
    exact amend_logOf hids hjob rfl rfl
  | retryJob worker errorMessage retryAfterSecs hjob =>
    simp only [List.foldl_cons, List.foldl_nil, apply]
    exact amend_logOf hids hjob rfl rfl
  | deadLetter worker errorMessage retryAfterSecs hjob =>
    simp only [List.foldl_cons, List.foldl_nil, apply]
    exact amend_logOf hids hjob rfl rfl
  | cancelJob hjob =>
    simp only [List.foldl_cons, List.foldl_nil, apply]
    exact amend_logOf hids hjob rfl rfl

end

/-! ### Over a run -/

section
variable [DecidableEq K] [AddressDerivation K] {L L' : Ledger K} {Q : K}

/-- A rejected transaction emits nothing. -/
def emitted (L : Ledger K) (tx : Tx K) : List (Event K) :=
  match exec tx.clock L tx.ix with
  | .ok (_, evs) => evs
  | .error _ => []

def eventsOf (txs : List (Tx K)) : List (Event K) := outputs step emitted genesis txs

theorem effect_emitted {tx : Tx K} (hL : WellFormed L) (h : step L tx = some L') :
    Effect tx.clock L L' tx.ix (emitted L tx) := by
  obtain ⟨evs, hexec⟩ := (step_eq_some L L' tx).mp h
  have hevs : emitted L tx = evs := by simp only [emitted, hexec]
  rw [hevs]
  exact effect_of_exec hL hexec

/-- The events so far tell of each queue what the ledger holds for it. -/
structure Mirrors (L : Ledger K) (events : List (Event K)) : Prop where
  hosted : ∀ Q v, Hosts L Q v → replay Q events = logOf v.jobs
  absent : ∀ Q, (∀ v, ¬Hosts L Q v) → ofQueue Q events = []

theorem ofQueue_noStep {clock : Int64} {ix : Instruction K} {evs : List (Event K)}
    (h : NoStep clock L Q ix evs) : ofQueue Q evs = [] := by
  cases h with
  | create => exact ofQueue_other (by simp [queueOf])
  | other hne hw hstep =>
    refine ofQueue_other fun e he hq => hne ?_
    exact Option.some.inj (hq.symm.trans (queueOf_step hw.placed hstep e he))

theorem Mirrors.extend {clock : Int64} {ix : Instruction K} {events evs : List (Event K)}
    (hm : Mirrors L events) (h : Effect clock L L' ix evs) : Mirrors L' (events ++ evs) := by
  constructor
  · intro Q v hv
    rw [replay_append]
    cases h.effectAt Q with
    | created _ _ _ _ hfree hnew hno =>
      cases hv.unique hnew
      rw [ofQueue_noStep hno, replay, hm.absent Q hfree]
      rfl
    | stepped hw hw' hstep =>
      cases hv.unique hw'
      rw [hm.hosted Q _ hw, replay_step hw.placed hstep]
    | untouched hsame hno =>
      rw [ofQueue_noStep hno, List.foldl_nil]
      exact hm.hosted Q v ((hsame v).mp hv)
  · intro Q hQ
    cases h.effectAt Q with
    | created _ _ _ _ _ hnew => exact absurd hnew (hQ _)
    | stepped _ hw' => exact absurd hw' (hQ _)
    | untouched hsame hno =>
      rw [ofQueue, List.filter_append]
      exact List.append_eq_nil_iff.mpr
        ⟨hm.absent Q fun v hv => hQ v ((hsame v).mpr hv), ofQueue_noStep hno⟩

theorem mirrors_run {txs : List (Tx K)} (hrun : run step genesis txs = some L) :
    Mirrors L (eventsOf txs) := by
  apply run_history (P := fun L txs => Mirrors L (eventsOf txs)) _ _ hrun
  · refine ⟨fun Q v hv => ?_, fun Q _ => rfl⟩
    cases hv.view.queueAt
  · intro L txs tx L' hrun hm h
    rw [eventsOf, outputs_snoc tx hrun]
    exact hm.extend (effect_emitted (reachable_wellFormed ⟨txs, hrun⟩) h)

/-- The replayed log is the content of the Job accounts of `Q`, each id once. -/
structure Replayed (L : Ledger K) (Q : K) (queue : Queue K) (log : Log K) : Prop where
  ids : log.map Prod.fst = List.range queue.jobCount
  entry : ∀ k job, L k = some (.job job) → job.queue = Q →
    log[job.jobId]? = some (job.jobId, entryOf job)
  pending : log.countP (fun e => active e.2.status) = queue.pendingCount
  processed : log.countP (fun e => e.2.status == .completed) = queue.processedCount
  failed : log.countP (fun e => e.2.status == .failed) = queue.failedCount

omit [DecidableEq K] [AddressDerivation K] in
theorem countP_logOf (f : JobStatus → Bool) (jobs : List (Job K)) :
    (logOf jobs).countP (fun e => f e.2.status) = tally f jobs := by
  rw [logOf, List.countP_map]
  rfl

theorem log_replays {txs : List (Tx K)} (hrun : run step genesis txs = some L) {queue : Queue K}
    (hQ : L Q = some (.queue queue)) : Replayed L Q queue (replay Q (eventsOf txs)) := by
  have hL : Reachable L := ⟨txs, hrun⟩
  obtain ⟨v, hv, hinv, rfl⟩ := reachable_queue hL hQ
  rw [(mirrors_run hrun).hosted Q v hv]
  refine ⟨?_, ?_, ?_, ?_, ?_⟩
  · apply List.ext_getElem?
    intro i
    rw [hv.placed.jobCount, logOf, List.map_map, List.getElem?_map]
    cases hj : v.jobs[i]? with
    | none =>
      have hlen := List.getElem?_eq_none_iff.mp hj
      rw [Option.map_none, List.getElem?_eq_none]
      simpa using hlen
    | some j =>
      have hlt := (List.getElem?_eq_some_iff.mp hj).1
      simp [List.getElem?_range hlt, (hv.placed.job i j hj).2.1]
  · rintro k job hk rfl
    obtain ⟨w, hw, _, _, hj⟩ := reachable_job hL hk
    cases hv.unique hw
    rw [logOf, List.getElem?_map, hj, Option.map_some]
  · rw [countP_logOf, hinv.counted.pending]
  · rw [countP_logOf (· == .completed), hinv.counted.processed]
  · rw [countP_logOf (· == .failed), hinv.counted.failed]

end

theorem log_replays_demo : Replayed (ledgerAfter demoRun) demoQueue demoAccount
    (replay demoQueue (eventsOf demoRun)) :=
  log_replays (ledgerAfter_run demoRun_accepted) demo_queue

end DecQueue.EventLog
