import DecQueue.Kit.JobPool
import DecQueue.RetryRoom

/-! # Every queue is a job pool

A queue stores the ids of its pending jobs on a list of pages, counts its jobs
by status and keeps every record it ever had. None of that is visible to its
users: what they can make a queue do is what a pool of jobs with bounded
retries does, neither less nor more. Growing the index and advancing the head
are silent. -/

namespace DecQueue.PoolRefinement
open Kit Kit.Lists Kit.Transition Kit.Traces Kit.JobPool State Handlers Outcomes Address Program View
  Refinement Reachability Invariants RetryRoom

variable {K : Type}

/-! ### The pool a queue stands for -/

structure Task where
  payload : Bytes
  jobType : String
  priority : Nat
  deriving DecidableEq

def admits (task : Task) : Bool :=
  decide (task.payload.length ≤ 512) &&
    decide (0 < task.jobType.utf8ByteSize ∧ task.jobType.utf8ByteSize ≤ 32) &&
    decide (task.priority ≤ 2)

def policy : Policy Int64 Task Int64 where
  capacity := u64Max
  admits := admits
  dueAt clock executeAfter := if executeAfter = 0 then clock else executeAfter
  retryAt clock attempts retryAfterSecs := clock + backoff attempts retryAfterSecs

abbrev QueuePool (K : Type) := Pool K Int64 Task
abbrev QueueCall (K : Type) := Call K Int64 Task Int64

def serve [DecidableEq K] (pool : QueuePool K) (call : QueueCall K) : Option (QueuePool K) :=
  JobPool.step policy pool call

def PhaseIs (j : Job K) : Phase K Int64 → Prop
  | .waiting due => j.status = .pending ∧ j.executeAfter = due
  | .held holder => j.status = .processing ∧ j.worker = some holder
  | .done => j.status = .completed
  | .dead => j.status = .failed
  | .withdrawn => j.status = .cancelled

structure Stands (budget : Nat) (j : Job K) (e : Entry K Int64 Task) : Prop where
  task : e.task = ⟨j.payload, j.jobType, j.priority⟩
  attempts : e.attempts = j.attempts
  budget : j.maxRetries = budget
  phase : PhaseIs j e.phase

structure PoolOf (queue : Queue K) (jobs : List (Job K)) (pool : QueuePool K) : Prop where
  owner : pool.owner = queue.authority
  budget : pool.budget = queue.maxRetries
  closed : pool.closed = queue.paused
  entries : ∀ i : Nat, Option.Rel (Stands pool.budget) jobs[i]? pool.entries[i]?

def jobAt [AddressDerivation K] (L : Ledger K) (Q : K) (i : Nat) : Option (Job K) :=
  match L (address (.job Q i)) with
  | some (.job j) => some j
  | _ => none

/-- The accounts of `Q` stand for `pool`: the pages and the head have no part in it. -/
structure PoolAt [AddressDerivation K] (L : Ledger K) (Q : K) (pool : QueuePool K) : Prop where
  queue : ∃ queue, L Q = some (.queue queue) ∧ pool.owner = queue.authority ∧
    pool.budget = queue.maxRetries ∧ pool.closed = queue.paused
  entries : ∀ i : Nat, Option.Rel (Stands pool.budget) (jobAt L Q i) pool.entries[i]?

section
variable [AddressDerivation K] {L : Ledger K} {Q : K} {v : QueueView K} {pool pool' : QueuePool K}

theorem jobAt_hosts (hv : Hosts L Q v) (i : Nat) : jobAt L Q i = v.jobs[i]? := by
  unfold jobAt
  rw [hv.view.jobAt]
  cases v.jobs[i]? <;> rfl

theorem poolAt_iff (hv : Hosts L Q v) : PoolAt L Q pool ↔ PoolOf v.queue v.jobs pool := by
  constructor
  · intro ⟨⟨queue, hqueue, howner, hbudget, hclosed⟩, hentries⟩
    cases hv.view.queueAt.symm.trans hqueue
    exact ⟨howner, hbudget, hclosed, fun i => jobAt_hosts hv i ▸ hentries i⟩
  · intro h
    exact ⟨⟨v.queue, hv.view.queueAt, h.owner, h.budget, h.closed⟩,
      fun i => (jobAt_hosts hv i).symm ▸ h.entries i⟩

end

/-! ### The pool is determined by the records -/

section
variable {j j' : Job K} {e e' : Entry K Int64 Task} {budget : Nat}

theorem phase_pending {phase : Phase K Int64} (h : PhaseIs j phase) (hs : j.status = .pending) :
    phase = .waiting j.executeAfter := by
  cases phase with
  | waiting due => rw [h.2]
  | held holder => exact absurd (hs.symm.trans h.1) (by simp)
  | done => exact absurd (hs.symm.trans h) (by simp)
  | dead => exact absurd (hs.symm.trans h) (by simp)
  | withdrawn => exact absurd (hs.symm.trans h) (by simp)

theorem phase_processing {phase : Phase K Int64} {worker : K} (h : PhaseIs j phase)
    (hs : j.status = .processing) (hw : j.worker = some worker) : phase = .held worker := by
  cases phase with
  | waiting due => exact absurd (hs.symm.trans h.1) (by simp)
  | held holder => rw [Option.some.inj (hw.symm.trans h.2)]
  | done => exact absurd (hs.symm.trans h) (by simp)
  | dead => exact absurd (hs.symm.trans h) (by simp)
  | withdrawn => exact absurd (hs.symm.trans h) (by simp)

theorem PhaseIs.unique {phase phase' : Phase K Int64} (h : PhaseIs j phase) (h' : PhaseIs j phase') :
    phase = phase' := by
  cases phase with
  | waiting due => exact (h.2 ▸ phase_pending h' h.1).symm
  | held holder => exact (phase_processing h' h.1 h.2).symm
  | done => cases phase' <;> simp_all [PhaseIs]
  | dead => cases phase' <;> simp_all [PhaseIs]
  | withdrawn => cases phase' <;> simp_all [PhaseIs]

theorem Stands.unique (h : Stands budget j e) (h' : Stands budget j e') : e = e' := by
  obtain ⟨task, attempts, phase⟩ := e
  obtain ⟨task', attempts', phase'⟩ := e'
  have htask : task = task' := h.task.trans h'.task.symm
  have hattempts : attempts = attempts' := h.attempts.trans h'.attempts.symm
  have hphase : phase = phase' := h.phase.unique h'.phase
  rw [htask, hattempts, hphase]

theorem rel_iff {x : Option (Job K)} {y : Option (Entry K Int64 Task)} :
    Option.Rel (Stands budget) x y ↔
      (x = none ∧ y = none) ∨ ∃ j e, x = some j ∧ y = some e ∧ Stands budget j e := by
  constructor
  · intro h
    cases h with
    | none => exact .inl ⟨rfl, rfl⟩
    | some h => exact .inr ⟨_, _, rfl, rfl, h⟩
  · rintro (⟨rfl, rfl⟩ | ⟨j, e, rfl, rfl, h⟩)
    · exact .none
    · exact .some h

end

section
variable {queue : Queue K} {jobs : List (Job K)} {pool pool' : QueuePool K} {i : Nat}
  {j j' : Job K} {e : Entry K Int64 Task}

theorem PoolOf.unique (h : PoolOf queue jobs pool) (h' : PoolOf queue jobs pool') : pool = pool' := by
  have hentries : pool.entries = pool'.entries := by
    apply List.ext_getElem?
    intro i
    have hi := h.entries i
    have hi' := h'.entries i
    rw [h'.budget.trans h.budget.symm] at hi'
    rcases rel_iff.mp hi with ⟨hx, hy⟩ | ⟨j, e, hx, hy, hs⟩ <;>
      rcases rel_iff.mp hi' with ⟨hx', hy'⟩ | ⟨j', e', hx', hy', hs'⟩
    · rw [hy, hy']
    · exact absurd (hx.symm.trans hx') (by simp)
    · exact absurd (hx.symm.trans hx') (by simp)
    · cases hx.symm.trans hx'
      rw [hy, hy', hs.unique hs']
  obtain ⟨owner, budget, closed, entries⟩ := pool
  obtain ⟨owner', budget', closed', entries'⟩ := pool'
  have howner : owner = owner' := h.owner.trans h'.owner.symm
  have hbudget : budget = budget' := h.budget.trans h'.budget.symm
  have hclosed : closed = closed' := h.closed.trans h'.closed.symm
  rw [howner, hbudget, hclosed, show entries = entries' from hentries]

theorem PoolOf.entry (h : PoolOf queue jobs pool) (hj : jobs[i]? = some j) :
    ∃ e, pool.entries[i]? = some e ∧ Stands pool.budget j e := by
  have hi := h.entries i
  rw [hj] at hi
  rcases rel_iff.mp hi with ⟨hx, _⟩ | ⟨_, e, hx, hy, hs⟩
  · cases hx
  · cases hx
    exact ⟨e, hy, hs⟩

theorem PoolOf.job (h : PoolOf queue jobs pool) (he : pool.entries[i]? = some e) :
    ∃ j, jobs[i]? = some j ∧ Stands pool.budget j e := by
  have hi := h.entries i
  rw [he] at hi
  rcases rel_iff.mp hi with ⟨_, hy⟩ | ⟨j, _, hx, hy, hs⟩
  · cases hy
  · cases hy
    exact ⟨j, hx, hs⟩

theorem PoolOf.length (h : PoolOf queue jobs pool) : pool.entries.length = jobs.length := by
  have hnone : ∀ i : Nat, jobs[i]? = none ↔ pool.entries[i]? = none := by
    intro i
    rcases rel_iff.mp (h.entries i) with ⟨hx, hy⟩ | ⟨j, e, hx, hy, _⟩
    · simp only [hx, hy]
    · simp only [hx, hy, reduceCtorEq]
  have hle := (hnone jobs.length).mp (List.getElem?_eq_none le_rfl)
  have hge := (hnone pool.entries.length).mpr (List.getElem?_eq_none le_rfl)
  rw [List.getElem?_eq_none_iff] at hle hge
  omega

/-- The queue fields a pool reads. -/
structure SameTerms (queue queue' : Queue K) : Prop where
  authority : queue'.authority = queue.authority
  maxRetries : queue'.maxRetries = queue.maxRetries
  paused : queue'.paused = queue.paused

theorem PoolOf.update (h : PoolOf queue jobs pool) (queue' : Queue K) (hq : SameTerms queue queue')
    (hj : jobs[i]? = some j) {f : Entry K Int64 Task → Option (Entry K Int64 Task)}
    (hf : ∀ e, Stands pool.budget j e → ∃ e', f e = some e' ∧ Stands pool.budget j' e') :
    ∃ next, JobPool.update pool i f = some next ∧ PoolOf queue' (jobs.set i j') next := by
  obtain ⟨e, he, hs⟩ := h.entry hj
  obtain ⟨e', hfe, hs'⟩ := hf e hs
  refine ⟨_, update_eq_some.mpr ⟨e, e', he, hfe, rfl⟩, h.owner.trans hq.authority.symm,
    h.budget.trans hq.maxRetries.symm, h.closed.trans hq.paused.symm, fun t => ?_⟩
  rw [getElem?_set_of_some j' hj, getElem?_set_of_some e' he]
  split
  next => exact .some hs'
  next => exact h.entries t

theorem PoolOf.add (h : PoolOf queue jobs pool) (queue' : Queue K) (hq : SameTerms queue queue')
    (hs : Stands pool.budget j e) :
    PoolOf queue' (jobs ++ [j]) { pool with entries := pool.entries ++ [e] } := by
  refine ⟨h.owner.trans hq.authority.symm, h.budget.trans hq.maxRetries.symm,
    h.closed.trans hq.paused.symm, fun t => ?_⟩
  rw [getElem?_concat rfl, getElem?_concat h.length]
  split
  next => exact .some hs
  next => exact h.entries t

end

/-! ### What each instruction asks of the pool -/

section
variable [DecidableEq K]

def jobIdAt (L : Ledger K) (Q k : K) : Option Nat :=
  match L k with
  | some (.job j) => if j.queue = Q then some j.jobId else none
  | _ => none

def callsAt (Q : K) (L : Ledger K) (tx : Tx K) : List (QueueCall K) :=
  match tx.ix with
  | .enqueueJob ctx payload jobType priority executeAfter =>
      if ctx.queue = Q then [⟨tx.clock, .submit ⟨payload, jobType, priority⟩ executeAfter⟩] else []
  | .claimJob ctx => (jobIdAt L Q ctx.job).toList.map fun i => ⟨tx.clock, .take i ctx.worker⟩
  | .completeJob ctx _ => (jobIdAt L Q ctx.job).toList.map fun i => ⟨tx.clock, .finish i ctx.worker⟩
  | .failJob ctx _ retryAfterSecs =>
      (jobIdAt L Q ctx.job).toList.map fun i => ⟨tx.clock, .fail i ctx.worker retryAfterSecs⟩
  | .cancelJob ctx =>
      (jobIdAt L Q ctx.job).toList.map fun i => ⟨tx.clock, .withdraw i ctx.authority⟩
  | .setQueuePaused ctx paused =>
      if ctx.queue = Q then [⟨tx.clock, .setClosed ctx.authority paused⟩] else []
  | .initializeQueue .. | .growIndex .. | .advanceHead .. => []

variable [AddressDerivation K] {L L' : Ledger K} {Q : K} {v v' : QueueView K} {clock : Int64}
  {ix : Instruction K} {evs : List (Event K)} {pool pool' : QueuePool K} {i : Nat} {j : Job K}

theorem jobIdAt_hosts (hv : Hosts L Q v) (hj : v.jobs[i]? = some j) :
    jobIdAt L Q (address (.job Q i)) = some i := by
  obtain ⟨hq, hid, _⟩ := hv.placed.job i j hj
  simp only [jobIdAt, hv.job hj, hq, hid, if_true]

theorem jobIdAt_other {Q' : K} (hv : Hosts L Q' v) (hj : v.jobs[i]? = some j) (hne : Q ≠ Q') :
    jobIdAt L Q (address (.job Q' i)) = none := by
  obtain ⟨hq, _, _⟩ := hv.placed.job i j hj
  simp only [jobIdAt, hv.job hj, hq, if_neg hne.symm]

theorem callsAt_noStep (h : NoStep clock L Q ix evs) : callsAt Q L ⟨clock, ix⟩ = [] := by
  cases h with
  | create => rfl
  | other hne hv hstep =>
    cases hstep with
    | growIndex => rfl
    | advanceHead => rfl
    | enqueueJob => exact if_neg hne.symm
    | claimJob worker hjob => simp [callsAt, jobIdAt_other hv hjob hne]
    | completeJob worker result hjob => simp [callsAt, jobIdAt_other hv hjob hne]
    | retryJob worker errorMessage retryAfterSecs hjob => simp [callsAt, jobIdAt_other hv hjob hne]
    | deadLetter worker errorMessage retryAfterSecs hjob =>
      simp [callsAt, jobIdAt_other hv hjob hne]
    | cancelJob hjob => simp [callsAt, jobIdAt_other hv hjob hne]
    | setQueuePaused => exact if_neg hne.symm

/-! ### The pool follows the queue -/

omit [DecidableEq K] [AddressDerivation K] in
theorem stands_enqueued (clock : Int64) (Q : K) (bump : Nat) (queue : Queue K) (payload : Bytes)
    (jobType : String) (priority : Nat) (executeAfter : Int64) :
    Stands queue.maxRetries
      (enqueued clock Q bump queue payload jobType priority executeAfter)
      ⟨⟨payload, jobType, priority⟩, 0, .waiting (policy.dueAt clock executeAfter)⟩ :=
  ⟨rfl, rfl, rfl, rfl, rfl⟩

omit [AddressDerivation K] [DecidableEq K] in
theorem take_locked {budget : Nat} {e : Entry K Int64 Task} (hb : Budget j) (worker : K)
    (hs : j.status = .pending) (hready : j.executeAfter ≤ clock) (h : Stands budget j e) :
    ∃ e', Entry.take clock worker e = some e' ∧ Stands budget (locked clock worker j) e' := by
  refine ⟨_, take_eq_some.mpr ⟨j.executeAfter, phase_pending h.phase hs, hready, rfl⟩, h.task, ?_,
    h.budget, rfl, rfl⟩
  rw [hb.locked_attempts, h.attempts]

omit [AddressDerivation K] in
theorem finish_finished {budget : Nat} {e : Entry K Int64 Task} {worker : K} (clock : Int64)
    (result : Option String) (hs : j.status = .processing) (hw : j.worker = some worker) (h : Stands budget j e) :
    ∃ e', Entry.finish worker e = some e' ∧ Stands budget (finished clock result j) e' :=
  ⟨_, finish_eq_some.mpr ⟨phase_processing h.phase hs hw, rfl⟩, h.task, h.attempts, h.budget, rfl⟩

omit [AddressDerivation K] in
theorem fail_retried {budget : Nat} {e : Entry K Int64 Task} {worker : K} (clock : Int64)
    (errorMessage : String) (retryAfterSecs : Int64) (hs : j.status = .processing) (hw : j.worker = some worker)
    (hretry : j.attempts < j.maxRetries) (h : Stands budget j e) :
    ∃ e', Entry.fail budget (fun attempts => policy.retryAt clock attempts retryAfterSecs) worker e =
        some e' ∧ Stands budget (retried clock errorMessage retryAfterSecs j) e' := by
  have hlt : e.attempts < budget := by rw [h.attempts, ← h.budget]; exact hretry
  refine ⟨_, fail_eq_some.mpr ⟨phase_processing h.phase hs hw, rfl⟩, h.task, h.attempts, h.budget, ?_⟩
  rw [if_pos hlt, h.attempts]
  exact ⟨rfl, rfl⟩

omit [AddressDerivation K] in
theorem fail_deadLettered {budget : Nat} {e : Entry K Int64 Task} {worker : K} (clock : Int64)
    (errorMessage : String) (retryAfterSecs : Int64) (hs : j.status = .processing) (hw : j.worker = some worker)
    (hdead : ¬j.attempts < j.maxRetries) (h : Stands budget j e) :
    ∃ e', Entry.fail budget (fun attempts => policy.retryAt clock attempts retryAfterSecs) worker e =
        some e' ∧ Stands budget (deadLettered clock errorMessage j) e' := by
  have hge : ¬e.attempts < budget := by rw [h.attempts, ← h.budget]; exact hdead
  refine ⟨_, fail_eq_some.mpr ⟨phase_processing h.phase hs hw, rfl⟩, h.task, h.attempts, h.budget, ?_⟩
  rw [if_neg hge]
  rfl

omit [AddressDerivation K] [DecidableEq K] in
theorem withdraw_cancelled {budget : Nat} {e : Entry K Int64 Task} (clock : Int64)
    (hs : j.status = .pending) (h : Stands budget j e) :
    ∃ e', Entry.withdraw e = some e' ∧ Stands budget (cancelled clock j) e' :=
  ⟨_, withdraw_eq_some.mpr ⟨j.executeAfter, phase_pending h.phase hs, rfl⟩, h.task, h.attempts,
    h.budget, rfl⟩

theorem pool_follows (hv : Hosts L Q v) (hinv : Inv v) (h : PoolOf v.queue v.jobs pool)
    (hstep : QueueStep Q clock ix v v' evs) :
    ∃ next, run serve pool (callsAt Q L ⟨clock, ix⟩) = some next ∧ PoolOf v'.queue v'.jobs next := by
  cases hstep with
  | growIndex hpage hfree hlimit hfull => exact ⟨pool, rfl, h⟩
  | advanceHead hpage hempty hnext => exact ⟨pool, rfl, h⟩
  | @enqueueJob v tail payer payload jobType priority executeAfter hpage hpayload htype hpriority
      hopen hroom hjobs hpending htotal =>
    have hadd := h.add { v.queue with
        jobCount := v.queue.jobCount + 1
        pendingCount := v.queue.pendingCount + 1 } ⟨rfl, rfl, rfl⟩ (h.budget ▸ stands_enqueued clock Q
      (bumpOf (.job Q v.queue.jobCount)) v.queue payload jobType priority executeAfter)
    have hadmits : admits ⟨payload, jobType, priority⟩ = true := by
      simp [admits, hpayload, htype, hpriority]
    have hcapacity : pool.entries.length < u64Max := by
      rw [h.length, ← hv.placed.jobCount]
      omega
    refine ⟨_, ?_, hadd⟩
    simp only [callsAt, if_true, run_singleton]
    exact if_pos ⟨hadmits, h.closed.trans hopen, hcapacity⟩
  | @claimJob v i s j p p' worker hjob hpage hstatus hready hremove =>
    simp only [callsAt, jobIdAt_hosts hv hjob, Option.toList_some, List.map_cons, List.map_nil,
      run_singleton]
    exact h.update _ ⟨rfl, rfl, rfl⟩ hjob fun e => take_locked (hinv.budget i j hjob) worker hstatus hready
  | @completeJob v i j worker result hjob hstatus hworker hresult hcount =>
    simp only [callsAt, jobIdAt_hosts hv hjob, Option.toList_some, List.map_cons, List.map_nil,
      run_singleton]
    exact h.update { v.queue with
      pendingCount := v.queue.pendingCount - 1
      processedCount := v.queue.processedCount + 1 } ⟨rfl, rfl, rfl⟩ hjob fun e =>
        finish_finished clock result hstatus hworker
  | @retryJob v i s j p worker errorMessage retryAfterSecs hjob hpage hretry hmay hroom =>
    simp only [callsAt, jobIdAt_hosts hv hjob, Option.toList_some, List.map_cons, List.map_nil,
      run_singleton]
    exact h.update v.queue ⟨rfl, rfl, rfl⟩ hjob fun e =>
      fail_retried clock errorMessage retryAfterSecs hmay.1 hmay.2.1 hretry
  | @deadLetter v i s j p worker errorMessage retryAfterSecs hjob hpage hdead hmay hcount =>
    simp only [callsAt, jobIdAt_hosts hv hjob, Option.toList_some, List.map_cons, List.map_nil,
      run_singleton]
    exact h.update { v.queue with
      pendingCount := v.queue.pendingCount - 1
      failedCount := v.queue.failedCount + 1 } ⟨rfl, rfl, rfl⟩ hjob fun e =>
        fail_deadLettered clock errorMessage retryAfterSecs hmay.1 hmay.2.1 hdead
  | @cancelJob v i s j p p' hjob hpage hstatus hremove =>
    -- a job that is being processed is on no page
    have hpending : j.status = .pending := by
      have hmem : i ∈ p.jobIds := (hv.placed.job i j hjob).2.1 ▸ mem_of_removeJob hremove
      have hp := hinv.indexed.pending_of_mem hpage hmem
      rw [pendingAt_of_some hjob] at hp
      exact eq_of_beq hp
    obtain ⟨next, hnext, hpool⟩ := h.update { v.queue with
      pendingCount := v.queue.pendingCount - 1 } ⟨rfl, rfl, rfl⟩ hjob fun e =>
        withdraw_cancelled clock hpending
    refine ⟨next, ?_, hpool⟩
    simp only [callsAt, jobIdAt_hosts hv hjob, Option.toList_some, List.map_cons, List.map_nil,
      run_singleton]
    exact (if_pos h.owner.symm).trans hnext
  | setQueuePaused paused =>
    refine ⟨{ pool with closed := paused }, ?_, h.owner, h.budget, rfl, h.entries⟩
    simp only [callsAt, if_true, run_singleton]
    exact if_pos h.owner.symm

theorem poolAt_step {tx : Tx K} (hL : Reachable L) (hpool : PoolAt L Q pool)
    (h : step L tx = some L') :
    ∃ next, run serve pool (callsAt Q L tx) = some next ∧ PoolAt L' Q next := by
  obtain ⟨queue, hqueue, _⟩ := hpool.queue
  obtain ⟨v, hv, hinv, _⟩ := reachable_queue hL hqueue
  obtain ⟨evs, heff⟩ := effect_of_step (reachable_wellFormed hL) h
  cases heff.effectAt Q with
  | created authority queueName maxRetries hretries hfree => exact absurd hv (hfree v)
  | stepped hw hv' hstep =>
    cases hv.unique hw
    obtain ⟨next, hrun, hnext⟩ := pool_follows hv hinv ((poolAt_iff hv).mp hpool) hstep
    exact ⟨next, hrun, (poolAt_iff hv').mpr hnext⟩
  | untouched hsame hno =>
    refine ⟨pool, ?_, (poolAt_iff ((hsame v).mpr hv)).mpr ((poolAt_iff hv).mp hpool)⟩
    rw [callsAt_noStep hno]
    rfl

/-! ### The queue does what the pool grants -/

/-- The tail page takes another id, after one `grow_index` where it is full. -/
theorem tail_room (clock : Int64) (hL : Reachable L) (hv : Hosts L Q v) :
    ∃ txs L' v', run step L txs = some L' ∧ txs.length ≤ 1 ∧ (∀ tx ∈ txs, tx.clock = clock) ∧
      outputs step (callsAt Q) L txs = [] ∧ Hosts L' Q v' ∧ v'.queue = v.queue ∧ v'.jobs = v.jobs ∧
      v'.head.totalJobs = v.head.totalJobs ∧
      ∃ tail, v'.pages[v'.head.tailIndexSeq]? = some tail ∧ tail.jobIds.length < maxIndexEntries := by
  have hinv := reachable_inv hL hv
  obtain ⟨tail, hpage⟩ := hinv.linked.page le_rfl
  by_cases hroom : tail.jobIds.length < maxIndexEntries
  · exact ⟨[], L, v, rfl, Nat.zero_le 1, fun tx htx => absurd htx List.not_mem_nil, rfl, hv, rfl, rfl,
      rfl, tail, hpage, hroom⟩
  · have hlength := hinv.linked.length
    have hbounded := hinv.filled.bounded hpage hinv.budget hinv.counted.limit
    obtain ⟨L', hs, hv'⟩ := step_of_queueStep hv
      (.growIndex hpage hlength hbounded (Nat.le_of_not_lt hroom) : QueueStep Q clock _ v _ [])
    refine ⟨[_], L', _, run_singleton.mpr hs, le_rfl, ?_, ?_, hv', rfl, rfl, rfl,
      ⟨Q, v.head.tailIndexSeq + 1, 0, [], bumpOf (.index Q (v.head.tailIndexSeq + 1))⟩, ?_, ?_⟩
    · intro tx htx
      rw [List.mem_singleton.mp htx]
    · simp only [outputs, hs, callsAt, Option.elim_some, List.append_nil]
    · exact (getElem?_concat (List.length_set.trans hlength) _ _).trans (if_pos rfl)
    · simp [maxIndexEntries]

def needsPage (request : Request K Task Int64) : Bool :=
  match request with
  | .submit .. | .fail .. => true
  | .take .. | .finish .. | .withdraw .. | .setClosed .. => false

omit [DecidableEq K] in
theorem page_of_job (hinv : Inv v) (hv : Hosts L Q v) (hj : v.jobs[i]? = some j)
    (hs : j.status = .pending) :
    ∃ (s : Nat) (p p' : JobIndex K), v.pages[s]? = some p ∧ p.removeJob j.jobId = .ok p' := by
  have hpending : pendingAt v.jobs i = true := by
    rw [pendingAt_of_some hj, hs]
    rfl
  obtain ⟨s, p, hp, hmem⟩ := hinv.indexed.page_of_pending hpending
  have hid := (hv.placed.job i j hj).2.1
  obtain ⟨p', hremove⟩ := removeJob_of_mem (hid ▸ hmem)
  exact ⟨s, p, p', hp, hremove⟩

omit [DecidableEq K] [AddressDerivation K] in
/-- A job under way leaves each counter of finished jobs room for one more. -/
theorem counter_room {f : JobStatus → Bool} {jobs : List (Job K)} (hlimit : jobs.length ≤ u64Max)
    (hj : jobs[i]? = some j) (hs : j.status = .processing) (hf : f .processing = false) :
    tally f jobs + 1 ≤ u64Max := by
  have hother : f j.status = false := by rw [hs, hf]
  have hlt := tally_lt hj hother
  omega

/-- A granted request is an instruction the queue accepts, provided the tail
page has room where the request may add an id. -/
theorem queue_grants {call : QueueCall K} (hinv : Inv v) (hv : Hosts L Q v)
    (h : PoolOf v.queue v.jobs pool)
    (htail : needsPage call.request = true → ∃ tail, v.pages[v.head.tailIndexSeq]? = some tail ∧
      tail.jobIds.length < maxIndexEntries)
    (hgrant : serve pool call = some pool') :
    ∃ ix v' evs, QueueStep Q call.now ix v v' evs ∧ callsAt Q L ⟨call.now, ix⟩ = [call] := by
  obtain ⟨now, request⟩ := call
  cases request with
  | submit task asked =>
    obtain ⟨⟨hadmits, hclosed, hcapacity⟩, _⟩ := Option.ite_none_right_eq_some.mp hgrant
    obtain ⟨tail, hpage, hroom⟩ := htail rfl
    simp only [policy, admits, Bool.and_eq_true, decide_eq_true_eq] at hadmits
    have hlt : v.jobs.length < u64Max := h.length ▸ hcapacity
    have hcount := hv.placed.jobCount
    have hle := tally_le active v.jobs
    have hpend := hinv.counted.pending
    have htotal := hinv.counted.total
    refine ⟨_, _, _, .enqueueJob Q task.payload task.jobType task.priority asked hpage hadmits.1.1
      hadmits.1.2 hadmits.2 (h.closed.symm.trans hclosed) hroom (by omega) (by omega) (by omega), ?_⟩
    simp only [callsAt, if_true]
  | take i worker =>
    obtain ⟨e, e', he, htake, _⟩ := update_eq_some.mp hgrant
    obtain ⟨due, hphase, hdue, _⟩ := take_eq_some.mp htake
    obtain ⟨j, hj, hs⟩ := h.job he
    have hwait := hs.phase
    rw [hphase] at hwait
    obtain ⟨hstatus, hafter⟩ := hwait
    obtain ⟨s, p, p', hp, hremove⟩ := page_of_job hinv hv hj hstatus
    refine ⟨_, _, _, .claimJob worker hj hp hstatus (hafter ▸ hdue) hremove, ?_⟩
    simp [callsAt, jobIdAt_hosts hv hj]
  | finish i worker =>
    obtain ⟨e, e', he, hfinish, _⟩ := update_eq_some.mp hgrant
    obtain ⟨j, hj, hs⟩ := h.job he
    have hheld := hs.phase
    rw [(finish_eq_some.mp hfinish).1] at hheld
    have hroom : v.queue.processedCount + 1 ≤ u64Max :=
      hinv.counted.processed ▸ counter_room hinv.counted.limit hj hheld.1 rfl
    refine ⟨_, _, _, .completeJob worker none hj hheld.1 hheld.2 (by simp [ResultFits]) hroom, ?_⟩
    simp [callsAt, jobIdAt_hosts hv hj]
  | fail i worker asked =>
    obtain ⟨e, e', he, hfail, _⟩ := update_eq_some.mp hgrant
    obtain ⟨j, hj, hs⟩ := h.job he
    have hheld := hs.phase
    rw [(fail_eq_some.mp hfail).1] at hheld
    obtain ⟨tail, hpage, hroom⟩ := htail rfl
    have hmay : MayFail worker j "" := ⟨hheld.1, hheld.2, by decide⟩
    by_cases hretry : j.attempts < j.maxRetries
    · refine ⟨_, _, _, .retryJob worker "" asked hj hpage hretry hmay hroom, ?_⟩
      simp [callsAt, jobIdAt_hosts hv hj]
    · have hcount : v.queue.failedCount + 1 ≤ u64Max :=
        hinv.counted.failed ▸ counter_room hinv.counted.limit hj hheld.1 rfl
      refine ⟨_, _, _, .deadLetter worker "" asked hj hpage hretry hmay hcount, ?_⟩
      simp [callsAt, jobIdAt_hosts hv hj]
  | withdraw i requester =>
    obtain ⟨howner, hupdate⟩ := Option.ite_none_right_eq_some.mp hgrant
    obtain ⟨e, e', he, hwithdraw, _⟩ := update_eq_some.mp hupdate
    obtain ⟨due, hphase, _⟩ := withdraw_eq_some.mp hwithdraw
    obtain ⟨j, hj, hs⟩ := h.job he
    have hwait := hs.phase
    rw [hphase] at hwait
    obtain ⟨s, p, p', hp, hremove⟩ := page_of_job hinv hv hj hwait.1
    refine ⟨_, _, _, .cancelJob hj hp (.inl hwait.1) hremove, ?_⟩
    simp [callsAt, jobIdAt_hosts hv hj, howner, h.owner]
  | setClosed requester closed =>
    obtain ⟨howner, _⟩ := Option.ite_none_right_eq_some.mp hgrant
    refine ⟨_, _, _, .setQueuePaused closed, ?_⟩
    simp [callsAt, howner, h.owner]

/-- Instructions a call takes: one, and one to grow the index before. -/
def cost (call : QueueCall K) : Nat := if needsPage call.request then 2 else 1

/-- The two instructions that no call amounts to. -/
def maintains (ix : Instruction K) : Bool :=
  match ix with
  | .growIndex .. | .advanceHead .. => true
  | _ => false

omit [AddressDerivation K] in
theorem maintains_of_calls {tx : Tx K} {call : QueueCall K} (h : callsAt Q L tx = [call]) :
    maintains tx.ix = false := by
  obtain ⟨clock, ix⟩ := tx
  cases ix with
  | growIndex => cases h
  | advanceHead => cases h
  | _ => rfl

structure Realizes (call : QueueCall K) (tx : Tx K) : Prop where
  clock : tx.clock = call.now
  plain : needsPage call.request = false → maintains tx.ix = false

theorem pool_implemented (Q : K) :
    Implements step serve (callsAt Q) cost Realizes
      (fun L pool => Reachable L ∧ PoolAt L Q pool) where
  forward := by
    intro L tx L' pool ⟨hL, hpool⟩ hs
    obtain ⟨next, hrun, hnext⟩ := poolAt_step hL hpool hs
    exact ⟨next, hrun, hL.next hs, hnext⟩
  backward := by
    intro L pool call next ⟨hL, hpool⟩ hgrant
    obtain ⟨queue, hqueue, _⟩ := hpool.queue
    obtain ⟨v, hv, hinv, _⟩ := reachable_queue hL hqueue
    have hof := (poolAt_iff hv).mp hpool
    -- one instruction, from a ledger whose queue has the room
    have hlast : ∀ {M : Ledger K} {w : QueueView K}, Reachable M → Hosts M Q w →
        PoolOf w.queue w.jobs pool → (needsPage call.request = true →
          ∃ tail, w.pages[w.head.tailIndexSeq]? = some tail ∧ tail.jobIds.length < maxIndexEntries) →
        ∃ tx L', step M tx = some L' ∧ (Reachable L' ∧ PoolAt L' Q next) ∧
          callsAt Q M tx = [call] ∧ tx.clock = call.now := by
      intro M w hM hw hpw htail
      obtain ⟨ix, w', evs, hstep, hcalls⟩ := queue_grants (reachable_inv hM hw) hw hpw htail hgrant
      obtain ⟨L', hs, _⟩ := step_of_queueStep hw hstep
      obtain ⟨next', hrun, hnext⟩ := poolAt_step hM ((poolAt_iff hw).mpr hpw) hs
      rw [hcalls, run_singleton, hgrant] at hrun
      cases hrun
      exact ⟨_, L', hs, ⟨hM.next hs, hnext⟩, hcalls, rfl⟩
    by_cases hneeds : needsPage call.request = true
    · obtain ⟨txs, M, w, hrun, hlen, hclock, hout, hw, hqueue', hjobs, _, htail⟩ :=
        tail_room call.now hL hv
      obtain ⟨tx, L', hs, hrel, hcalls, hnow⟩ := hlast (hL.extend hrun) hw
        (by rw [hqueue', hjobs]; exact hof) fun _ => htail
      refine ⟨txs ++ [tx], L', run_snoc.mpr ⟨M, hrun, hs⟩, hrel, ?_, ?_, fun tx' htx' => ?_⟩
      · rw [outputs_snoc tx hrun, hout, hcalls, List.nil_append]
      · rw [List.length_append, List.length_singleton, cost, if_pos hneeds]
        omega
      · refine ⟨?_, fun hplain => absurd (hneeds.symm.trans hplain) (by simp)⟩
        rcases List.mem_append.mp htx' with hgrow | hlast'
        · exact hclock tx' hgrow
        · exact (List.mem_singleton.mp hlast') ▸ hnow
    · obtain ⟨tx, L', hs, hrel, hcalls, hnow⟩ := hlast hL hv hof fun h => absurd h hneeds
      refine ⟨[tx], L', run_singleton.mpr hs, hrel, ?_, ?_, fun tx' htx' => ?_⟩
      · simp only [outputs, hs, hcalls, Option.elim_some, List.append_nil]
      · rw [List.length_singleton, cost, if_neg hneeds]
      · rw [List.mem_singleton.mp htx']
        exact ⟨hnow, fun _ => maintains_of_calls hcalls⟩

omit [DecidableEq K] in
theorem poolAt_unique (h : PoolAt L Q pool) (h' : PoolAt L Q pool') (hL : WellFormed L) :
    pool = pool' := by
  obtain ⟨queue, hqueue, _⟩ := h.queue
  obtain ⟨v, hv, _⟩ := hL.queue hqueue
  exact ((poolAt_iff hv).mp h).unique ((poolAt_iff hv).mp h')

/-! ### From the creation of the queue -/

omit [DecidableEq K] in
theorem queueStep_terms (h : QueueStep Q clock ix v v' evs) :
    v'.queue.authority = v.queue.authority ∧ v'.queue.maxRetries = v.queue.maxRetries := by
  cases h <;> exact ⟨rfl, rfl⟩

omit [DecidableEq K] in
theorem poolAt_initial {authority : K} {queueName : String} {maxRetries : Nat}
    (hv : Hosts L Q (initial clock authority Q queueName maxRetries)) :
    PoolAt L Q (empty authority maxRetries) :=
  (poolAt_iff hv).mpr ⟨rfl, rfl, rfl, fun i => by simp [initial, empty]⟩

/-- All calls made on the queue since it was created, in order. -/
def history (Q : K) (txs : List (Tx K)) : List (QueueCall K) := outputs step (callsAt Q) genesis txs

theorem history_run {txs : List (Tx K)} (hrun : run step genesis txs = some L) :
    (∀ v, Hosts L Q v → ∃ pool, PoolAt L Q pool ∧
      run serve (empty v.queue.authority v.queue.maxRetries) (history Q txs) = some pool) ∧
    ((∀ v, ¬Hosts L Q v) → history Q txs = []) := by
  refine run_history (P := fun L txs => (∀ v, Hosts L Q v → ∃ pool, PoolAt L Q pool ∧
      run serve (empty v.queue.authority v.queue.maxRetries) (history Q txs) = some pool) ∧
    ((∀ v, ¬Hosts L Q v) → history Q txs = [])) ⟨?_, fun _ => rfl⟩ ?_ hrun
  · intro v hv
    cases hv.view.queueAt
  · intro L txs tx L' hr ⟨hhosted, hvacant⟩ hs
    have hL : Reachable L := ⟨txs, hr⟩
    obtain ⟨evs, heff⟩ := effect_of_step (reachable_wellFormed hL) hs
    have hsnoc : history Q (txs ++ [tx]) = history Q txs ++ callsAt Q L tx := outputs_snoc tx hr
    rw [hsnoc]
    cases heff.effectAt Q with
    | created authority queueName maxRetries hretries hfree hnew hno =>
      rw [hvacant hfree, callsAt_noStep hno]
      refine ⟨fun v hv => ?_, fun _ => rfl⟩
      cases hv.unique hnew
      exact ⟨_, poolAt_initial hnew, rfl⟩
    | @stepped w w' hw hw' hstep =>
      refine ⟨fun v hv => ?_, fun hno => absurd hw' (hno _)⟩
      cases hv.unique hw'
      obtain ⟨pool, hpool, hrun⟩ := hhosted _ hw
      obtain ⟨next, hcalls, hnext⟩ := poolAt_step hL hpool hs
      obtain ⟨howner, hbudget⟩ := queueStep_terms hstep
      rw [howner, hbudget]
      exact ⟨next, hnext, run_append.mpr ⟨pool, hrun, hcalls⟩⟩
    | untouched hsame hno =>
      rw [callsAt_noStep hno, List.append_nil]
      refine ⟨fun v hv => ?_, fun hnone => hvacant fun v hv => hnone v ((hsame v).mpr hv)⟩
      have hv₀ := (hsame v).mp hv
      obtain ⟨pool, hpool, hrun⟩ := hhosted v hv₀
      exact ⟨pool, (poolAt_iff hv).mpr ((poolAt_iff hv₀).mp hpool), hrun⟩

theorem pool_exists (hL : Reachable L) (hv : Hosts L Q v) :
    ∃ pool, PoolAt L Q pool ∧
      Kit.Transition.Reachable serve (empty v.queue.authority v.queue.maxRetries) pool := by
  obtain ⟨txs, hrun⟩ := hL
  obtain ⟨pool, hpool, hcalls⟩ := (history_run hrun).1 v hv
  exact ⟨pool, hpool, _, hcalls⟩

/-- The queue stands for one pool, which serves exactly the sequences of calls
that the instructions of the program amount to. -/
theorem traces_agree (hL : Reachable L) {queue : Queue K} (hQ : L Q = some (.queue queue)) :
    ∃ pool, PoolAt L Q pool ∧ (∀ other, PoolAt L Q other → other = pool) ∧
      Kit.Transition.Reachable serve (empty queue.authority queue.maxRetries) pool ∧
      ∀ calls next, run serve pool calls = some next ↔
        ∃ txs L', run step L txs = some L' ∧ outputs step (callsAt Q) L txs = calls ∧
          PoolAt L' Q next := by
  have hwf := reachable_wellFormed hL
  obtain ⟨v, hv, rfl⟩ := hwf.queue hQ
  obtain ⟨pool, hpool, hreach⟩ := pool_exists hL hv
  refine ⟨pool, hpool, fun other hother => poolAt_unique hother hpool hwf, hreach,
    fun calls next => ?_⟩
  have hdet : ∀ (M : Ledger K) b c, (Reachable M ∧ PoolAt M Q b) → (Reachable M ∧ PoolAt M Q c) →
      b = c := fun M b c hb hc => poolAt_unique hb.2 hc.2 (reachable_wellFormed hb.1)
  rw [(pool_implemented Q).run_iff hdet ⟨hL, hpool⟩]
  constructor
  · intro ⟨txs, L', hrun, hout, _, hnext⟩
    exact ⟨txs, L', hrun, hout, hnext⟩
  · intro ⟨txs, L', hrun, hout, hnext⟩
    exact ⟨txs, L', hrun, hout, hL.extend hrun, hnext⟩

theorem traces_agree_demo : ∃ pool, PoolAt (ledgerAfter demoRun) demoQueue pool ∧
    (∀ other, PoolAt (ledgerAfter demoRun) demoQueue other → other = pool) ∧
    Kit.Transition.Reachable serve (empty demoAccount.authority demoAccount.maxRetries) pool ∧
    ∀ calls next, run serve pool calls = some next ↔
      ∃ txs L', run step (ledgerAfter demoRun) txs = some L' ∧
        outputs step (callsAt demoQueue) (ledgerAfter demoRun) txs = calls ∧
        PoolAt L' demoQueue next :=
  traces_agree demo_reachable demo_queue

/-! ### How much can happen to the jobs of a queue -/

/-- The claims, reports and cancellations the program has accepted for a queue
are limited by its jobs: `claim_job` and one report for each attempt. -/
theorem work_bounded {txs : List (Tx K)} (hrun : run step genesis txs = some L) {queue : Queue K}
    (hQ : L Q = some (.queue queue)) :
    works (history Q txs) ≤ 2 * max 1 queue.maxRetries * queue.jobCount := by
  obtain ⟨v, hv, rfl⟩ := (reachable_wellFormed ⟨txs, hrun⟩).queue hQ
  obtain ⟨pool, hpool, hcalls⟩ := (history_run hrun).1 v hv
  have hwork := works_le (fits_empty v.queue.authority v.queue.maxRetries) hcalls
  have hlength := length_run hcalls
  have hjobs := ((poolAt_iff hv).mp hpool).length.trans hv.placed.jobCount.symm
  simp only [remaining, empty, List.map_nil, List.sum_nil, List.length_nil, Nat.zero_add,
    limit] at hwork hlength
  rw [← hlength, hjobs] at hwork
  omega

theorem work_bounded_demo :
    works (history demoQueue demoRun) ≤ 2 * max 1 demoAccount.maxRetries * demoAccount.jobCount :=
  work_bounded (ledgerAfter_run demoRun_accepted) demo_queue

/-! ### Emptying a queue -/

/-- With no id on any page, `advance_head` takes the head to the tail. -/
theorem head_to_tail (clock : Int64) {n : Nat} (hL : Reachable L) (hv : Hosts L Q v)
    (hn : v.head.tailIndexSeq - v.head.headIndexSeq = n)
    (hempty : ∀ (s : Nat) p, v.pages[s]? = some p → p.jobIds = []) :
    ∃ txs L' v', run step L txs = some L' ∧ txs.length = n ∧ (∀ tx ∈ txs, tx.clock = clock) ∧
      Hosts L' Q v' ∧ v'.queue = v.queue ∧ v'.jobs = v.jobs ∧ v'.pages = v.pages ∧
      v'.head.headIndexSeq = v'.head.tailIndexSeq := by
  induction n generalizing L v with
  | zero =>
    have horder := (reachable_inv hL hv).linked.order
    exact ⟨[], L, v, rfl, rfl, fun tx htx => absurd htx List.not_mem_nil, hv, rfl, rfl, rfl, by omega⟩
  | succ n ih =>
    have hlinked := (reachable_inv hL hv).linked
    obtain ⟨page, hpage⟩ := hlinked.page hlinked.order
    have hnext : page.nextSeq = v.head.headIndexSeq + 1 :=
      (hlinked.next _ _ hpage).trans (if_pos (by omega))
    obtain ⟨M, hs, hw⟩ := step_of_queueStep hv
      (.advanceHead hpage (hempty _ _ hpage) (.inr (by omega)) : QueueStep Q clock _ v _ [])
    obtain ⟨txs, L', v', hrun, hlen, hclock, hv', hqueue, hjobs, hpages, hdone⟩ :=
      ih (hL.next hs) hw (by simp only [hnext]; omega) hempty
    refine ⟨_ :: txs, L', v', run_cons.mpr ⟨M, hs, hrun⟩, ?_, List.forall_mem_cons.mpr ⟨rfl, hclock⟩,
      hv', hqueue, hjobs, hpages, hdone⟩
    rw [List.length_cons, hlen]

theorem head_fixed {txs : List (Tx K)} (hL : Reachable L) (hv : Hosts L Q v)
    (hrun : run step L txs = some L') (hplain : ∀ tx ∈ txs, maintains tx.ix = false) :
    ∃ v', Hosts L' Q v' ∧ v'.head.headIndexSeq = v.head.headIndexSeq ∧
      v'.head.tailIndexSeq = v.head.tailIndexSeq := by
  induction txs generalizing L v with
  | nil =>
    cases hrun
    exact ⟨v, hv, rfl, rfl⟩
  | cons tx txs ih =>
    obtain ⟨htx, htxs⟩ := List.forall_mem_cons.mp hplain
    obtain ⟨M, hs, hrest⟩ := run_cons.mp hrun
    obtain ⟨w, hw, hmove⟩ := hosts_step (reachable_wellFormed hL) hv hs
    have hsame : w.head.headIndexSeq = v.head.headIndexSeq ∧
        w.head.tailIndexSeq = v.head.tailIndexSeq := by
      rcases hmove with rfl | ⟨evs, hstep⟩
      · exact ⟨rfl, rfl⟩
      · generalize tx.ix = ix at htx hstep
        cases hstep with
        | growIndex => cases htx
        | advanceHead => cases htx
        | _ => exact ⟨rfl, rfl⟩
    obtain ⟨v', hv', hhead, htail⟩ := ih (hL.next hs) hw hrest htxs
    exact ⟨v', hv', hhead.trans hsame.1, htail.trans hsame.2⟩

/-- What a job becomes when its queue is emptied. -/
def settledStatus (status : JobStatus) : JobStatus := if active status then .completed else status

omit [DecidableEq K] [AddressDerivation K] in
theorem stands_settled {budget : Nat} {j' : Job K} {e : Entry K Int64 Task} (h : Stands budget j e)
    (h' : Stands budget j' e.settled) : j'.status = settledStatus j.status := by
  obtain ⟨task, attempts, phase⟩ := e
  have hp := h.phase
  have hp' := h'.phase
  cases phase with
  | waiting due => simp_all [PhaseIs, Entry.settled, settledStatus, active]
  | held holder => simp_all [PhaseIs, Entry.settled, settledStatus, active]
  | done => simp_all [PhaseIs, Entry.settled, settledStatus, active]
  | dead => simp_all [PhaseIs, Entry.settled, settledStatus, active]
  | withdrawn => simp_all [PhaseIs, Entry.settled, settledStatus, active]

omit [DecidableEq K] [AddressDerivation K] in
theorem stands_open {budget : Nat} {e : Entry K Int64 Task} (h : Stands budget j e) :
    e.phase.isOpen = active j.status := by
  obtain ⟨task, attempts, phase⟩ := e
  have hp := h.phase
  cases phase <;> simp_all [PhaseIs, Phase.isOpen, active]

omit [DecidableEq K] [AddressDerivation K] in
theorem settled_statuses {queue queue' : Queue K} {jobs jobs' : List (Job K)}
    (h : PoolOf queue jobs pool)
    (h' : PoolOf queue' jobs' { pool with entries := pool.entries.map Entry.settled }) :
    jobs'.map (fun j => j.status) = jobs.map fun j => settledStatus j.status := by
  apply List.ext_getElem?
  intro i
  have hi' := h'.entries i
  simp only [List.getElem?_map] at hi' ⊢
  rcases rel_iff.mp (h.entries i) with ⟨hx, hy⟩ | ⟨j, e, hx, hy, hs⟩
  · rw [hy] at hi'
    rcases rel_iff.mp hi' with ⟨hx', _⟩ | ⟨_, _, _, hy', _⟩
    · rw [hx, hx']
      rfl
    · cases hy'
  · rw [hy] at hi'
    rcases rel_iff.mp hi' with ⟨_, hy'⟩ | ⟨j', e', hx', hy', hs'⟩
    · cases hy'
    · cases hy'
      rw [hx, hx', Option.map_some, Option.map_some, stands_settled hs hs']

omit [DecidableEq K] [AddressDerivation K] in
theorem open_count {queue : Queue K} {jobs : List (Job K)} (h : PoolOf queue jobs pool) :
    pool.entries.countP (fun e => e.phase.isOpen) = tally active jobs := by
  have hmap : pool.entries.map (fun e => e.phase.isOpen) = jobs.map fun j => active j.status := by
    apply List.ext_getElem?
    intro i
    simp only [List.getElem?_map]
    rcases rel_iff.mp (h.entries i) with ⟨hx, hy⟩ | ⟨j, e, hx, hy, hs⟩
    · rw [hx, hy]
      rfl
    · rw [hx, hy, Option.map_some, Option.map_some, stands_open hs]
  have hcount := congrArg (List.countP id) hmap
  simpa only [List.countP_map, Function.comp_def, id, tally] using hcount

omit [DecidableEq K] [AddressDerivation K] in
theorem tally_settled (f : JobStatus → Bool) {jobs jobs' : List (Job K)}
    (h : jobs'.map (fun j => j.status) = jobs.map fun j => settledStatus j.status) :
    tally f jobs' = jobs.countP fun j => f (settledStatus j.status) := by
  have hcount := congrArg (List.countP f) h
  simpa only [List.countP_map, Function.comp_def, tally] using hcount

omit [DecidableEq K] [AddressDerivation K] in
/-- Settling moves all active jobs to the completed ones and leaves the rest. -/
theorem settled_tallies {jobs jobs' : List (Job K)}
    (h : jobs'.map (fun j => j.status) = jobs.map fun j => settledStatus j.status) :
    tally active jobs' = 0 ∧
      tally (· == .completed) jobs' = tally (· == .completed) jobs + tally active jobs ∧
      tally (· == .failed) jobs' = tally (· == .failed) jobs := by
  rw [tally_settled _ h, tally_settled _ h, tally_settled _ h]
  clear h
  induction jobs with
  | nil => exact ⟨rfl, rfl, rfl⟩
  | cons j jobs ih =>
    obtain ⟨hactive, hcompleted, hfailed⟩ := ih
    have hone : ∀ st : JobStatus, (if active (settledStatus st) then 1 else 0) = 0 ∧
        (if settledStatus st == .completed then 1 else 0) =
          (if st == .completed then 1 else 0) + (if active st then 1 else 0) ∧
        (if settledStatus st == .failed then 1 else 0) = if st == .failed then 1 else 0 := by
      intro st
      cases st <;> exact ⟨rfl, rfl, rfl⟩
    obtain ⟨h1, h2, h3⟩ := hone j.status
    simp only [List.countP_cons, tally_cons]
    omega

/-- The queue `Q` after all of its open jobs were completed. -/
structure Emptied (L L' : Ledger K) (Q : K) (queue : Queue K) : Prop where
  counters : ∃ queue', L' Q = some (.queue queue') ∧ queue'.jobCount = queue.jobCount ∧
    queue'.pendingCount = 0 ∧ queue'.processedCount = queue.processedCount + queue.pendingCount ∧
    queue'.failedCount = queue.failedCount
  job : ∀ i j, jobAt L Q i = some j →
    ∃ j', jobAt L' Q i = some j' ∧ j'.status = settledStatus j.status
  page : ∀ s p, L' (address (.index Q s)) = some (.jobIndex p) → p.jobIds = []
  head : ∃ head, L' (address (.queueHead Q)) = some (.queueHead head) ∧
    head.headIndexSeq = head.tailIndexSeq

omit [DecidableEq K] in
theorem emptied_of_views (hv : Hosts L Q v) (hv' : Hosts L' Q v') (hinv : Inv v) (hinv' : Inv v')
    (hpool : PoolOf v.queue v.jobs pool)
    (hpool' : PoolOf v'.queue v'.jobs { pool with entries := pool.entries.map Entry.settled })
    (hpages : ∀ (s : Nat) p, v'.pages[s]? = some p → p.jobIds = [])
    (hhead : v'.head.headIndexSeq = v'.head.tailIndexSeq) : Emptied L L' Q v.queue := by
  have hstatuses := settled_statuses hpool hpool'
  obtain ⟨hactive, hcompleted, hfailed⟩ := settled_tallies hstatuses
  refine ⟨⟨v'.queue, hv'.view.queueAt, ?_, ?_, ?_, ?_⟩, fun i j hj => ?_, fun s p hp => ?_,
    v'.head, hv'.view.headAt, hhead⟩
  · rw [hv'.placed.jobCount, hv.placed.jobCount]
    simpa only [List.length_map] using congrArg List.length hstatuses
  · rw [hinv'.counted.pending, hactive]
  · rw [hinv'.counted.processed, hcompleted, hinv.counted.processed, hinv.counted.pending]
  · rw [hinv'.counted.failed, hfailed, hinv.counted.failed]
  · rw [jobAt_hosts hv] at hj
    have hi : (v'.jobs.map fun j => j.status)[i]? = some (settledStatus j.status) := by
      rw [hstatuses, List.getElem?_map, hj, Option.map_some]
    rw [List.getElem?_map, Option.map_eq_some_iff] at hi
    obtain ⟨j', hj', hs⟩ := hi
    exact ⟨j', (jobAt_hosts hv' i).trans hj', hs⟩
  · rw [hv'.view.pageAt, Option.map_eq_some_iff] at hp
    obtain ⟨q, hq, he⟩ := hp
    cases he
    exact hpages s _ hq

/-- No reachable queue is stuck: once its jobs are due, a run no longer than
two instructions for each open job and one for each page behind the tail
completes them all and brings the head to the tail, paused or not. -/
theorem drains (hL : Reachable L) {queue : Queue K} {head : QueueHead K}
    (hQ : L Q = some (.queue queue)) (hH : L (address (.queueHead Q)) = some (.queueHead head))
    (clock : Int64) (worker : K)
    (hready : ∀ i j, jobAt L Q i = some j → j.status = .pending → j.executeAfter ≤ clock) :
    ∃ txs L', run step L txs = some L' ∧ (∀ tx ∈ txs, tx.clock = clock) ∧
      txs.length ≤ 2 * queue.pendingCount + (head.tailIndexSeq - head.headIndexSeq) ∧
      Emptied L L' Q queue := by
  obtain ⟨v, hv, hinv, rfl⟩ := reachable_queue hL hQ
  cases hv.view.headAt.symm.trans hH
  obtain ⟨pool, hpool, _⟩ := pool_exists hL hv
  have hof := (poolAt_iff hv).mp hpool
  -- the jobs: the calls that drain the pool, realized one by one
  have hentries : ∀ e ∈ pool.entries, e.Ready clock := by
    intro e he due hdue
    obtain ⟨i, hi⟩ := List.getElem?_of_mem he
    obtain ⟨j, hj, hs⟩ := hof.job hi
    have hwait := hs.phase
    rw [hdue] at hwait
    exact hwait.2 ▸ hready i j ((jobAt_hosts hv i).trans hj) hwait.1
  have hdrain : run serve pool (drain clock worker 0 pool.entries) =
      some { pool with entries := pool.entries.map Entry.settled } :=
    drain_run policy clock worker pool [] pool.entries hentries
  obtain ⟨txs, M, hrun, ⟨hM, hpoolM⟩, _, hlength, hfit⟩ :=
    (pool_implemented Q).realize ⟨hL, hpool⟩ hdrain
  have hplain : ∀ call ∈ drain (D := Int64) clock worker 0 pool.entries,
      call.now = clock ∧ needsPage call.request = false := by
    intro call hcall
    obtain ⟨hnow, i, who, hreq⟩ := drain_calls hcall
    refine ⟨hnow, ?_⟩
    rcases hreq with hreq | hreq <;> rw [hreq] <;> rfl
  have hcost : ((drain clock worker 0 pool.entries).map cost).sum ≤ 2 * tally active v.jobs := by
    have hone : ∀ call ∈ drain (D := Int64) clock worker 0 pool.entries, cost call = 1 := by
      intro call hcall
      rw [cost, if_neg (by simp [(hplain call hcall).2])]
    rw [← open_count hof, List.map_congr_left hone]
    simpa using drain_length (D := Int64) clock worker 0 pool.entries
  have hclock : ∀ tx ∈ txs, tx.clock = clock ∧ maintains tx.ix = false := by
    intro tx htx
    obtain ⟨call, hcall, hr⟩ := hfit tx htx
    obtain ⟨hnow, hneeds⟩ := hplain call hcall
    exact ⟨hr.clock.trans hnow, hr.plain hneeds⟩
  obtain ⟨w, hw, hhead, htail⟩ := head_fixed hL hv hrun fun tx htx => (hclock tx htx).2
  have hofM := (poolAt_iff hw).mp hpoolM
  have hinvM := reachable_inv hM hw
  have hnone := (settled_tallies (settled_statuses hof hofM)).1
  -- the pages: nothing is pending any more
  have hpages : ∀ (s : Nat) p, w.pages[s]? = some p → p.jobIds = [] := by
    intro s p hp
    by_contra hne
    obtain ⟨id, hid⟩ := List.exists_mem_of_ne_nil _ hne
    have hpending := hinvM.indexed.pending_of_mem hp hid
    simp only [pendingAt, Option.any_eq_true] at hpending
    obtain ⟨j, hj, hs⟩ := hpending
    have hpos := tally_pos (f := active) hj (by rw [eq_of_beq hs]; rfl)
    omega
  obtain ⟨more, L', w', hmore, hlen, hclock', hw', hqueue, hjobs, hsame, hdone⟩ :=
    head_to_tail clock hM hw rfl hpages
  refine ⟨txs ++ more, L', run_append.mpr ⟨M, hrun, hmore⟩, fun tx htx => ?_, ?_, ?_⟩
  · rcases List.mem_append.mp htx with htx | htx
    · exact (hclock tx htx).1
    · exact hclock' tx htx
  · rw [List.length_append, hlen, hinv.counted.pending, hhead, htail]
    omega
  · have hL' := hM.extend hmore
    exact emptied_of_views hv hw' hinv (reachable_inv hL' hw') hof (by rw [hqueue, hjobs]; exact hofM)
      (by rw [hsame]; exact hpages) hdone

def demoHead : QueueHead Key := ⟨.wallet 0, 0, 0, 2, 255⟩

theorem demo_head : ledgerAfter demoRun (address (.queueHead demoQueue)) = some (.queueHead demoHead) := by
  decide

theorem drains_demo : ∃ txs L', run step (ledgerAfter demoRun) txs = some L' ∧
    (∀ tx ∈ txs, tx.clock = Int64.maxValue) ∧
    txs.length ≤ 2 * demoAccount.pendingCount + (demoHead.tailIndexSeq - demoHead.headIndexSeq) ∧
    Emptied (ledgerAfter demoRun) L' demoQueue demoAccount :=
  drains demo_reachable demo_queue demo_head Int64.maxValue (.wallet 2)
    fun _ j _ _ => Int64.le_maxValue j.executeAfter

end

end DecQueue.PoolRefinement
