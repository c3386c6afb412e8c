import DecQueue.AuditRecord
import DecQueue.Schedule

/-! # The optional fields of a job

Six fields of a job are set and cleared along its life. In a run whose clock
never goes back they fit the status of the job, and `error_message` tells
whether an attempt has ever failed. The times in the record are clock values
of earlier transactions, which is what orders them. -/

namespace DecQueue.Lifecycle
open Kit.Fallible Kit.Transition State Handlers Outcomes Address Program View Refinement Reachability
  Invariants JobLife AuditRecord Schedule

variable {K : Type}

/-! ### Fields by status -/

/-- Somebody is working on the job since `began`, or worked on it last. -/
structure Started (j : Job K) (began : Int64) : Prop where
  worker : j.worker.isSome = true
  startedAt : j.startedAt = some began

structure Ended (j : Job K) (began ended : Int64) : Prop extends Started j began where
  completedAt : j.completedAt = some ended
  order : began ≤ ended

def FieldsFit (j : Job K) : Prop :=
  match j.status with
  | .pending => j.worker = none ∧ j.startedAt = none ∧ j.completedAt = none ∧ j.result = none
  | .processing => ∃ began, Started j began ∧ 1 ≤ j.attempts ∧ j.createdAt ≤ began ∧
      j.executeAfter ≤ began ∧ j.completedAt = none ∧ j.result = none
  | .completed => ∃ began ended, Ended j began ended
  | .failed => (∃ began ended, Ended j began ended) ∧ j.errorMessage.isSome = true ∧ j.result = none
  | .cancelled => j.completedAt.isSome = true ∧ j.result = none

theorem completedAt_iff {j : Job K} (h : FieldsFit j) :
    j.completedAt.isSome = true ↔ terminal j.status = true := by
  unfold FieldsFit at h
  split at h
  next hs =>
    obtain ⟨_, _, hc, _⟩ := h
    simp [hs, hc, terminal]
  next hs =>
    obtain ⟨_, _, _, _, _, hc, _⟩ := h
    simp [hs, hc, terminal]
  next hs =>
    obtain ⟨_, _, hf⟩ := h
    simp [hs, hf.completedAt, terminal]
  next hs =>
    obtain ⟨⟨_, _, hf⟩, _⟩ := h
    simp [hs, hf.completedAt, terminal]
  next hs =>
    simp [hs, h.1, terminal]

/-! ### One step -/

section
variable {k authority : K} {clock : Int64} {ix : Instruction K} {j j' : Job K}

theorem attempts_locked_pos (clock : Int64) (worker : K) (j : Job K) :
    1 ≤ (locked clock worker j).attempts := by
  simp only [locked, checkedAdd]
  split
  · simp
  · simp [u8Max]

/-- `hpast`: the times of the record are not later than the clock of the step. -/
theorem fieldsFit_step (h : JobStep k clock authority ix j j') (hf : FieldsFit j)
    (hcreated : j.createdAt ≤ clock) (hstarted : ∀ t ∈ j.startedAt, t ≤ clock) : FieldsFit j' := by
  cases h with
  | other => exact hf
  | claim worker page hstatus hready =>
    simp only [FieldsFit, hstatus] at hf
    obtain ⟨_, _, hcompleted, hresult⟩ := hf
    exact ⟨clock, ⟨rfl, rfl⟩, attempts_locked_pos clock worker j, hcreated, hready, hcompleted, hresult⟩
  | complete worker result hstatus =>
    simp only [FieldsFit, hstatus] at hf
    obtain ⟨began, hs, _⟩ := hf
    exact ⟨began, clock, ⟨hs.worker, hs.startedAt⟩, rfl, hstarted _ hs.startedAt⟩
  | retry worker page errorMessage retryAfterSecs hmay =>
    simp only [FieldsFit, hmay.1] at hf
    obtain ⟨_, _, _, _, _, hcompleted, hresult⟩ := hf
    exact ⟨rfl, rfl, hcompleted, hresult⟩
  | deadLetter worker page errorMessage retryAfterSecs hmay =>
    simp only [FieldsFit, hmay.1] at hf
    obtain ⟨began, hs, _, _, _, _, hresult⟩ := hf
    exact ⟨⟨began, clock, ⟨hs.worker, hs.startedAt⟩, rfl, hstarted _ hs.startedAt⟩, rfl, hresult⟩
  | cancel page hstatus =>
    refine ⟨rfl, ?_⟩
    rcases hstatus with hs | hs
    · simp only [FieldsFit, hs] at hf
      exact hf.2.2.2
    · simp only [FieldsFit, hs] at hf
      obtain ⟨_, _, _, _, _, _, hresult⟩ := hf
      exact hresult

/-- An instruction that reports a failure of the job at `k`. -/
def reportsFailure [DecidableEq K] (k : K) : Instruction K → Bool
  | .failJob ctx _ _ => decide (ctx.job = k)
  | _ => false

theorem errorMessage_step [DecidableEq K] (h : JobStep k clock authority ix j j') :
    j'.errorMessage.isSome = true ↔ j.errorMessage.isSome = true ∨ reportsFailure k ix = true := by
  cases h with
  | other hne =>
    cases ix with
    | failJob ctx errorMessage retryAfterSecs =>
      have hjob : ctx.job ≠ k := fun he => hne (congrArg some he)
      simp [reportsFailure, hjob]
    | initializeQueue | growIndex | advanceHead | enqueueJob | claimJob | completeJob | cancelJob
    | setQueuePaused => simp [reportsFailure]
  | claim | complete | cancel => simp [reportsFailure, locked, finished, cancelled]
  | retry | deadLetter => simp [reportsFailure, retried, deadLettered]

theorem startedAt_step (h : JobStep k clock authority ix j j') :
    ∀ t ∈ j'.startedAt, t = clock ∨ t ∈ j.startedAt := by
  intro t ht
  cases h with
  | other | complete | deadLetter | cancel => exact .inr ht
  | claim => exact .inl (Option.some.inj ht).symm
  | retry => cases ht

end

/-! ### Over a run -/

def Happened (txs : List (Tx K)) (t : Int64) : Prop := ∃ tx ∈ txs, tx.clock = t

theorem Happened.before {txs : List (Tx K)} {tx : Tx K} {t : Int64} (h : Happened txs t)
    (hclock : Chronological (txs ++ [tx])) : t ≤ tx.clock := by
  obtain ⟨old, hold, rfl⟩ := h
  exact (List.pairwise_append.mp hclock).2.2 old hold tx (List.mem_singleton_self tx)

theorem Happened.snoc {txs : List (Tx K)} {t : Int64} (h : Happened txs t) (tx : Tx K) :
    Happened (txs ++ [tx]) t := by
  obtain ⟨old, hold, ht⟩ := h
  exact ⟨old, List.mem_append_left _ hold, ht⟩

theorem happened_last (txs : List (Tx K)) (tx : Tx K) : Happened (txs ++ [tx]) tx.clock :=
  ⟨tx, List.mem_append_right _ (List.mem_singleton_self tx), rfl⟩

variable [DecidableEq K]

structure Coherent (k : K) (txs : List (Tx K)) (j : Job K) : Prop where
  fields : FieldsFit j
  created : Happened txs j.createdAt
  started : ∀ t ∈ j.startedAt, Happened txs t
  error : j.errorMessage.isSome = true ↔ ∃ tx ∈ txs, reportsFailure k tx.ix = true

/-- Without a job at `k` no failure of it has been reported either. -/
structure Recorded (k : K) (L : Ledger K) (txs : List (Tx K)) : Prop where
  job : ∀ job, L k = some (.job job) → Coherent k txs job
  none : (∀ job, L k ≠ some (.job job)) → ¬∃ tx ∈ txs, reportsFailure k tx.ix = true

theorem failure_snoc (k : K) (txs : List (Tx K)) (tx : Tx K) :
    (∃ t ∈ txs ++ [tx], reportsFailure k t.ix = true) ↔
      (∃ t ∈ txs, reportsFailure k t.ix = true) ∨ reportsFailure k tx.ix = true := by
  simp only [List.mem_append, List.mem_singleton, or_and_right, exists_or, exists_eq_left]

theorem worksOn_of_reportsFailure {k : K} {ix : Instruction K} (h : reportsFailure k ix = true) :
    worksOn ix = some k := by
  unfold reportsFailure at h
  split at h
  next ctx _ _ => exact congrArg some (of_decide_eq_true h)
  next => cases h

theorem Coherent.next {k authority : K} {txs : List (Tx K)} {tx : Tx K} {j j' : Job K}
    (hc : Coherent k txs j) (hclock : Chronological (txs ++ [tx]))
    (h : JobStep k tx.clock authority tx.ix j j') : Coherent k (txs ++ [tx]) j' := by
  refine ⟨?_, ?_, ?_, ?_⟩
  · exact fieldsFit_step h hc.fields (hc.created.before hclock)
      fun t ht => (hc.started t ht).before hclock
  · rw [(sameJob_of_jobStep h).createdAt]
    exact hc.created.snoc tx
  · intro t ht
    rcases startedAt_step h t ht with rfl | hold
    · exact happened_last txs tx
    · exact (hc.started t hold).snoc tx
  · rw [errorMessage_step h, failure_snoc, hc.error]

variable [AddressDerivation K] {L L' : Ledger K} {k : K} {tx : Tx K} {txs : List (Tx K)}

theorem recorded_step (hL : WellFormed L) (hclock : Chronological (txs ++ [tx]))
    (hr : Recorded k L txs) (h : step L tx = some L') : Recorded k L' (txs ++ [tx]) := by
  constructor
  · intro j' hk'
    obtain ⟨j, hk⟩ | ⟨hnew, ctx, _, _, _, _, _, hix, _, _, _, rfl⟩ := job_origin hL h hk'
    · obtain ⟨_, j'', _, hk'', hs⟩ := job_step hL hk h
      cases hk'.symm.trans hk''
      exact (hr.job j hk).next hclock hs
    · have hno : reportsFailure k tx.ix = false := by simp only [hix, reportsFailure]
      have hfirst := hr.none (by simp [hnew])
      refine ⟨⟨rfl, rfl, rfl, rfl⟩, happened_last txs tx, by simp [enqueued], ?_⟩
      rw [failure_snoc, hno]
      simp [enqueued, hfirst]
  · intro hnone hfail
    have hbefore : ∀ job, L k ≠ some (.job job) := by
      intro j hk
      obtain ⟨_, j', _, hk', _⟩ := job_step hL hk h
      exact hnone j' hk'
    rcases (failure_snoc k txs tx).mp hfail with hold | hlast
    · exact hr.none hbefore hold
    · obtain ⟨j, hk⟩ := exists_of_worksOn hL h (worksOn_of_reportsFailure hlast)
      exact hbefore j hk

theorem recorded_run (hrun : run step genesis txs = some L) (hclock : Chronological txs) :
    Recorded k L txs := by
  refine run_history (P := fun L txs => Chronological txs → Recorded k L txs) ?_ ?_ hrun hclock
  · intro _
    refine ⟨fun job hk => ?_, fun _ => by simp⟩
    cases hk
  · intro L txs tx L' hrun hr h hclock
    have hearlier : Chronological txs := (List.pairwise_append.mp hclock).1
    exact recorded_step (reachable_wellFormed ⟨txs, hrun⟩) hclock (hr hearlier) h

theorem fields_coherent (hrun : run step genesis txs = some L) (hclock : Chronological txs)
    {job : Job K} (hk : L k = some (.job job)) :
    FieldsFit job ∧ (job.completedAt.isSome = true ↔ terminal job.status = true) ∧
      (job.errorMessage.isSome = true ↔ ∃ tx ∈ txs, reportsFailure k tx.ix = true) := by
  have hc := (recorded_run hrun hclock).job job hk
  exact ⟨hc.fields, completedAt_iff hc.fields, hc.error⟩

theorem fields_coherent_demo : FieldsFit demoClaimed ∧
    (demoClaimed.completedAt.isSome = true ↔ terminal demoClaimed.status = true) ∧
      (demoClaimed.errorMessage.isSome = true ↔
        ∃ tx ∈ demoRun, reportsFailure (address (.job demoQueue 0)) tx.ix = true) :=
  fields_coherent (ledgerAfter_run demoRun_accepted) (by unfold Chronological; decide) demo_claimed

end DecQueue.Lifecycle
