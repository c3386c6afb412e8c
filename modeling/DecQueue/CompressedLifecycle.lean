import DecQueue.CompressedCodec
import DecQueue.Invariants

/-! # Two copies of the job life cycle

The compressed handlers repeat `claim_job`, `complete_job` and `fail_job` over
another representation: a number for the status, the zero key for no worker,
0 for a time that is not set. `img` maps a job to its record. With the accounts
of one queue, both copies accept the same instructions and do the same. -/

namespace DecQueue.CompressedLifecycle
open Kit.Fallible State Handlers Address Program View Refinement Reachability Invariants AccountCodec
  Compressed CompressedCodec

variable {K : Type} [AddressDerivation K] [DefaultKey K]

def statusCode : JobStatus → UInt8
  | .pending => cjobPending
  | .processing => cjobProcessing
  | .completed => cjobCompleted
  | .failed => cjobFailed
  | .cancelled => cjobCancelled

/-- The record of a job; the result and the error message have no field in it. -/
def img (job : Job K) : JobAccount K :=
  let record : JobAccount K :=
    { queue := job.queue, jobId := job.jobId, jobType := Vector.replicate 32 0, payloadLen := 0,
      payload := Vector.replicate 512 0, status := statusCode job.status, priority := job.priority,
      createdAt := job.createdAt, executeAfter := job.executeAfter, attempts := job.attempts,
      maxRetries := job.maxRetries, worker := job.worker.getD defaultKey,
      startedAt := job.startedAt.getD 0, completedAt := job.completedAt.getD 0 }
  (record.setJobType job.jobType).setPayload job.payload

theorem statusCode_injective : Function.Injective statusCode := by
  intro s s' h
  cases s <;> cases s' <;> first | rfl | cases h

theorem img_worker_iff {worker : K} (hworker : worker ≠ defaultKey) (job : Job K) :
    (img job).worker = worker ↔ job.worker = some worker := by
  change job.worker.getD defaultKey = worker ↔ _
  cases job.worker with
  | none => simp [hworker.symm]
  | some w => simp

theorem img_locked (clock : Int64) (worker : K) (job : Job K) :
    img (Outcomes.locked clock worker job) = Compressed.locked clock worker (img job) := by
  have ha : (Outcomes.locked clock worker job).attempts = saturatingAdd u8Max job.attempts 1 :=
    (saturatingAdd_eq_getD u8Max job.attempts 1).symm
  simp only [img, Compressed.locked, JobAccount.setJobType, JobAccount.setPayload, ha]
  rfl

theorem img_finished (clock : Int64) (result : Option String) (job : Job K) :
    img (Outcomes.finished clock result job) = Compressed.finished clock (img job) := rfl

theorem img_retried (clock : Int64) (errorMessage : String) (retryAfterSecs : Int64) (job : Job K) :
    img (Outcomes.retried clock errorMessage retryAfterSecs job) =
      Compressed.retried clock retryAfterSecs (img job) := rfl

theorem img_deadLettered (clock : Int64) (errorMessage : String) (job : Job K) :
    img (Outcomes.deadLettered clock errorMessage job) = Compressed.deadLettered clock (img job) := rfl

/-! ### Matching instructions -/

inductive Action where
  | claim
  | complete (result : Option String)
  | fail (errorMessage : String) (retryAfterSecs : Int64)

def Action.standard (Q job worker page : K) : Action → Instruction K
  | .claim => .claimJob ⟨job, worker, page⟩
  | .complete result => .completeJob ⟨Q, job, worker⟩ result
  | .fail errorMessage retryAfterSecs => .failJob ⟨Q, job, worker, page⟩ errorMessage retryAfterSecs

def Action.compressed (Q worker payer page : K) : Action → CompressedInstruction K
  | .claim => .claimCompressedJob ⟨worker, payer, page⟩
  | .complete result => .completeCompressedJob ⟨Q, worker, payer⟩ result
  | .fail errorMessage retryAfterSecs =>
      .failCompressedJob ⟨Q, worker, payer, page⟩ errorMessage retryAfterSecs

/-- The record that the handler hands to `LightAccount::new_mut`: not the one it
has read, but the changed one. -/
def Action.presented (clock : Int64) (worker : K) (record : JobAccount K) : Action → JobAccount K
  | .claim => Compressed.locked clock worker record
  | .complete _ => Compressed.finished clock record
  | .fail _ retryAfterSecs =>
      if record.attempts < record.maxRetries then Compressed.retried clock retryAfterSecs record
      else Compressed.deadLettered clock record

/-- Both runs are accepted or neither is; the record is that of the job at `k`,
and all other accounts and the events are the same. -/
structure Agree (k : K) (std : Except ProgramError (Ledger K × List (Event K)))
    (cmp : Except ProgramError (Ledger K × JobAccount K × List (Event K))) : Prop where
  accepted : (∃ r, std = .ok r) ↔ ∃ r, cmp = .ok r
  same : ∀ L₁ evs₁ L₂ record evs₂, std = .ok (L₁, evs₁) → cmp = .ok (L₂, record, evs₂) →
    (∃ job, L₁ k = some (.job job) ∧ record = img job) ∧ (∀ k', k' ≠ k → L₂ k' = L₁ k') ∧
      evs₂ = evs₁

/-- Two outcomes that depend on one and the same datum `d`. -/
theorem agree_of_iff {k : K} {std : Except ProgramError (Ledger K × List (Event K))}
    {cmp : Except ProgramError (Ledger K × JobAccount K × List (Event K))} {D : Type} {G : D → Prop}
    {M N : D → Ledger K} {j : Job K} {E : List (Event K)}
    (hstd : ∀ r, std = .ok r ↔ ∃ d, G d ∧ (M d, E) = r)
    (hcmp : ∀ r, cmp = .ok r ↔ ∃ d, G d ∧ (N d, img j, E) = r)
    (hG : ∀ d d', G d → G d' → d = d') (hjob : ∀ d, M d k = some (.job j))
    (hother : ∀ d k', k' ≠ k → N d k' = M d k') : Agree k std cmp := by
  constructor
  · constructor
    · rintro ⟨r, hr⟩
      obtain ⟨d, hd, _⟩ := (hstd r).mp hr
      exact ⟨_, (hcmp _).mpr ⟨d, hd, rfl⟩⟩
    · rintro ⟨r, hr⟩
      obtain ⟨d, hd, _⟩ := (hcmp r).mp hr
      exact ⟨_, (hstd _).mpr ⟨d, hd, rfl⟩⟩
  · intro _ _ _ _ _ hs hc
    obtain ⟨d, hd, he⟩ := (hstd _).mp hs
    obtain ⟨d', hd', he'⟩ := (hcmp _).mp hc
    cases hG d d' hd hd'
    cases he
    cases he'
    exact ⟨⟨j, hjob d, rfl⟩, hother d, rfl⟩

section
variable {L : Ledger K} {k worker payer pageKey : K} {job : Job K} {page : JobIndex K}
  {queue : Queue K} {Proof Meta : Type} {light : LightSystem K Proof Meta}
  {args : LightArgs K Proof Meta} (clock : Int64)

omit [AddressDerivation K] [DefaultKey K] in
theorem ne_of_accounts {k' : K} {a b : Account K} (h : L k = some a) (h' : L k' = some b)
    (hne : a ≠ b) : k ≠ k' := by
  rintro rfl
  exact hne (Option.some.inj (h.symm.trans h'))

variable [DecidableEq K]

omit [AddressDerivation K] [DefaultKey K] in
theorem write_skip {k' : K} (hne : k' ≠ k) (L : Ledger K) (a b : Account K) (p : K) :
    write L p b k' = write (write L k a) p b k' := by
  by_cases hp : k' = p
  · rw [hp, write_self, write_self]
  · rw [write_of_ne hp, write_of_ne hp, write_of_ne hne]

theorem claim_agrees (hk : L k = some (.job job)) (hpage : L pageKey = some (.jobIndex page))
    (hown : page.queue = job.queue) (hQ : job.queue ≠ defaultKey)
    (hdata : light.tryFromSlice args.jobData = some (img job))
    (hcpi : Accepts light args payer (Compressed.locked clock worker (img job))) :
    Agree k (exec clock L (.claimJob ⟨k, worker, pageKey⟩))
      (execCompressed light args clock L (.claimCompressedJob ⟨worker, payer, pageKey⟩)) := by
  have hne : k ≠ pageKey := ne_of_accounts hk hpage (by simp)
  have himg := img_locked clock worker job
  have hattempts : (Outcomes.locked clock worker job).attempts =
      (Compressed.locked clock worker (img job)).attempts := congrArg JobAccount.attempts himg
  apply agree_of_iff (j := Outcomes.locked clock worker job)
    (G := fun page' => job.status = .pending ∧ job.executeAfter ≤ clock ∧
      page.removeJob job.jobId = .ok page')
    (M := fun page' => write (write L k (.job (Outcomes.locked clock worker job))) pageKey
      (.jobIndex page'))
    (N := fun page' => write L pageKey (.jobIndex page'))
    (E := [.jobClaimed job.queue job.jobId worker (Outcomes.locked clock worker job).attempts clock])
  · intro r
    simp only [exec, execClaimJob, bind_ok_iff, loadJob_ok_iff, loadJobIndex_ok_iff, require_ok_iff,
      lift_ok_iff, Outcomes.claimJob_ok_iff, pure_ok_iff]
    constructor
    · rintro ⟨j, hj, p, hp, _, _, _, ⟨hs, hready, page', hremove, rfl⟩, rfl⟩
      cases hk.symm.trans hj
      cases hpage.symm.trans hp
      exact ⟨page', ⟨hs, hready, hremove⟩, rfl⟩
    · rintro ⟨page', ⟨hs, hready, hremove⟩, rfl⟩
      exact ⟨job, hk, page, hpage, (), hown, _, ⟨hs, hready, page', hremove, rfl⟩, rfl⟩
  · intro r
    simp only [execCompressed, bind_ok_iff, loadJobIndex_ok_iff, require_ok_iff, lift_ok_iff,
      claimCompressedJob_ok_iff, pure_ok_iff, himg, hattempts]
    constructor
    · rintro ⟨p, hp, _, _, _, ⟨record, hrecord, hs, hready, page', hremove, _, rfl⟩, rfl⟩
      cases hpage.symm.trans hp
      cases hdata.symm.trans hrecord
      exact ⟨page', ⟨statusCode_injective hs, hready, hremove⟩, rfl⟩
    · rintro ⟨page', ⟨hs, hready, hremove⟩, rfl⟩
      exact ⟨page, hpage, (), hown ▸ hQ, _,
        ⟨img job, hdata, congrArg statusCode hs, hready, page', hremove, hcpi, rfl⟩, rfl⟩
  · intro p q hp hq
    exact Except.ok.inj (hp.2.2.symm.trans hq.2.2)
  · intro page'
    rw [write_of_ne hne, write_self]
  · intro page' k' hk'
    exact write_skip hk' ..

theorem complete_agrees (hk : L k = some (.job job)) (hqueue : L job.queue = some (.queue queue))
    (hworker : worker ≠ defaultKey) (hdata : light.tryFromSlice args.jobData = some (img job))
    (result : Option String) (hcpi : Accepts light args payer (Compressed.finished clock (img job))) :
    Agree k (exec clock L (.completeJob ⟨job.queue, k, worker⟩ result))
      (execCompressed light args clock L
        (.completeCompressedJob ⟨job.queue, worker, payer⟩ result)) := by
  have hne : k ≠ job.queue := ne_of_accounts hk hqueue (by simp)
  apply agree_of_iff (j := Outcomes.finished clock result job)
    (G := fun _ : Unit => job.status = .processing ∧ job.worker = some worker ∧
      Outcomes.ResultFits result ∧ queue.processedCount + 1 ≤ u64Max)
    (M := fun _ => write (write L job.queue (.queue { queue with
      pendingCount := queue.pendingCount - 1
      processedCount := queue.processedCount + 1 })) k (.job (Outcomes.finished clock result job)))
    (N := fun _ => write L job.queue (.queue { queue with
      pendingCount := queue.pendingCount - 1
      processedCount := queue.processedCount + 1 }))
    (E := [.jobCompleted job.queue job.jobId worker result clock])
  · intro r
    simp only [exec, execCompleteJob, bind_ok_iff, loadQueue_ok_iff, loadJob_ok_iff, require_ok_iff,
      lift_ok_iff, Outcomes.completeJob_ok_iff, pure_ok_iff]
    constructor
    · rintro ⟨q, hq, j, hj, _, _, _, ⟨hs, hw, hf, hc, rfl⟩, rfl⟩
      cases hk.symm.trans hj
      cases hqueue.symm.trans hq
      exact ⟨(), ⟨hs, hw, hf, hc⟩, rfl⟩
    · rintro ⟨_, ⟨hs, hw, hf, hc⟩, rfl⟩
      exact ⟨queue, hqueue, job, hk, (), rfl, _, ⟨hs, hw, hf, hc, rfl⟩, rfl⟩
  · intro r
    simp only [execCompressed, bind_ok_iff, loadQueue_ok_iff, lift_ok_iff,
      completeCompressedJob_ok_iff, pure_ok_iff, img_finished]
    constructor
    · rintro ⟨q, hq, _, ⟨record, hrecord, hs, hw, hf, hc, _, rfl⟩, rfl⟩
      cases hqueue.symm.trans hq
      cases hdata.symm.trans hrecord
      exact ⟨(), ⟨statusCode_injective hs, (img_worker_iff hworker job).mp hw, hf, hc⟩, rfl⟩
    · rintro ⟨_, ⟨hs, hw, hf, hc⟩, rfl⟩
      exact ⟨queue, hqueue, _, ⟨img job, hdata, congrArg statusCode hs,
        (img_worker_iff hworker job).mpr hw, hf, hc, hcpi, rfl⟩, rfl⟩
  · exact fun _ _ _ _ => rfl
  · intro _
    rw [write_self]
  · intro _ k' hk'
    rw [write_of_ne hk']

omit [DecidableEq K] in
theorem mayFail_iff (hworker : worker ≠ defaultKey) (errorMessage : String) :
    MayFailCompressed worker (img job) errorMessage ↔ Outcomes.MayFail worker job errorMessage := by
  have hs : (img job).status = cjobProcessing ↔ job.status = .processing :=
    ⟨fun h => statusCode_injective h, fun h => congrArg statusCode h⟩
  rw [MayFailCompressed, Outcomes.MayFail, hs, img_worker_iff hworker]

omit [DefaultKey K] in
theorem failJob_exec_iff (hk : L k = some (.job job)) (hqueue : L job.queue = some (.queue queue))
    (hpage : L pageKey = some (.jobIndex page)) (hown : page.queue = job.queue)
    (errorMessage : String) (retryAfterSecs : Int64) (r : Ledger K × List (Event K)) :
    exec clock L (.failJob ⟨job.queue, k, worker, pageKey⟩ errorMessage retryAfterSecs) = .ok r ↔
      ∃ queue' job' page' event, failJob clock job.queue worker queue job page errorMessage
          retryAfterSecs = .ok (queue', job', page', event) ∧
        (write (write (write L job.queue (.queue queue')) k (.job job')) pageKey (.jobIndex page'),
          [event]) = r := by
  simp only [exec, execFailJob, bind_ok_iff, loadQueue_ok_iff, loadJob_ok_iff, loadJobIndex_ok_iff,
    require_ok_iff, lift_ok_iff, pure_ok_iff]
  constructor
  · rintro ⟨q, hq, j, hj, p, hp, _, _, _, _, _, hok, rfl⟩
    cases hk.symm.trans hj
    cases hqueue.symm.trans hq
    cases hpage.symm.trans hp
    exact ⟨_, _, _, _, hok, rfl⟩
  · rintro ⟨queue', job', page', event, hok, rfl⟩
    exact ⟨queue, hqueue, job, hk, page, hpage, (), rfl, (), hown, _, hok, rfl⟩

theorem failCompressedJob_exec_iff (hqueue : L job.queue = some (.queue queue))
    (hpage : L pageKey = some (.jobIndex page)) (hown : page.queue = job.queue)
    (errorMessage : String) (retryAfterSecs : Int64) (r : Ledger K × JobAccount K × List (Event K)) :
    execCompressed light args clock L
        (.failCompressedJob ⟨job.queue, worker, payer, pageKey⟩ errorMessage retryAfterSecs) = .ok r ↔
      ∃ queue' record page' event, failCompressedJob light args clock job.queue worker payer queue
          page errorMessage retryAfterSecs = .ok (queue', record, page', event) ∧
        (write (write L job.queue (.queue queue')) pageKey (.jobIndex page'), record, [event]) = r := by
  simp only [execCompressed, bind_ok_iff, loadQueue_ok_iff, loadJobIndex_ok_iff, require_ok_iff,
    lift_ok_iff, pure_ok_iff]
  constructor
  · rintro ⟨q, hq, p, hp, _, _, _, hok, rfl⟩
    cases hqueue.symm.trans hq
    cases hpage.symm.trans hp
    exact ⟨_, _, _, _, hok, rfl⟩
  · rintro ⟨queue', record, page', event, hok, rfl⟩
    exact ⟨queue, hqueue, page, hpage, (), hown, _, hok, rfl⟩

theorem retry_agrees (hk : L k = some (.job job)) (hqueue : L job.queue = some (.queue queue))
    (hpage : L pageKey = some (.jobIndex page)) (hown : page.queue = job.queue)
    (hworker : worker ≠ defaultKey) (hdata : light.tryFromSlice args.jobData = some (img job))
    (errorMessage : String) {retryAfterSecs : Int64} (hretry : job.attempts < job.maxRetries)
    (hcpi : Accepts light args payer (Compressed.retried clock retryAfterSecs (img job))) :
    Agree k (exec clock L (.failJob ⟨job.queue, k, worker, pageKey⟩ errorMessage retryAfterSecs))
      (execCompressed light args clock L
        (.failCompressedJob ⟨job.queue, worker, payer, pageKey⟩ errorMessage retryAfterSecs)) := by
  have hne : k ≠ pageKey := ne_of_accounts hk hpage (by simp)
  apply agree_of_iff (j := Outcomes.retried clock errorMessage retryAfterSecs job)
    (G := fun _ : Unit => Outcomes.MayFail worker job errorMessage ∧
      page.jobIds.length < maxIndexEntries)
    (M := fun _ => write (write (write L job.queue (.queue queue)) k
      (.job (Outcomes.retried clock errorMessage retryAfterSecs job))) pageKey
      (.jobIndex { page with jobIds := page.jobIds ++ [job.jobId] }))
    (N := fun _ => write (write L job.queue (.queue queue)) pageKey
      (.jobIndex { page with jobIds := page.jobIds ++ [job.jobId] }))
    (E := [.jobRetrying job.queue job.jobId job.attempts
      (clock + backoff job.attempts retryAfterSecs) errorMessage])
  · intro r
    rw [failJob_exec_iff clock hk hqueue hpage hown]
    constructor
    · rintro ⟨_, _, _, _, hok, rfl⟩
      obtain ⟨hmay, hroom, he⟩ := (Outcomes.failJob_retry_iff _ _ _ _ _ _ _ _ hretry _).mp hok
      cases he
      exact ⟨(), ⟨hmay, hroom⟩, rfl⟩
    · rintro ⟨_, ⟨hmay, hroom⟩, rfl⟩
      exact ⟨_, _, _, _,
        (Outcomes.failJob_retry_iff _ _ _ _ _ _ _ _ hretry _).mpr ⟨hmay, hroom, rfl⟩, rfl⟩
  · intro r
    rw [failCompressedJob_exec_iff clock hqueue hpage hown, img_retried]
    have hiff := failCompressedJob_retry_iff light args clock hdata job.queue worker payer queue page
      errorMessage retryAfterSecs
    constructor
    · rintro ⟨_, _, _, _, hok, rfl⟩
      obtain ⟨hmay, hroom, _, he⟩ := (hiff _ hretry).mp hok
      cases he
      exact ⟨(), ⟨(mayFail_iff hworker errorMessage).mp hmay, hroom⟩, rfl⟩
    · rintro ⟨_, ⟨hmay, hroom⟩, rfl⟩
      exact ⟨_, _, _, _, (hiff _ hretry).mpr
        ⟨(mayFail_iff hworker errorMessage).mpr hmay, hroom, hcpi, rfl⟩, rfl⟩
  · exact fun _ _ _ _ => rfl
  · intro _
    rw [write_of_ne hne, write_self]
  · intro _ k' hk'
    exact write_skip hk' ..

theorem deadLetter_agrees (hk : L k = some (.job job)) (hqueue : L job.queue = some (.queue queue))
    (hpage : L pageKey = some (.jobIndex page)) (hown : page.queue = job.queue)
    (hworker : worker ≠ defaultKey) (hdata : light.tryFromSlice args.jobData = some (img job))
    (errorMessage : String) (retryAfterSecs : Int64) (hdead : ¬job.attempts < job.maxRetries)
    (hcpi : Accepts light args payer (Compressed.deadLettered clock (img job))) :
    Agree k (exec clock L (.failJob ⟨job.queue, k, worker, pageKey⟩ errorMessage retryAfterSecs))
      (execCompressed light args clock L
        (.failCompressedJob ⟨job.queue, worker, payer, pageKey⟩ errorMessage retryAfterSecs)) := by
  have hne : k ≠ pageKey := ne_of_accounts hk hpage (by simp)
  apply agree_of_iff (j := Outcomes.deadLettered clock errorMessage job)
    (G := fun _ : Unit => Outcomes.MayFail worker job errorMessage ∧ queue.failedCount + 1 ≤ u64Max)
    (M := fun _ => write (write (write L job.queue (.queue { queue with
      pendingCount := queue.pendingCount - 1
      failedCount := queue.failedCount + 1 })) k
      (.job (Outcomes.deadLettered clock errorMessage job))) pageKey (.jobIndex page))
    (N := fun _ => write (write L job.queue (.queue { queue with
      pendingCount := queue.pendingCount - 1
      failedCount := queue.failedCount + 1 })) pageKey (.jobIndex page))
    (E := [.jobFailed job.queue job.jobId job.attempts errorMessage clock])
  · intro r
    rw [failJob_exec_iff clock hk hqueue hpage hown]
    constructor
    · rintro ⟨_, _, _, _, hok, rfl⟩
      obtain ⟨hmay, hcount, he⟩ := (Outcomes.failJob_dead_iff _ _ _ _ _ _ _ _ hdead _).mp hok
      cases he
      exact ⟨(), ⟨hmay, hcount⟩, rfl⟩
    · rintro ⟨_, ⟨hmay, hcount⟩, rfl⟩
      exact ⟨_, _, _, _,
        (Outcomes.failJob_dead_iff _ _ _ _ _ _ _ _ hdead _).mpr ⟨hmay, hcount, rfl⟩, rfl⟩
  · intro r
    rw [failCompressedJob_exec_iff clock hqueue hpage hown, img_deadLettered]
    have hiff := failCompressedJob_dead_iff light args clock hdata job.queue worker payer queue page
      errorMessage retryAfterSecs
    constructor
    · rintro ⟨_, _, _, _, hok, rfl⟩
      obtain ⟨hmay, hcount, _, he⟩ := (hiff _ hdead).mp hok
      cases he
      exact ⟨(), ⟨(mayFail_iff hworker errorMessage).mp hmay, hcount⟩, rfl⟩
    · rintro ⟨_, ⟨hmay, hcount⟩, rfl⟩
      exact ⟨_, _, _, _, (hiff _ hdead).mpr
        ⟨(mayFail_iff hworker errorMessage).mpr hmay, hcount, hcpi, rfl⟩, rfl⟩
  · exact fun _ _ _ _ => rfl
  · intro _
    rw [write_of_ne hne, write_self]
  · intro _ k' hk'
    exact write_skip hk' ..

/-- The two copies agree on every job of a reachable ledger. `hcpi`: the SDK
takes the record that the handler presents for this action, and the CPI finds
the proof valid for it. Of other records nothing is assumed. -/
theorem lifecycles_agree (hL : Reachable L) (hk : L k = some (.job job))
    (hpage : L pageKey = some (.jobIndex page)) (hown : page.queue = job.queue)
    (hworker : worker ≠ defaultKey) (hdata : light.tryFromSlice args.jobData = some (img job))
    (a : Action) (hcpi : Accepts light args payer (a.presented clock worker (img job))) :
    Agree k (exec clock L (a.standard job.queue k worker pageKey))
      (execCompressed light args clock L (a.compressed job.queue worker payer pageKey)) := by
  obtain ⟨v, hv, _⟩ := reachable_job hL hk
  have hqueue := hv.view.queueAt
  have hQ : job.queue ≠ defaultKey := by
    obtain ⟨authority, name, he⟩ := hv.isKey
    rw [he]
    exact DefaultKey.offCurve _
  cases a with
  | claim => exact claim_agrees clock hk hpage hown hQ hdata hcpi
  | complete result => exact complete_agrees clock hk hqueue hworker hdata result hcpi
  | fail errorMessage retryAfterSecs =>
    by_cases hretry : job.attempts < job.maxRetries
    · have hretried : Accepts light args payer (Compressed.retried clock retryAfterSecs (img job)) :=
        (if_pos hretry : Action.presented clock worker (img job) (.fail errorMessage retryAfterSecs) = _) ▸
          hcpi
      exact retry_agrees clock hk hqueue hpage hown hworker hdata errorMessage hretry hretried
    · have hdead : Accepts light args payer (Compressed.deadLettered clock (img job)) :=
        (if_neg hretry : Action.presented clock worker (img job) (.fail errorMessage retryAfterSecs) = _) ▸
          hcpi
      exact deadLetter_agrees clock hk hqueue hpage hown hworker hdata errorMessage retryAfterSecs
        hretry hdead

end

/-! ### The small run, compressed -/

def demoRecordArgs (a : Action) : LightArgs Key Bytes (Key × Nat) :=
  recordArgs (queueCodec "jobs") (img demoClaimed) (a.presented 4 (.wallet 1) (img demoClaimed)) [.wallet 9]

theorem demoRecord_encodable : RecordEncodable (queueCodec "jobs") (img demoClaimed) :=
  ⟨by decide, by decide, by decide, by decide, by decide, by decide, by decide⟩

/-- The claimed job, completed by its worker: both copies accept that. -/
theorem lifecycles_agree_demo :
    Agree (address (.job demoQueue 0))
        (exec 4 (ledgerAfter demoRun) ((Action.complete none).standard demoQueue
          (address (.job demoQueue 0)) (.wallet 1) (address (.index demoQueue 0))))
        (execCompressed (recordLight (queueCodec "jobs")) (demoRecordArgs (.complete none)) 4
          (ledgerAfter demoRun) ((Action.complete none).compressed demoQueue (.wallet 1) (.wallet 1)
            (address (.index demoQueue 0)))) ∧
      ∃ r, execCompressed (recordLight (queueCodec "jobs")) (demoRecordArgs (.complete none)) 4
        (ledgerAfter demoRun) ((Action.complete none).compressed demoQueue (.wallet 1) (.wallet 1)
          (address (.index demoQueue 0))) = .ok r := by
  have hpage : ledgerAfter demoRun (address (.index demoQueue 0)) =
      some (.jobIndex ⟨demoQueue, 0, 0, [1], 255⟩) := by decide
  have hread : (recordLight (queueCodec "jobs")).tryFromSlice (demoRecordArgs (.complete none)).jobData =
      some (img demoClaimed) := recordLight_reads demoRecord_encodable _ _
  have hcpi : Accepts (recordLight (queueCodec "jobs")) (demoRecordArgs (.complete none)) (.wallet 1)
      ((Action.complete none).presented 4 (.wallet 1) (img demoClaimed)) :=
    recordLight_accepts _ _ _ (List.cons_ne_nil _ _) _
  have hworker : (.wallet 1 : Key) ≠ defaultKey := by decide
  have hagree := lifecycles_agree 4 demo_reachable demo_claimed hpage rfl hworker hread _ hcpi
  exact ⟨hagree, hagree.accepted.mp ⟨_, rfl⟩⟩

end DecQueue.CompressedLifecycle
