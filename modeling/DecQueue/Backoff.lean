import DecQueue.Invariants

/-! # The delay before a retry

`fail_job` computes `execute_after` from three operations that treat overflow
in three ways: `checked_shl` fails, `saturating_mul` stops at the limit, and
the plain `+` wraps. The bounds on attempts keep the shift exact on every
reachable ledger; the sum is exact as long as it does not pass the limit. -/

namespace DecQueue.Backoff
open Kit.Fallible State Handlers Outcomes Address Program View Refinement Reachability Invariants

/-! ### The operations over the integers -/

def i64Max : Int := 9223372036854775807

theorem checkedShl_one {n : Nat} (h : n < 63) :
    (checkedShl 1 n).map Int64.toInt = some ((2 ^ n : Nat) : Int) := by
  revert n
  decide

theorem toInt_bounds (a : Int64) : -i64Max - 1 ≤ a.toInt ∧ a.toInt ≤ i64Max :=
  ⟨a.minValue_le_toInt, a.toInt_le⟩

theorem toInt_saturatingMul (a b : Int64) :
    (saturatingMul a b).toInt = max (-i64Max - 1) (min i64Max (a.toInt * b.toInt)) := by
  have hmin : Int64.minValue.toInt = -i64Max - 1 := by decide
  have hmax : Int64.maxValue.toInt = i64Max := by decide
  rw [saturatingMul, hmin, hmax]
  have hlimit : i64Max = 9223372036854775807 := rfl
  exact Int64.toInt_ofInt_of_le (by omega) (by omega)

theorem toInt_add_of_nonneg {a b : Int64} (ha : 0 ≤ a.toInt) (hb : 0 ≤ b.toInt) :
    (a + b).toInt = if a.toInt + b.toInt ≤ i64Max then a.toInt + b.toInt
      else a.toInt + b.toInt - 18446744073709551616 := by
  have hlimit : i64Max = 9223372036854775807 := rfl
  have ha' := (toInt_bounds a).2
  have hb' := (toInt_bounds b).2
  rw [Int64.toInt_add, Int.bmod_def]
  split <;> split <;> omega

/-- The seconds that `fail_job` adds to the clock, for a delay that is not negative. -/
theorem toInt_backoff {attempts : Nat} {retryAfterSecs : Int64} (ha : attempts - 1 < 63)
    (hr : 0 ≤ retryAfterSecs.toInt) :
    (backoff attempts retryAfterSecs).toInt =
      min (retryAfterSecs.toInt * (2 ^ (attempts - 1) : Nat)) i64Max := by
  obtain ⟨m, hm, hpow⟩ := Option.map_eq_some_iff.mp (checkedShl_one ha)
  have hprod : 0 ≤ retryAfterSecs.toInt * ((2 ^ (attempts - 1) : Nat) : Int) :=
    Int.mul_nonneg hr (Int.natCast_nonneg _)
  have hlimit : i64Max = 9223372036854775807 := rfl
  rw [backoff, hm, Option.getD_some, toInt_saturatingMul, hpow]
  omega

/-- The law: the sum over the integers, up to the largest timestamp. -/
def dueAt (clock retryAfterSecs : Int) (attempts : Nat) : Int :=
  min (clock + retryAfterSecs * (2 ^ (attempts - 1) : Nat)) i64Max

/-- The sum does not pass the limit, or the clock adds nothing to it. -/
def InRange (clock retryAfterSecs : Int) (attempts : Nat) : Prop :=
  clock = 0 ∨ clock + retryAfterSecs * (2 ^ (attempts - 1) : Nat) ≤ i64Max

theorem toInt_due_iff {clock retryAfterSecs : Int64} {attempts : Nat} (ha : attempts - 1 < 63)
    (hclock : 0 ≤ clock.toInt) (hr : 0 ≤ retryAfterSecs.toInt) :
    (clock + backoff attempts retryAfterSecs).toInt =
        dueAt clock.toInt retryAfterSecs.toInt attempts ↔
      InRange clock.toInt retryAfterSecs.toInt attempts := by
  have hback := toInt_backoff ha hr
  have hprod : 0 ≤ retryAfterSecs.toInt * ((2 ^ (attempts - 1) : Nat) : Int) :=
    Int.mul_nonneg hr (Int.natCast_nonneg _)
  have hlimit : i64Max = 9223372036854775807 := rfl
  have hmax := (toInt_bounds clock).2
  rw [toInt_add_of_nonneg hclock (by omega), hback]
  unfold dueAt InRange
  generalize retryAfterSecs.toInt * ((2 ^ (attempts - 1) : Nat) : Int) = delay at hprod ⊢
  split <;> omega

/-! ### The call that schedules a retry -/

variable {K : Type}

/-- The worker of a job reports a failure while attempts remain, and names a
page of the queue with room. -/
structure RetryCall (L : Ledger K) (ctx : FailJob K) (errorMessage : String) (job : Job K)
    (page : JobIndex K) : Prop where
  jobAt : L ctx.job = some (.job job)
  pageAt : L ctx.retryIndexPage = some (.jobIndex page)
  queue : ctx.queue = job.queue
  status : job.status = .processing
  worker : job.worker = some ctx.worker
  remaining : job.attempts < job.maxRetries
  message : errorMessage.utf8ByteSize ≤ 128
  pageQueue : page.queue = job.queue
  room : page.jobIds.length < maxIndexEntries

section
variable [AddressDerivation K] [DecidableEq K] {L : Ledger K} {ctx : FailJob K} {errorMessage : String}
  {job : Job K} {page : JobIndex K}

theorem RetryCall.attempts (hL : Program.Reachable L) (h : RetryCall L ctx errorMessage job page) :
    1 ≤ job.attempts ∧ job.attempts ≤ 10 := by
  obtain ⟨v, i, hv, _, hji⟩ := (reachable_wellFormed hL).job h.jobAt
  have hbudget := (reachable_inv hL hv).budget i job hji
  have hfit := hbudget.fit
  simp only [AttemptsFit, h.status] at hfit
  exact ⟨hfit.1, hbudget.small⟩

/-- The call is accepted and leaves the record `retried`. -/
theorem RetryCall.accepted (hL : Program.Reachable L) (h : RetryCall L ctx errorMessage job page)
    (clock retryAfterSecs : Int64) :
    ∃ L' evs, exec clock L (.failJob ctx errorMessage retryAfterSecs) = .ok (L', evs) ∧
      L' ctx.job = some (.job (retried clock errorMessage retryAfterSecs job)) := by
  obtain ⟨v, i, hv, _, _⟩ := (reachable_wellFormed hL).job h.jobAt
  have hqueue : L ctx.queue = some (.queue v.queue) := h.queue ▸ hv.view.queueAt
  have hpage : ctx.job ≠ ctx.retryIndexPage := by
    intro he
    have hsame := h.jobAt.symm.trans (he ▸ h.pageAt)
    cases hsame
  have hmay : MayFail ctx.worker job errorMessage := ⟨h.status, h.worker, h.message⟩
  have hexec : exec clock L (.failJob ctx errorMessage retryAfterSecs) =
      .ok (write (write (write L ctx.queue (.queue v.queue)) ctx.job
        (.job (retried clock errorMessage retryAfterSecs job))) ctx.retryIndexPage
        (.jobIndex { page with jobIds := page.jobIds ++ [job.jobId] }),
        [.jobRetrying ctx.queue job.jobId job.attempts (clock + backoff job.attempts retryAfterSecs)
          errorMessage]) := by
    simp only [exec, execFailJob, bind_ok_iff, loadQueue_ok_iff, loadJob_ok_iff, loadJobIndex_ok_iff,
      require_ok_iff, lift_ok_iff]
    exact ⟨_, hqueue, _, h.jobAt, _, h.pageAt, (), h.queue.symm, (), h.pageQueue, _,
      (failJob_retry_iff _ _ _ _ _ _ _ _ h.remaining _).mpr ⟨hmay, h.room, rfl⟩, rfl⟩
  refine ⟨_, _, hexec, ?_⟩
  rw [write_of_ne hpage, write_self]

/-- A retry is always accepted and its multiplier exact. What it stores is the
law exactly when the sum is in range; then the job is not due earlier than
now, and no claim before that time succeeds. -/
theorem retry_backoff_iff (hL : Program.Reachable L) (h : RetryCall L ctx errorMessage job page)
    (clock retryAfterSecs : Int64) (hclock : 0 ≤ clock.toInt) (hr : 0 ≤ retryAfterSecs.toInt) :
    (checkedShl 1 (job.attempts - 1)).map Int64.toInt = some ((2 ^ (job.attempts - 1) : Nat) : Int) ∧
      ∃ L' evs job', exec clock L (.failJob ctx errorMessage retryAfterSecs) = .ok (L', evs) ∧
        L' ctx.job = some (.job job') ∧
        (job'.executeAfter.toInt = dueAt clock.toInt retryAfterSecs.toInt job.attempts ↔
          InRange clock.toInt retryAfterSecs.toInt job.attempts) ∧
        (InRange clock.toInt retryAfterSecs.toInt job.attempts → clock ≤ job'.executeAfter ∧
          ∀ clock' worker page' r, claimJob clock' worker job' page' = .ok r →
            dueAt clock.toInt retryAfterSecs.toInt job.attempts ≤ clock'.toInt) := by
  obtain ⟨_, hle⟩ := h.attempts hL
  have hshift : job.attempts - 1 < 63 := by omega
  have hdue := toInt_due_iff hshift hclock hr
  obtain ⟨L', evs, hexec, hjob⟩ := h.accepted hL clock retryAfterSecs
  refine ⟨checkedShl_one hshift, L', evs, _, hexec, hjob, hdue, fun hrange => ⟨?_, ?_⟩⟩
  · have hprod : 0 ≤ retryAfterSecs.toInt * ((2 ^ (job.attempts - 1) : Nat) : Int) :=
      Int.mul_nonneg hr (Int.natCast_nonneg _)
    have hmax := (toInt_bounds clock).2
    rw [Int64.le_iff_toInt_le]
    show clock.toInt ≤ (clock + backoff job.attempts retryAfterSecs).toInt
    rw [hdue.mpr hrange]
    unfold dueAt
    omega
  · intro clock' worker page' r hclaim
    have hready := ((claimJob_ok_iff clock' worker _ page' r).mp hclaim).2.1
    rw [Int64.le_iff_toInt_le] at hready
    rw [← hdue.mpr hrange]
    exact hready

end

/-! ### A delay at the limit -/

def demoFail : FailJob Key :=
  ⟨demoQueue, address (.job demoQueue 0), .wallet 1, address (.index demoQueue 0)⟩

def demoPage : JobIndex Key := ⟨demoQueue, 0, 0, [1], 255⟩

theorem demo_retryCall : RetryCall (ledgerAfter demoRun) demoFail "timeout" demoClaimed demoPage where
  jobAt := by decide
  pageAt := by decide
  queue := by decide
  status := by decide
  worker := by decide
  remaining := by decide
  message := by decide
  pageQueue := by decide
  room := by decide

/-- Thirty seconds after the first attempt. -/
theorem retry_backoff_iff_demo : ∃ L' evs job',
    exec 4 (ledgerAfter demoRun) (.failJob demoFail "timeout" 30) = .ok (L', evs) ∧
      L' (address (.job demoQueue 0)) = some (.job job') ∧ job'.executeAfter.toInt = 34 := by
  obtain ⟨_, L', evs, job', hexec, hjob, hdue, _⟩ :=
    retry_backoff_iff demo_reachable demo_retryCall 4 30 (by decide) (by decide)
  exact ⟨L', evs, job', hexec, hjob, hdue.mpr (.inr (by decide))⟩

/-- With the largest delay the sum wraps: the job is due at once and claimed
again in the same second. -/
theorem retry_wraps :
    RetryCall (ledgerAfter demoRun) demoFail "timeout" demoClaimed demoPage ∧
      (retried 4 "timeout" Int64.maxValue demoClaimed).executeAfter < 0 ∧
      dueAt 4 Int64.maxValue.toInt demoClaimed.attempts = i64Max ∧
      (Kit.Transition.run step genesis (demoRun ++
        [⟨4, failAt demoQueue (.wallet 1) 0 0 "timeout" Int64.maxValue⟩,
          ⟨4, claimAt demoQueue (.wallet 2) 0 0⟩])).isSome = true :=
  ⟨demo_retryCall, by decide, by decide, by decide⟩

end DecQueue.Backoff
