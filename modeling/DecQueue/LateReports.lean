import Mathlib.Data.List.Nodup
import DecQueue.Client

/-! # Reports that land late

`complete_job` and `fail_job` compare the worker key and the status, not the
attempt. A report signed for one attempt is therefore accepted on a later one,
if the same key has claimed the job again before the report lands. -/

namespace DecQueue.LateReports
open Kit.Transition State Handlers Outcomes Address Program View Refinement Reachability Invariants
  JobLife Lock Client

variable {K : Type}

/-- The attempt the worker is at, from the landing of its claim to the end of
its report. -/
def current : Phase K → Option (K × Nat)
  | .sending call _ =>
      match call.request, call.progress with
      | .complete held _, _ | .fail held _, _ => some (call.job.publicKey, held)
      | .claim, .landed attempts => some (call.job.publicKey, attempts)
      | .claim, _ => none
  | .executing job held _ => some (job.publicKey, held)
  | .fetching _ | .looping _ => none

/-- The attempt a late transaction reports, while it can still land. -/
def stillComing (blockHeight : Nat) (tx : Late K) : Option (K × Nat) :=
  if blockHeight ≤ tx.lastValidBlockHeight then tx.request.held.map fun held => (tx.job, held)
  else none

/-- The attempts of which a report may still be sent or may still land. -/
def awaited (s : World K) : List (K × Nat) :=
  (current s.phase).toList ++ s.late.filterMap (stillComing s.blockHeight)

/-- Reports take effect on the attempt they were built for, and once. -/
structure OnTime (s : World K) : Prop where
  attempt : ∀ r ∈ s.reported, r.attempts = r.held
  once : (s.reported.map fun r => (r.job, r.held)).Nodup

theorem current_sending {call : Call K} {jobs : List (JobRecord K)} {a : K × Nat} :
    current (.sending call jobs) = some a ↔ call.job.publicKey = a.1 ∧
      (call.request.held = some a.2 ∨ (call.request = .claim ∧ call.progress = .landed a.2)) := by
  obtain ⟨job, request, attempt, progress⟩ := call
  obtain ⟨k, n⟩ := a
  cases request with
  | claim => cases progress <;> simp [current, Request.held]
  | complete | fail => simp [current, Request.held]

theorem mem_outstanding {config : HybridFeeStrategyConfig} {call : Call K} {tx : Late K}
    (h : tx ∈ call.outstanding config) : tx.job = call.job.publicKey ∧ tx.request = call.request := by
  unfold Call.outstanding at h
  split at h
  · cases List.mem_singleton.mp h
    exact ⟨rfl, rfl⟩
  · cases h

theorem mem_awaited {s : World K} {a : K × Nat} :
    a ∈ awaited s ↔ current s.phase = some a ∨
      ∃ tx ∈ s.late, s.blockHeight ≤ tx.lastValidBlockHeight ∧ tx.job = a.1 ∧
        tx.request.held = some a.2 := by
  obtain ⟨k, n⟩ := a
  simp only [awaited, List.mem_append, Option.mem_toList, List.mem_filterMap,
    stillComing, Option.ite_none_right_eq_some, Option.map_eq_some_iff, Prod.mk.injEq]
  constructor
  · intro h
    obtain h | ⟨tx, htx, hvalid, held, hheld, hk, rfl⟩ := h
    · exact .inl h
    · exact .inr ⟨tx, htx, hvalid, hk, hheld⟩
  · intro h
    obtain h | ⟨tx, htx, hvalid, hk, hheld⟩ := h
    · exact .inl h
    · exact .inr ⟨tx, htx, hvalid, n, hheld, hk, rfl⟩

/-- Nothing new is awaited when no transaction joins the late ones and the
worker stays at its attempt or leaves it. -/
theorem awaited_of_subset {s s' : World K} {a : K × Nat} (ha : a ∈ awaited s')
    (hphase : current s'.phase = some a → a ∈ awaited s) (hlate : ∀ tx ∈ s'.late, tx ∈ s.late)
    (hheight : s.blockHeight ≤ s'.blockHeight) : a ∈ awaited s := by
  obtain h | ⟨tx, htx, hvalid, hrest⟩ := mem_awaited.mp ha
  · exact hphase h
  · exact mem_awaited.mpr (.inr ⟨tx, hlate tx htx, hheight.trans hvalid, hrest⟩)

variable [DecidableEq K] [AddressDerivation K]

/-- No claim with the key of the worker takes effect on a job while a report of
an earlier attempt at it may still be sent or may still land. -/
def Undisturbed (W : Worker K) (s : World K) (e : WorldEvent K) : Prop :=
  ∀ k ∈ W.claimTaken s e, k ∉ (awaited s).map Prod.fst

instance (W : Worker K) (s : World K) (e : WorldEvent K) : Decidable (Undisturbed W s e) :=
  inferInstanceAs (Decidable (∀ k ∈ W.claimTaken s e, k ∉ (awaited s).map Prod.fst))

/-! ### Attempts that are over -/

/-- The attempt `n` at the job is over: it was given back or claimed again. -/
def Spent (L : Ledger K) (k : K) (n : Nat) : Prop :=
  ∃ j, L k = some (.job j) ∧ n ≤ j.attempts ∧ (j.status = .processing → n < j.attempts)

section
variable {L L' : Ledger K} {k : K} {n : Nat} {tx : Tx K}

theorem spent_step (hL : Reachable L) (hspent : Spent L k n) (h : step L tx = some L') :
    Spent L' k n := by
  obtain ⟨j, hk, hle, hlt⟩ := hspent
  obtain ⟨_, _, hinv, _, hj⟩ := reachable_job hL hk
  have hb := hinv.budget _ j hj
  obtain ⟨_, j', _, hk', hs⟩ := job_step (reachable_wellFormed hL) hk h
  refine ⟨j', hk', ?_⟩
  generalize tx.ix = ix at hs
  cases hs with
  | other => exact ⟨hle, hlt⟩
  | claim worker =>
    rw [hb.locked_attempts tx.clock worker]
    omega
  | complete | retry | deadLetter | cancel => exact ⟨hle, nofun⟩

/-- A report is accepted from the worker that holds the job, and ends its attempt. -/
theorem report_accepted {W : Worker K} {clock : Int64} {request : Request} (hL : WellFormed L)
    (hreport : request.held = some n) (h : step L ⟨clock, W.instruction k request⟩ = some L') :
    Held L k W.key ∧ Spent L' k (attemptsAt L k) := by
  have hwork : worksOn (W.instruction k request) = some k := by
    cases request <;> rfl
  obtain ⟨j, hk⟩ := exists_of_worksOn hL h hwork
  obtain ⟨_, j', _, hk', hs⟩ := job_step hL hk h
  rw [attemptsAt_job hk]
  cases request with
  | claim => cases hreport
  | complete held result =>
    simp only [Worker.instruction] at hs
    generalize W.queuePda = queue, W.key = w at hs ⊢
    cases hs with
    | other hne => exact absurd rfl hne
    | complete _ _ hstatus hworker => exact ⟨⟨j, hk, hstatus, hworker⟩, _, hk', le_rfl, nofun⟩
  | fail held errorMessage =>
    simp only [Worker.instruction] at hs
    generalize address (.index W.queuePda 0) = page at hs
    generalize W.queuePda = queue, W.key = w at hs ⊢
    cases hs with
    | other hne => exact absurd rfl hne
    | retry _ _ _ _ hmay => exact ⟨⟨j, hk, hmay.1, hmay.2.1⟩, _, hk', le_rfl, nofun⟩
    | deadLetter _ _ _ _ hmay => exact ⟨⟨j, hk, hmay.1, hmay.2.1⟩, _, hk', le_rfl, nofun⟩

end

/-! ### One event -/

variable {W : Worker K} {s s' : World K} {e : WorldEvent K} {k : K} {n : Nat}

theorem spent_after (h : WorldStep W s e s') (hL : Reachable s.ledger)
    (hspent : Spent s.ledger k n) : Spent s'.ledger k n := by
  obtain he | ⟨tx, hstep, _⟩ := h.ledger
  · rw [he]
    exact hspent
  · exact spent_step hL hspent hstep

/-- What becomes awaited in an event is the attempt a claim has just begun. -/
theorem awaited_after (h : WorldStep W s e s') (ha : (k, n) ∈ awaited s') :
    (k, n) ∈ awaited s ∨ attemptsAt s'.ledger k = n := by
  cases h with
  | chain => exact .inl ha
  | blocks m =>
    exact .inl (awaited_of_subset ha (fun hc => mem_awaited.mpr (.inl hc)) (fun _ htx => htx)
      (Nat.le_add_right ..))
  | fetchJob | sortReady | passEnds | nextJob | rejected =>
    exact .inl (awaited_of_subset ha nofun (fun _ htx => htx) le_rfl)
  | sign hphase hunsent =>
    refine .inl (awaited_of_subset ha (fun hc => ?_) (fun _ htx => htx) le_rfl)
    obtain ⟨hk, hheld | ⟨_, hlanded⟩⟩ := current_sending.mp hc
    · exact mem_awaited.mpr (.inl (hphase ▸ current_sending.mpr ⟨hk, .inl hheld⟩))
    · cases hlanded
  | @land call jobs clock L hphase hstep =>
    obtain hc | hlate := mem_awaited.mp ha
    · obtain ⟨hk, hheld | ⟨_, hlanded⟩⟩ := current_sending.mp hc
      · exact .inl (mem_awaited.mpr (.inl (hphase ▸ current_sending.mpr ⟨hk, .inl hheld⟩)))
      · cases hlanded
        exact .inr (congrArg (attemptsAt L) hk.symm)
    · exact .inl (mem_awaited.mpr (.inr hlate))
  | refuse hphase hflight =>
    refine .inl (awaited_of_subset ha (fun hc => ?_) (fun _ htx => htx) le_rfl)
    obtain ⟨hk, hheld | ⟨_, hlanded⟩⟩ := current_sending.mp hc
    · exact mem_awaited.mpr (.inl (hphase ▸ current_sending.mpr ⟨hk, .inl hheld⟩))
    · cases hlanded
  | landLate | refuseLate =>
    exact .inl (awaited_of_subset ha (fun hc => mem_awaited.mpr (.inl hc))
      (fun _ htx => List.mem_of_mem_eraseIdx htx) le_rfl)
  | @attemptFailed call jobs hphase =>
    have hreport : ∀ a : K × Nat, call.job.publicKey = a.1 → call.request.held = some a.2 →
        a ∈ awaited s := by
      intro a hk hheld
      exact mem_awaited.mpr (.inl (hphase ▸ current_sending.mpr ⟨hk, .inl hheld⟩))
    obtain hc | ⟨tx, htx, hvalid, hk, hheld⟩ := mem_awaited.mp ha
    · obtain ⟨hk, hheld | ⟨_, hlanded⟩⟩ := current_sending.mp hc
      · exact .inl (hreport _ hk hheld)
      · cases hlanded
    · obtain hold | hnew := List.mem_append.mp htx
      · exact .inl (mem_awaited.mpr (.inr ⟨tx, hold, hvalid, hk, hheld⟩))
      · -- the transaction of the failed attempt sends the request of the call
        obtain ⟨hjob, hrequest⟩ := mem_outstanding hnew
        exact .inl (hreport _ (hjob.symm.trans hk) (hrequest ▸ hheld))
  | @confirmed call jobs attempts hphase hlanded =>
    refine .inl (awaited_of_subset ha (fun hc => ?_) (fun _ htx => htx) le_rfl)
    obtain ⟨job, request, attempt, progress⟩ := call
    cases request with
    | claim =>
      cases hc
      exact mem_awaited.mpr (.inl (hphase ▸ current_sending.mpr ⟨rfl, .inr ⟨rfl, hlanded⟩⟩))
    | complete | fail => cases hc
  | @executed job held jobs outcome hphase =>
    refine .inl (awaited_of_subset ha (fun hc => mem_awaited.mpr (.inl ?_)) (fun _ htx => htx) le_rfl)
    rw [hphase]
    cases outcome <;> exact hc

theorem reported_after (h : WorldStep W s e s') (hL : Reachable s.ledger) :
    s'.reported = s.reported ∨ ∃ k n,
      s'.reported = s.reported ++ [⟨k, n, attemptsAt s.ledger k⟩] ∧ (k, n) ∈ awaited s ∧
        Held s.ledger k W.key ∧ Spent s'.ledger k (attemptsAt s.ledger k) := by
  have hwf := reachable_wellFormed hL
  cases h with
  | @land call jobs clock L hphase hstep =>
    cases hheld : call.request.held with
    | none => exact .inl (by simp only [World.accept, hheld])
    | some held =>
      obtain ⟨hbefore, hspent⟩ := report_accepted hwf hheld hstep
      refine .inr ⟨call.job.publicKey, held, by simp only [World.accept, hheld], ?_, hbefore, hspent⟩
      exact mem_awaited.mpr (.inl (hphase ▸ current_sending.mpr ⟨rfl, .inl hheld⟩))
  | @landLate i tx clock L htx hvalid hstep =>
    cases hheld : tx.request.held with
    | none => exact .inl (by simp only [World.accept, hheld])
    | some held =>
      obtain ⟨hbefore, hspent⟩ := report_accepted hwf hheld hstep
      refine .inr ⟨tx.job, held, by simp only [World.accept, hheld], ?_, hbefore, hspent⟩
      exact mem_awaited.mpr (.inr ⟨tx, List.mem_of_getElem? htx, hvalid, rfl, hheld⟩)
  | chain | blocks | fetchJob | sortReady | passEnds | nextJob | sign | refuse | refuseLate
  | attemptFailed | confirmed | rejected | executed => exact .inl rfl

/-! ### Runs -/

structure Timely (W : Worker K) (s : World K) : Prop where
  reachable : Reachable s.ledger
  counter : ∀ k n, (k, n) ∈ awaited s → Held s.ledger k W.key → attemptsAt s.ledger k = n
  spent : ∀ r ∈ s.reported, Spent s.ledger r.job r.held
  onTime : OnTime s

theorem timely_start {L : Ledger K} (hL : Reachable L) : Timely W (start L) :=
  ⟨hL, nofun, nofun, nofun, List.nodup_nil⟩

theorem Timely.step (hs : Timely W s) (hcond : Undisturbed W s e) (h : W.step s e = some s') :
    Timely W s' := by
  have hstep := worldStep_of_step h
  have hcount : ∀ k n, (k, n) ∈ awaited s' → Held s'.ledger k W.key →
      attemptsAt s'.ledger k = n := by
    intro k n ha hheld
    obtain hold | hnew := awaited_after hstep ha
    · obtain ⟨hbefore, hsame⟩ | htaken := hstep.held hs.reachable hheld
      · rw [hsame]
        exact hs.counter k n hold hbefore
      · exact absurd (List.mem_map_of_mem hold) (hcond k htaken)
    · exact hnew
  have hspent : ∀ r ∈ s.reported, Spent s'.ledger r.job r.held := by
    intro r hr
    exact spent_after hstep hs.reachable (hs.spent r hr)
  obtain hsame | ⟨k, n, hadd, ha, hheld, hend⟩ := reported_after hstep hs.reachable
  · refine ⟨reachable_ledger hs.reachable (run_singleton.mpr h), hcount, ?_, ?_⟩
    · rw [hsame]
      exact hspent
    · exact ⟨hsame ▸ hs.onTime.attempt, hsame ▸ hs.onTime.once⟩
  · have hn := hs.counter k n ha hheld
    -- an attempt that is over is not held
    have hfresh : (k, n) ∉ s.reported.map fun r => (r.job, r.held) := by
      intro hmem
      obtain ⟨r, hr, he⟩ := List.mem_map.mp hmem
      obtain ⟨rfl, rfl⟩ := Prod.mk.inj he
      obtain ⟨j, hk, _, hlt⟩ := hs.spent r hr
      obtain ⟨j', hk', hstatus, _⟩ := hheld
      cases hk.symm.trans hk'
      rw [attemptsAt_job hk] at hn
      have := hlt hstatus
      omega
    refine ⟨reachable_ledger hs.reachable (run_singleton.mpr h), hcount, ?_, ?_, ?_⟩
    · rw [hadd, List.forall_mem_append, List.forall_mem_singleton]
      exact ⟨hspent, hn ▸ hend⟩
    · rw [hadd, List.forall_mem_append, List.forall_mem_singleton]
      exact ⟨hs.onTime.attempt, hn⟩
    · rw [hadd, List.map_append, List.map_singleton, ← List.concat_eq_append]
      exact List.Nodup.concat hfresh hs.onTime.once

theorem reports_on_time {L : Ledger K} (hL : Reachable L) {es : List (WorldEvent K)}
    (hrun : run W.step (start L) es = some s)
    (hcond : Meets W.step (Undisturbed W) (start L) es) : OnTime s := by
  have hs := run_meets (P := Timely W) (fun _ _ _ hP hC h => hP.step hC h) (timely_start hL) hcond hrun
  exact hs.onTime

/-! ### Two runs

The first attempt to report the failure is itself reported as failed, the
second one is confirmed. -/

def demoFail : List (WorldEvent Key) :=
  demoTakeUp ++ [.sign 150, .land 3, .confirmed, .executed (.error "timeout"), .sign 150,
    .attemptFailed, .sign 152, .land 6, .confirmed]

theorem reports_on_time_demo :
    ∃ s, run demoWorker.step (start (ledgerAfter demoStart)) (demoFail ++ [.landLate 0 7]) = some s ∧
      s.reported = [⟨address (.job demoQueue 0), 1, 1⟩] ∧ OnTime s := by
  have hrun : (run demoWorker.step (start (ledgerAfter demoStart))
      (demoFail ++ [.landLate 0 7])).map World.reported =
        some [⟨address (.job demoQueue 0), 1, 1⟩] := by decide
  obtain ⟨s, hs, hreported⟩ := Option.map_eq_some_iff.mp hrun
  exact ⟨s, hs, hreported,
    reports_on_time (ledgerAfter_reachable demoStart_accepted) hs (by decide)⟩

def demoRetried : JobRecord Key :=
  ⟨address (.job demoQueue 0),
    ⟨demoQueue, 0, "email", [], .pending, 1, 1, 36, 1, 3, none, none, none, none, some "timeout", 255⟩⟩

def demoAgain : List (WorldEvent Key) :=
  demoFail ++ [.nextJob, .blocks 90, .fetchJob 0, .sortReady 40 [demoRetried], .nextJob, .sign 240,
    .land 41, .confirmed, .landLate 0 42]

/-- The report built for the first attempt fails the second one. -/
theorem late_report :
    ∃ s, run demoWorker.step (start (ledgerAfter demoStart)) demoAgain = some s ∧
      s.reported = [⟨address (.job demoQueue 0), 1, 1⟩, ⟨address (.job demoQueue 0), 1, 2⟩] ∧
      ¬OnTime s := by
  have hrun : (run demoWorker.step (start (ledgerAfter demoStart)) demoAgain).map World.reported =
      some [⟨address (.job demoQueue 0), 1, 1⟩, ⟨address (.job demoQueue 0), 1, 2⟩] := by decide
  obtain ⟨s, hs, hreported⟩ := Option.map_eq_some_iff.mp hrun
  refine ⟨s, hs, hreported, fun h => ?_⟩
  have hattempt := h.attempt ⟨address (.job demoQueue 0), 1, 2⟩ (by rw [hreported]; decide)
  cases hattempt

end DecQueue.LateReports
