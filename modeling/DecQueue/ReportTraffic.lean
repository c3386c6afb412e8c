import Mathlib.Data.List.ProdSigma
import DecQueue.Workers

/-! # How often reports are signed (client/fee-strategy.ts, client/worker.ts)

`send` signs a report again in every attempt, and the network may land any of
them. All the same a crew signs a bounded number of reports for a job: each
belongs to an execution, and an execution has one call of `send`. -/

namespace DecQueue.ReportTraffic
open Kit.Transition State Address Program Reachability Invariants Client Workers

variable {C K : Type}

/-- A transaction signed by `send`, with the execution it reports on. -/
structure SignedReport (C K : Type) where
  execution : Execution C K
  attempt : Nat
  deriving DecidableEq

def signed (c : C) (phase : Phase K) : List (SignedReport C K) :=
  match phase with
  | .sending call _ =>
      call.request.held.toList.map fun held => ⟨⟨c, call.job.publicKey, held⟩, call.attempt⟩
  | _ => []

def signedReports (s : Fleet C K) (e : C × WorldEvent K) : List (SignedReport C K) :=
  match e.2 with
  | .sign _ => signed e.1 (s.locals e.1).phase
  | _ => []

/-! ### What a worker still has to report -/

/-- The attempt a worker executes, or has executed and not yet reported. -/
def owed : Phase K → Option (K × Nat)
  | .executing job held _ => some (job.publicKey, held)
  | .sending call _ => call.request.held.map fun held => (call.job.publicKey, held)
  | _ => none

/-- The attempt of `send` that is signed next. -/
def nextAttempt : Phase K → Nat
  | .sending call _ => if call.progress = .unsent then call.attempt else call.attempt + 1
  | _ => 1

theorem mem_signed {c : C} {phase : Phase K} {r : SignedReport C K} :
    r ∈ signed c phase ↔ ∃ call jobs held, phase = .sending call jobs ∧
      call.request.held = some held ∧ r = ⟨⟨c, call.job.publicKey, held⟩, call.attempt⟩ := by
  cases phase with
  | sending call jobs =>
    simp only [signed, List.mem_map, Option.mem_toList]
    constructor
    · intro ⟨held, hheld, hr⟩
      exact ⟨call, jobs, held, rfl, hheld, hr.symm⟩
    · intro hparts
      obtain ⟨_, _, held, hphase, hheld, hr⟩ := hparts
      cases hphase
      exact ⟨held, hheld, hr.symm⟩
  | fetching | looping | executing =>
    constructor
    · intro h
      cases h
    · intro hparts
      obtain ⟨_, _, _, hphase, _⟩ := hparts
      cases hphase

section
variable [DecidableEq K] [AddressDerivation K] {W : Worker K} {s s' : World K} {e : WorldEvent K}

/-- An execution is owed a report from its beginning on, and the attempts of
`send` go up. -/
theorem owed_after (h : WorldStep W s e s') {a : K × Nat} (ha : owed s'.phase = some a) :
    (owed s.phase = some a ∧ nextAttempt s.phase ≤ nextAttempt s'.phase) ∨
      (e = .confirmed ∧ granted s.phase = some a ∧ nextAttempt s'.phase = 1) := by
  cases h with
  | chain | blocks | landLate | refuseLate => exact .inl ⟨ha, Nat.le_refl _⟩
  | fetchJob | sortReady | passEnds | nextJob | rejected => cases ha
  | sign hphase hunsent =>
    refine .inl ⟨hphase ▸ ha, ?_⟩
    simp only [hphase, nextAttempt, hunsent, if_true, reduceCtorEq, if_false]
    exact Nat.le_succ _
  | land hphase =>
    refine .inl ⟨hphase ▸ ha, ?_⟩
    simp only [hphase, nextAttempt, reduceCtorEq, if_false]
    split <;> omega
  | refuse hphase =>
    refine .inl ⟨hphase ▸ ha, ?_⟩
    simp only [hphase, nextAttempt, reduceCtorEq, if_false]
    split <;> omega
  | attemptFailed hphase =>
    refine .inl ⟨hphase ▸ ha, ?_⟩
    simp only [hphase, nextAttempt, Call.retry, if_true]
    split <;> omega
  | @confirmed call jobs attempts hphase hlanded =>
    obtain ⟨job, request, attempt, progress⟩ := call
    cases request with
    | claim =>
      have hprogress : progress = .landed attempts := hlanded
      rw [hphase, hprogress]
      exact .inr ⟨rfl, ha, rfl⟩
    | complete | fail => cases ha
  | @executed job held jobs outcome hphase =>
    refine .inl ⟨?_, ?_⟩
    · rw [hphase]
      cases outcome <;> exact ha
    · rw [hphase]
      exact Nat.le_refl _

theorem sign_inv {lastValidBlockHeight : Nat} (h : W.step s (.sign lastValidBlockHeight) = some s') :
    ∃ call jobs, s.phase = .sending call jobs ∧ call.progress = .unsent ∧
      call.attempt ≤ W.config.maxAttempts ∧ owed s'.phase = owed s.phase ∧
      nextAttempt s'.phase = call.attempt + 1 := by
  simp only [Worker.step] at h
  split at h
  next call jobs hphase =>
    split at h
    next hguard =>
      cases h
      refine ⟨call, jobs, hphase, hguard.1, hguard.2, ?_, ?_⟩
      · rw [hphase]
        rfl
      · simp only [nextAttempt, reduceCtorEq, if_false]
    next => cases h
  next => cases h

end

/-! ### Over a run -/

section
variable [DecidableEq C] [DecidableEq K] [AddressDerivation K] {W : Crew C K} {L : Ledger K}
  {s s' : Fleet C K} {log : List (Execution C K)} {sent : List (SignedReport C K)}
  {e : C × WorldEvent K} {A : Nat}

def reportsSent (W : Crew C K) (L : Ledger K) (es : List (C × WorldEvent K)) :
    List (SignedReport C K) :=
  outputs (step W) signedReports (start L) es

/-- The reports signed so far belong to executions of the log, each attempt of
`send` to one report. -/
structure Sent (A : Nat) (s : Fleet C K) (log : List (Execution C K))
    (sent : List (SignedReport C K)) : Prop where
  once : sent.Nodup
  past : ∀ r ∈ sent, r.execution ∈ log ∧ 1 ≤ r.attempt ∧ r.attempt ≤ A
  owner : ∀ c a, owed (s.locals c).phase = some a →
    (⟨c, a.1, a.2⟩ : Execution C K) ∈ log ∧ 1 ≤ nextAttempt (s.locals c).phase
  ahead : ∀ c a, owed (s.locals c).phase = some a → ∀ r ∈ sent, r.execution = ⟨c, a.1, a.2⟩ →
    r.attempt < nextAttempt (s.locals c).phase

omit [DecidableEq C] [DecidableEq K] [AddressDerivation K] in
theorem sent_start : Sent A (start L : Fleet C K) [] [] := ⟨List.nodup_nil, nofun, nofun, nofun⟩

omit [DecidableEq K] [AddressDerivation K] in
theorem owed_put {c : C} {w : World K} {d : C} {a : K × Nat}
    (h : owed ((s.put c w).locals d).phase = some a) :
    (d = c ∧ owed w.phase = some a ∧ ((s.put c w).locals d).phase = w.phase) ∨
      (d ≠ c ∧ owed (s.locals d).phase = some a ∧ ((s.put c w).locals d).phase = (s.locals d).phase) := by
  by_cases hd : d = c
  · subst hd
    rw [put_same] at h ⊢
    exact .inl ⟨rfl, h, rfl⟩
  · rw [put_other s w hd] at h ⊢
    exact .inr ⟨hd, h, rfl⟩

/-- What an event signs is the next attempt of the worker's own call. -/
theorem signed_inv (h : Workers.step W s e = some s') {r : SignedReport C K}
    (hr : r ∈ signedReports s e) :
    ∃ a, owed (s.locals e.1).phase = some a ∧ r.execution = ⟨e.1, a.1, a.2⟩ ∧
      r.attempt = nextAttempt (s.locals e.1).phase ∧ r.attempt ≤ (W e.1).config.maxAttempts ∧
      r.attempt < nextAttempt (s'.locals e.1).phase := by
  obtain ⟨c, e⟩ := e
  obtain ⟨w, hw, rfl⟩ := Option.map_eq_some_iff.mp h
  cases e with
  | sign lastValidBlockHeight =>
    obtain ⟨call, jobs, held, hphase, hheld, rfl⟩ := mem_signed.mp hr
    obtain ⟨call', jobs', hphase', hunsent, hle, _, hnext⟩ := sign_inv hw
    cases hphase.symm.trans hphase'
    refine ⟨(call.job.publicKey, held), ?_, rfl, ?_, hle, ?_⟩
    · rw [hphase, owed, hheld]
      rfl
    · rw [hphase, nextAttempt, if_pos hunsent]
    · rw [put_same, hnext]
      exact Nat.lt_succ_self _
  | chain | blocks | fetchJob | sortReady | nextJob | land | landLate | attemptFailed | confirmed
  | rejected | executed => cases hr

omit [DecidableEq C] [DecidableEq K] [AddressDerivation K] in
theorem signedReports_nodup (s : Fleet C K) (e : C × WorldEvent K) : (signedReports s e).Nodup := by
  obtain ⟨c, e⟩ := e
  cases e with
  | sign lastValidBlockHeight =>
    simp only [signedReports, signed]
    split
    next call jobs _ =>
      cases call.request.held with
      | none => exact List.nodup_nil
      | some held => exact List.nodup_singleton _
    next => exact List.nodup_nil
  | chain | blocks | fetchJob | sortReady | nextJob | land | landLate | attemptFailed | confirmed
  | rejected | executed => exact List.nodup_nil

theorem Sent.step (hs : Issued s log) (ht : Sent A s log sent)
    (hmax : ∀ c, (W c).config.maxAttempts ≤ A) (h : Workers.step W s e = some s') :
    Sent A s' (log ++ begun s e) (sent ++ signedReports s e) := by
  have hsigned : ∀ r ∈ signedReports s e, ∃ a, owed (s.locals e.1).phase = some a ∧
      r.execution = ⟨e.1, a.1, a.2⟩ ∧ r.attempt = nextAttempt (s.locals e.1).phase ∧
      r.attempt ≤ (W e.1).config.maxAttempts ∧ r.attempt < nextAttempt (s'.locals e.1).phase :=
    fun r hr => signed_inv h hr
  obtain ⟨w, hstep, rfl⟩ := step_inv h
  -- what is owed after the event was owed before, or its execution begins
  have howed : ∀ d a, owed ((s.put e.1 w).locals d).phase = some a →
      (owed (s.locals d).phase = some a ∧
        nextAttempt (s.locals d).phase ≤ nextAttempt ((s.put e.1 w).locals d).phase) ∨
        (⟨d, a.1, a.2⟩ ∈ begun s e ∧ granted (s.locals d).phase = some a ∧
          nextAttempt ((s.put e.1 w).locals d).phase = 1 ∧ signedReports s e = []) := by
    intro d a ha
    obtain ⟨rfl, hw, hphase⟩ | ⟨_, hd, hphase⟩ := owed_put ha
    · rw [hphase]
      obtain hbefore | ⟨hconfirmed, hgranted, hnext⟩ := owed_after hstep hw
      · exact .inl hbefore
      · refine .inr ⟨mem_begun.mpr ⟨hconfirmed, rfl, hgranted⟩, hgranted, hnext, ?_⟩
        rw [signedReports, hconfirmed]
    · rw [hphase]
      exact .inl ⟨hd, Nat.le_refl _⟩
  refine ⟨?_, ?_, ?_, ?_⟩
  · refine List.nodup_append.mpr ⟨ht.once, signedReports_nodup s e, ?_⟩
    intro r hr r' hr' he
    obtain ⟨a, ha, hx, hn, _⟩ := hsigned r' hr'
    have hlt := ht.ahead e.1 a ha r hr (he ▸ hx)
    rw [he, hn] at hlt
    exact Nat.lt_irrefl _ hlt
  · intro r hr
    obtain hr | hr := List.mem_append.mp hr
    · obtain ⟨hmem, hbounds⟩ := ht.past r hr
      exact ⟨List.mem_append_left _ hmem, hbounds⟩
    · obtain ⟨a, ha, hx, hn, hle, _⟩ := hsigned r hr
      obtain ⟨hmem, hone⟩ := ht.owner e.1 a ha
      rw [hx]
      exact ⟨List.mem_append_left _ hmem, hn ▸ hone, hle.trans (hmax e.1)⟩
  · intro d a ha
    obtain ⟨hbefore, hle⟩ | ⟨hbegun, _, hone, _⟩ := howed d a ha
    · obtain ⟨hmem, hone⟩ := ht.owner d a hbefore
      exact ⟨List.mem_append_left _ hmem, hone.trans hle⟩
    · exact ⟨List.mem_append_right _ hbegun, hone.ge⟩
  · intro d a ha r hr hx
    obtain ⟨hbefore, hle⟩ | ⟨_, hgranted, _, hnone⟩ := howed d a ha
    · obtain hr | hr := List.mem_append.mp hr
      · exact (ht.ahead d a hbefore r hr hx).trans_le hle
      · obtain ⟨_, _, hx', _, _, hlt⟩ := hsigned r hr
        have hworker : d = e.1 := congrArg Execution.worker (hx.symm.trans hx')
        rw [hworker]
        exact hlt
    · rw [hnone, List.append_nil] at hr
      obtain ⟨hmem, _⟩ := ht.past r hr
      exact absurd (List.mem_map.mpr ⟨_, hx ▸ hmem, rfl⟩) (hs.fresh d a hgranted)

theorem sent_run (hL : Reachable L) (hmax : ∀ c, (W c).config.maxAttempts ≤ A)
    {es : List (C × WorldEvent K)} (hrun : run (Workers.step W) (start L) es = some s) :
    Sent A s (executions W L es) (reportsSent W L es) := by
  apply run_history (P := fun s es => Sent A s (executions W L es) (reportsSent W L es)) sent_start _ hrun
  intro s es e s' hrun hs hstep
  rw [executions, reportsSent, outputs_snoc e hrun, outputs_snoc e hrun]
  exact hs.step (issued_run hL hrun) hmax hstep

omit [DecidableEq C] [AddressDerivation K] in
/-- At most `A` reports for each execution of a job. -/
theorem Sent.length_le (ht : Sent A s log sent) (k : K) :
    (sent.filter fun r => r.execution.job = k).length ≤ (log.filter fun x => x.job = k).length * A := by
  have hnodup : ((sent.filter fun r => r.execution.job = k).map fun r => (r.execution, r.attempt)).Nodup := by
    refine (ht.once.filter _).map ?_
    intro r r' he
    cases r
    cases r'
    cases he
    rfl
  have hsub : ((sent.filter fun r => r.execution.job = k).map fun r => (r.execution, r.attempt)) ⊆
      (log.filter fun x => x.job = k) ×ˢ List.range' 1 A := by
    intro p hp
    obtain ⟨r, hr, rfl⟩ := List.mem_map.mp hp
    obtain ⟨hr, hk⟩ := List.mem_filter.mp hr
    obtain ⟨hmem, hlow, hhigh⟩ := ht.past r hr
    refine List.mem_product.mpr ⟨List.mem_filter.mpr ⟨hmem, hk⟩, ?_⟩
    exact List.mem_range'_1.mpr ⟨hlow, by omega⟩
  have hle := (List.subperm_of_subset hnodup hsub).length_le
  rwa [List.length_map, List.length_product, List.length_range'] at hle

/-- A report is signed by a worker that has executed the attempt, and the workers
of a crew together sign at most `maxAttempts * max(1, max_retries)` reports for a
job, whatever the network does to them. -/
theorem reports_bounded (hL : Reachable L) (hmax : ∀ c, (W c).config.maxAttempts ≤ A)
    {es : List (C × WorldEvent K)} (hrun : run (Workers.step W) (start L) es = some s) :
    (∀ r ∈ reportsSent W L es, r.execution ∈ executions W L es) ∧
      ∀ k job, s.ledger k = some (.job job) →
        ((reportsSent W L es).filter fun r => r.execution.job = k).length ≤ A * max 1 job.maxRetries := by
  have hsent := sent_run hL hmax hrun
  have hissued := issued_run hL hrun
  refine ⟨fun r hr => (hsent.past r hr).1, fun k job hk => ?_⟩
  obtain ⟨_, _, hinv, _, hj⟩ := reachable_job hissued.reachable hk
  have hexecutions := hissued.length_le k
  rw [JobLife.attemptsAt_job hk] at hexecutions
  calc ((reportsSent W L es).filter fun r => r.execution.job = k).length
      ≤ ((executions W L es).filter fun x => x.job = k).length * A := hsent.length_le k
    _ ≤ max 1 job.maxRetries * A :=
        Nat.mul_le_mul_right A (hexecutions.trans (hinv.budget _ job hj).le)
    _ = A * max 1 job.maxRetries := Nat.mul_comm ..

end

/-! ### A report that is signed twice -/

/-- The first worker loses sight of its report and signs it again. -/
def demoReports : List (Bool × WorldEvent Key) :=
  demoShift ++ [(false, .executed (.ok "done")), (false, .sign 160), (false, .attemptFailed),
    (false, .sign 170)]

theorem demoReports_job :
    ((run (step demoWorkers) (start (ledgerAfter demoStart)) demoReports).map fun s =>
      s.ledger (address (.job demoQueue 0))) = some (some (.job demoClaimed)) := by decide

theorem reports_bounded_demo :
    (∀ r ∈ reportsSent demoWorkers (ledgerAfter demoStart) demoReports,
      r.execution ∈ executions demoWorkers (ledgerAfter demoStart) demoReports) ∧
    ((reportsSent demoWorkers (ledgerAfter demoStart) demoReports).filter fun r =>
      r.execution.job = address (.job demoQueue 0)).length ≤ 4 * max 1 3 := by
  obtain ⟨s, hs, hjob⟩ := Option.map_eq_some_iff.mp demoReports_job
  have hmax : ∀ c, (demoWorkers c).config.maxAttempts ≤ 4 := by decide
  have hbounded := reports_bounded (ledgerAfter_reachable demoStart_accepted) hmax hs
  exact ⟨hbounded.1, hbounded.2 _ demoClaimed hjob⟩

end DecQueue.ReportTraffic
