import DecQueue.Lock

/-! # A worker and the ledger (client/worker.ts, client/fee-strategy.ts)

One worker process on the standard path, next to everybody else. A pass of
`processReadyJobs` reads jobs, orders the ready ones and takes them one by
one: claim, execute, report. Each of the three `…WithStrategy` functions is a
call of `HybridFeeStrategy.send`, which signs the same instruction again in
every attempt. What the ledger does with a signed transaction and what the
worker is told about it are separate events: an attempt can be reported as
failed while its transaction is still in flight, or after it took effect. Such
a transaction lands later or never, but not after its blockhash has expired.

Left out: the amount of the fee bid, the backoff delays, the log lines, and
where `getReadyJobIds` looks for the ids; any jobs of the queue may be read. A
bid that cannot be encoded makes `send` throw before an attempt is signed. -/

namespace DecQueue.Client
open Kit.Transition State Address Program Refinement Reachability JobLife Lock

/-! ### HybridFeeStrategy -/

inductive FeeMode where
  | standard | jito | auto
  deriving DecidableEq, Repr

structure HybridFeeStrategyConfig where
  mode : FeeMode
  skipJitoTipOnLowPriorityRetry : Bool
  maxAttempts : Nat

def defaultHybridFeeConfig : HybridFeeStrategyConfig := ⟨.auto, true, 4⟩

def useJito (config : HybridFeeStrategyConfig) (jobPriority attempt : Nat) : Bool :=
  let isHighPriority := decide (2 ≤ jobPriority)
  let isJitoAttempt := config.mode == .jito || (config.mode == .auto && attempt == 1)
  let skipJitoForPriority :=
    config.skipJitoTipOnLowPriorityRetry && !isHighPriority && decide (1 < attempt)
  isJitoAttempt && !skipJitoForPriority

def modeUsed (config : HybridFeeStrategyConfig) (jobPriority attempt : Nat) : FeeMode :=
  if useJito config jobPriority attempt then .jito else .standard

/-! ### The worker -/

structure JobRecord (K : Type) where
  publicKey : K
  account : Job K
  deriving DecidableEq

/-- What is sent for a job. A report carries the attempt the worker held when
it built the report; the program never sees that number. -/
inductive Request where
  | claim
  | complete (held : Nat) (result : String)
  | fail (held : Nat) (errorMessage : String)
  deriving DecidableEq

def Request.held : Request → Option Nat
  | .claim => none
  | .complete held _ => some held
  | .fail held _ => some held

structure Worker (K : Type) where
  key : K
  queuePda : K
  retryAfterSecs : Int64
  config : HybridFeeStrategyConfig

/-- The attempt in progress inside `send`. -/
inductive Progress where
  | unsent
  | inFlight (lastValidBlockHeight : Nat)
  /-- it took effect and left the job with this attempt counter -/
  | landed (attempts : Nat)
  | refused
  deriving DecidableEq

/-- A call of `send`: `attempt` is the loop variable. -/
structure Call (K : Type) where
  job : JobRecord K
  request : Request
  attempt : Nat
  progress : Progress

/-- A transaction whose attempt was reported as failed. -/
structure Late (K : Type) where
  job : K
  request : Request
  modeUsed : FeeMode
  lastValidBlockHeight : Nat

inductive Phase (K : Type) where
  | fetching (jobs : List (JobRecord K))
  | looping (jobs : List (JobRecord K))
  | sending (call : Call K) (jobs : List (JobRecord K))
  | executing (job : JobRecord K) (held : Nat) (jobs : List (JobRecord K))

/-- A report that took effect, with the attempt counter it found. -/
structure Report (K : Type) where
  job : K
  held : Nat
  attempts : Nat
  deriving DecidableEq

structure World (K : Type) where
  ledger : Ledger K
  blockHeight : Nat
  phase : Phase K
  late : List (Late K)
  /-- jobs passed over by `continue` and not taken up again -/
  skipped : List K
  reported : List (Report K)

inductive WorldEvent (K : Type) where
  /-- a transaction of somebody else -/
  | chain (tx : Tx K)
  | blocks (n : Nat)
  | fetchJob (id : Nat)
  | sortReady (now : Int64) (jobs : List (JobRecord K))
  | nextJob
  | sign (lastValidBlockHeight : Nat)
  | land (clock : Int64)
  | landLate (i : Nat) (clock : Int64)
  | attemptFailed
  | confirmed
  | rejected
  | executed (outcome : Except String String)

section
variable {K : Type}

def JobRecord.ready (now : Int64) (job : JobRecord K) : Bool :=
  decide (job.account.status = .pending ∧ job.account.executeAfter ≤ now)

def report (held : Nat) : Except String String → Request
  | .ok result => .complete held result
  | .error errorMessage => .fail held errorMessage

/-- The call after an attempt that was reported as failed. -/
def Call.retry (call : Call K) : Call K :=
  { call with attempt := call.attempt + 1, progress := .unsent }

/-- What a failed attempt leaves behind in the network. -/
def Call.outstanding (config : HybridFeeStrategyConfig) (call : Call K) : List (Late K) :=
  match call.progress with
  | .inFlight lastValidBlockHeight =>
      [⟨call.job.publicKey, call.request,
        modeUsed config call.job.account.priority call.attempt, lastValidBlockHeight⟩]
  | _ => []

/-- After `send` has returned: a claimed job is executed, a report ends the turn. -/
def Call.returned (call : Call K) (attempts : Nat) (jobs : List (JobRecord K)) : Phase K :=
  match call.request with
  | .claim => .executing call.job attempts jobs
  | _ => .looping jobs

variable [DecidableEq K]

/-- `send` throws: a failed claim skips the job, a failed report is only logged. -/
def World.giveUp (s : World K) (call : Call K) (jobs : List (JobRecord K)) : World K :=
  { s with
    phase := .looping jobs
    skipped := if call.request = .claim then call.job.publicKey :: s.skipped else s.skipped }

def World.takeUp (s : World K) (job : JobRecord K) (jobs : List (JobRecord K)) : World K :=
  { s with
    phase := .sending ⟨job, .claim, 1, .unsent⟩ jobs
    skipped := s.skipped.filter fun k => k ≠ job.publicKey }

def World.accept (s : World K) (job : K) (request : Request) (L : Ledger K) : World K :=
  { s with
    ledger := L
    reported := match request.held with
      | some held => s.reported ++ [⟨job, held, attemptsAt s.ledger job⟩]
      | none => s.reported }

variable [AddressDerivation K]

/-- Both index pages are the first one: the worker sets `indexPageSeq = 0`. -/
def Worker.instruction (W : Worker K) (job : K) : Request → Instruction K
  | .claim => .claimJob ⟨job, W.key, address (.index W.queuePda 0)⟩
  | .complete _ result => .completeJob ⟨W.queuePda, job, W.key⟩ (some result)
  | .fail _ errorMessage =>
      .failJob ⟨W.queuePda, job, W.key, address (.index W.queuePda 0)⟩ errorMessage W.retryAfterSecs

def Worker.step (W : Worker K) (s : World K) : WorldEvent K → Option (World K)
  | .chain tx => (Program.step s.ledger tx).map fun L => { s with ledger := L }
  | .blocks n => some { s with blockHeight := s.blockHeight + n }
  | .fetchJob id =>
      match s.phase, s.ledger (address (.job W.queuePda id)) with
      | .fetching jobs, some (.job account) =>
          some { s with phase := .fetching (jobs ++ [⟨address (.job W.queuePda id), account⟩]) }
      | _, _ => none
  | .sortReady now jobs =>
      match s.phase with
      | .fetching fetched =>
          if jobs.Perm (fetched.filter (JobRecord.ready now)) then
            some { s with phase := .looping jobs }
          else none
      | _ => none
  | .nextJob =>
      match s.phase with
      | .looping [] => some { s with phase := .fetching [] }
      | .looping (job :: jobs) => some (s.takeUp job jobs)
      | _ => none
  | .sign lastValidBlockHeight =>
      match s.phase with
      | .sending call jobs =>
          if call.progress = .unsent ∧ call.attempt ≤ W.config.maxAttempts then
            some { s with
              phase := .sending { call with progress := .inFlight lastValidBlockHeight } jobs }
          else none
      | _ => none
  | .land clock =>
      match s.phase with
      | .sending call jobs =>
          match call.progress with
          | .inFlight lastValidBlockHeight =>
              if s.blockHeight ≤ lastValidBlockHeight then
                match Program.step s.ledger
                  ⟨clock, W.instruction call.job.publicKey call.request⟩ with
                | some L =>
                    some { s.accept call.job.publicKey call.request L with
                      phase := .sending
                        { call with progress := .landed (attemptsAt L call.job.publicKey) } jobs }
                | none => some { s with phase := .sending { call with progress := .refused } jobs }
              else none
          | _ => none
      | _ => none
  | .landLate i clock =>
      match s.late[i]? with
      | some tx =>
          if s.blockHeight ≤ tx.lastValidBlockHeight then
            match Program.step s.ledger ⟨clock, W.instruction tx.job tx.request⟩ with
            | some L => some { s.accept tx.job tx.request L with late := s.late.eraseIdx i }
            | none => some { s with late := s.late.eraseIdx i }
          else none
      | none => none
  | .attemptFailed =>
      match s.phase with
      | .sending call jobs =>
          if call.attempt ≤ W.config.maxAttempts then
            some { s with
              phase := .sending call.retry jobs
              late := s.late ++ call.outstanding W.config }
          else none
      | _ => none
  | .confirmed =>
      match s.phase with
      | .sending call jobs =>
          match call.progress with
          | .landed attempts => some { s with phase := call.returned attempts jobs }
          | _ => none
      | _ => none
  | .rejected =>
      -- the loop has run out, or the instruction or the fee bid could not be built
      match s.phase with
      | .sending call jobs =>
          if call.progress = .unsent then some (s.giveUp call jobs) else none
      | _ => none
  | .executed outcome =>
      match s.phase with
      | .executing job held jobs =>
          some { s with phase := .sending ⟨job, report held outcome, 1, .unsent⟩ jobs }
      | _ => none

def start (L : Ledger K) : World K := ⟨L, 0, .fetching [], [], [], []⟩

/-! ### Steps by cases -/

inductive WorldStep (W : Worker K) (s : World K) : WorldEvent K → World K → Prop where
  | chain {tx : Tx K} {L : Ledger K} (hstep : Program.step s.ledger tx = some L) :
      WorldStep W s (.chain tx) { s with ledger := L }
  | blocks (n : Nat) : WorldStep W s (.blocks n) { s with blockHeight := s.blockHeight + n }
  | fetchJob {id : Nat} {jobs : List (JobRecord K)} {account : Job K}
      (hphase : s.phase = .fetching jobs) :
      WorldStep W s (.fetchJob id)
        { s with phase := .fetching (jobs ++ [⟨address (.job W.queuePda id), account⟩]) }
  | sortReady {now : Int64} {fetched jobs : List (JobRecord K)} (hphase : s.phase = .fetching fetched) :
      WorldStep W s (.sortReady now jobs) { s with phase := .looping jobs }
  | passEnds (hphase : s.phase = .looping []) :
      WorldStep W s .nextJob { s with phase := .fetching [] }
  | nextJob {job : JobRecord K} {jobs : List (JobRecord K)} (hphase : s.phase = .looping (job :: jobs)) :
      WorldStep W s .nextJob (s.takeUp job jobs)
  | sign {call : Call K} {jobs : List (JobRecord K)} {lastValidBlockHeight : Nat}
      (hphase : s.phase = .sending call jobs) (hunsent : call.progress = .unsent) :
      WorldStep W s (.sign lastValidBlockHeight)
        { s with phase := .sending { call with progress := .inFlight lastValidBlockHeight } jobs }
  | land {call : Call K} {jobs : List (JobRecord K)} {clock : Int64} {L : Ledger K}
      (hphase : s.phase = .sending call jobs)
      (hstep : Program.step s.ledger ⟨clock, W.instruction call.job.publicKey call.request⟩ = some L) :
      WorldStep W s (.land clock)
        { s.accept call.job.publicKey call.request L with
          phase := .sending { call with progress := .landed (attemptsAt L call.job.publicKey) } jobs }
  | refuse {call : Call K} {jobs : List (JobRecord K)} {clock : Int64} {lastValidBlockHeight : Nat}
      (hphase : s.phase = .sending call jobs) (hflight : call.progress = .inFlight lastValidBlockHeight) :
      WorldStep W s (.land clock)
        { s with phase := .sending { call with progress := .refused } jobs }
  | landLate {i : Nat} {tx : Late K} {clock : Int64} {L : Ledger K} (htx : s.late[i]? = some tx)
      (hvalid : s.blockHeight ≤ tx.lastValidBlockHeight)
      (hstep : Program.step s.ledger ⟨clock, W.instruction tx.job tx.request⟩ = some L) :
      WorldStep W s (.landLate i clock)
        { s.accept tx.job tx.request L with late := s.late.eraseIdx i }
  | refuseLate {i : Nat} {clock : Int64} :
      WorldStep W s (.landLate i clock) { s with late := s.late.eraseIdx i }
  | attemptFailed {call : Call K} {jobs : List (JobRecord K)} (hphase : s.phase = .sending call jobs) :
      WorldStep W s .attemptFailed
        { s with phase := .sending call.retry jobs, late := s.late ++ call.outstanding W.config }
  | confirmed {call : Call K} {jobs : List (JobRecord K)} {attempts : Nat}
      (hphase : s.phase = .sending call jobs) (hlanded : call.progress = .landed attempts) :
      WorldStep W s .confirmed { s with phase := call.returned attempts jobs }
  | rejected {call : Call K} {jobs : List (JobRecord K)} (hphase : s.phase = .sending call jobs)
      (hunsent : call.progress = .unsent) : WorldStep W s .rejected (s.giveUp call jobs)
  | executed {job : JobRecord K} {held : Nat} {jobs : List (JobRecord K)} {outcome : Except String String}
      (hphase : s.phase = .executing job held jobs) :
      WorldStep W s (.executed outcome)
        { s with phase := .sending ⟨job, report held outcome, 1, .unsent⟩ jobs }

theorem worldStep_of_step {W : Worker K} {s s' : World K} {e : WorldEvent K}
    (h : W.step s e = some s') : WorldStep W s e s' := by
  cases e with
  | chain tx =>
    obtain ⟨L, hL, rfl⟩ := Option.map_eq_some_iff.mp h
    exact .chain hL
  | blocks n =>
    cases h
    exact .blocks n
  | fetchJob id =>
    simp only [Worker.step] at h
    split at h
    next jobs account hphase hjob =>
      cases h
      exact .fetchJob hphase
    next => cases h
  | sortReady now jobs =>
    simp only [Worker.step] at h
    split at h
    next fetched hphase =>
      split at h
      · cases h
        exact .sortReady hphase
      · cases h
    next => cases h
  | nextJob =>
    simp only [Worker.step] at h
    split at h
    next hphase =>
      cases h
      exact .passEnds hphase
    next job jobs hphase =>
      cases h
      exact .nextJob hphase
    next => cases h
  | sign lastValidBlockHeight =>
    simp only [Worker.step] at h
    split at h
    next call jobs hphase =>
      split at h
      next hguard =>
        cases h
        exact .sign hphase hguard.1
      next => cases h
    next => cases h
  | land clock =>
    simp only [Worker.step] at h
    split at h
    next call jobs hphase =>
      split at h
      next lastValidBlockHeight hflight =>
        split at h
        · split at h
          next L hL =>
            cases h
            exact .land hphase hL
          next =>
            cases h
            exact .refuse hphase hflight
        · cases h
      next => cases h
    next => cases h
  | landLate i clock =>
    simp only [Worker.step] at h
    split at h
    next tx htx =>
      split at h
      next hvalid =>
        split at h
        next L hL =>
          cases h
          exact .landLate htx hvalid hL
        next =>
          cases h
          exact .refuseLate
      next => cases h
    next => cases h
  | attemptFailed =>
    simp only [Worker.step] at h
    split at h
    next call jobs hphase =>
      split at h
      · cases h
        exact .attemptFailed hphase
      · cases h
    next => cases h
  | confirmed =>
    simp only [Worker.step] at h
    split at h
    next call jobs hphase =>
      split at h
      next attempts hlanded =>
        cases h
        exact .confirmed hphase hlanded
      next => cases h
    next => cases h
  | rejected =>
    simp only [Worker.step] at h
    split at h
    next call jobs hphase =>
      split at h
      next hguard =>
        cases h
        exact .rejected hphase hguard
      next => cases h
    next => cases h
  | executed outcome =>
    simp only [Worker.step] at h
    split at h
    next job held jobs hphase =>
      cases h
      exact .executed hphase
    next => cases h

/-! ### Claims that take effect -/

/-- The job on which `tx` is a claim of `w` that the ledger accepts. -/
def claimOf (w : K) (L : Ledger K) (tx : Tx K) : Option K :=
  match tx.ix with
  | .claimJob ctx => if ctx.worker = w ∧ (Program.step L tx).isSome then some ctx.job else none
  | _ => none

def Worker.claimTaken (W : Worker K) (s : World K) : WorldEvent K → Option K
  | .chain tx => claimOf W.key s.ledger tx
  | .land clock =>
      match s.phase with
      | .sending call _ =>
          claimOf W.key s.ledger ⟨clock, W.instruction call.job.publicKey call.request⟩
      | _ => none
  | .landLate i clock =>
      match s.late[i]? with
      | some tx => claimOf W.key s.ledger ⟨clock, W.instruction tx.job tx.request⟩
      | none => none
  | _ => none

variable {W : Worker K} {s s' : World K} {e : WorldEvent K} {k : K}

theorem claimOf_instruction {L : Ledger K} {clock : Int64} {job : K} {request : Request} {w : K}
    (h : claimOf w L ⟨clock, W.instruction job request⟩ = some k) : request = .claim ∧ k = job := by
  cases request with
  | claim =>
    have hk : job = k := (Option.ite_none_right_eq_some.mp h).2 |> Option.some.inj
    exact ⟨rfl, hk.symm⟩
  | complete | fail => cases h

theorem WorldStep.ledger (h : WorldStep W s e s') :
    s'.ledger = s.ledger ∨ ∃ tx, Program.step s.ledger tx = some s'.ledger ∧
      W.claimTaken s e = claimOf W.key s.ledger tx := by
  cases h with
  | chain hstep => exact .inr ⟨_, hstep, rfl⟩
  | land hphase hstep => exact .inr ⟨_, hstep, by simp only [Worker.claimTaken, hphase]⟩
  | landLate htx hvalid hstep => exact .inr ⟨_, hstep, by simp only [Worker.claimTaken, htx]⟩
  | blocks | fetchJob | sortReady | passEnds | nextJob | sign | refuse | refuseLate
  | attemptFailed | confirmed | rejected | executed => exact .inl rfl

/-- Whatever the worker does, the ledger moves by a run of the program. -/
def ledgerSimulation (W : Worker K) : Simulation W.step (Program.step (K := K)) where
  rel s L := s.ledger = L
  sim s e s' L hrel h := by
    subst hrel
    obtain he | ⟨tx, hstep, _⟩ := (worldStep_of_step h).ledger
    · exact ⟨[], s.ledger, rfl, he⟩
    · exact ⟨[tx], s'.ledger, run_singleton.mpr hstep, rfl⟩

theorem reachable_ledger {es : List (WorldEvent K)} (hL : Reachable s.ledger)
    (hrun : run W.step s es = some s') : Reachable s'.ledger := by
  obtain ⟨txs, L, htxs, hrel⟩ := (ledgerSimulation W).run rfl hrun
  exact hrel ▸ hL.extend htxs

/-- A job the worker holds after a step was held before, with the same attempt,
or the step claims it. -/
theorem WorldStep.held (h : WorldStep W s e s') (hL : Reachable s.ledger)
    (hheld : Held s'.ledger k W.key) :
    (Held s.ledger k W.key ∧ attemptsAt s'.ledger k = attemptsAt s.ledger k) ∨
      W.claimTaken s e = some k := by
  obtain he | ⟨tx, hstep, htaken⟩ := h.ledger
  · rw [he] at hheld ⊢
    exact .inl ⟨hheld, rfl⟩
  · obtain hbefore | ⟨page, hix⟩ := held_before (reachable_wellFormed hL) hstep hheld
    · exact .inl hbefore
    · refine .inr (htaken.trans ?_)
      simp only [claimOf, hix, hstep, Option.isSome_some, and_self, if_true]

end

/-! ### A worker on the small queue -/

def demoWorker : Worker Key := ⟨.wallet 1, demoQueue, 30, defaultHybridFeeConfig⟩

def demoRecord : JobRecord Key :=
  ⟨address (.job demoQueue 0),
    ⟨demoQueue, 0, "email", [], .pending, 1, 1, 1, 0, 3, none, none, none, none, none, 255⟩⟩

/-- The worker finds the first job and takes it up. -/
def demoTakeUp : List (WorldEvent Key) := [.fetchJob 0, .sortReady 3 [demoRecord], .nextJob]

end DecQueue.Client
