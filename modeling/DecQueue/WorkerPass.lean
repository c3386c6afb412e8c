import DecQueue.Kit.Loop
import DecQueue.DispatchOrder
import DecQueue.FeeBid
import DecQueue.PoolRefinement
import DecQueue.ReportLength
import DecQueue.Snapshot

/-! # A pass of the worker (client/worker.ts, client/fee-strategy.ts)

`processReadyJobs` on the standard path, from the ids of the jobs to the last
report, on a connection that executes every transaction it is sent and tells
what came of it, with nobody else on the ledger. The ids are given by hand:
`getReadyJobIds` finds none on any ledger of the program. Before it signs, an
attempt asks for the recent fees and encodes its bid, and a bid that cannot be
encoded ends the call. -/

namespace DecQueue.WorkerPass
open Kit.Fallible Kit.Lists Kit.Loop Kit.ComparisonSort State Handlers Outcomes Address Program View
  Refinement Reachability Invariants JobLife JsonText Records Client PoolRefinement ReportLength
  DecqueueCore

variable {K : Type}

/-! ### The process and its connection -/

/-- What the process runs with. The packages encode some numbers and throw at others. -/
structure Host where
  env : FeeBid.Environment
  sorter : Sorter JsNumber
  setComputeUnitLimit : JsNumber → Bool
  setComputeUnitPrice : JsNumber → Bool
  /-- the lamports of a transfer -/
  transfer : JsNumber → Bool
  /-- `(await import("@coral-xyz/anchor")).BN` is there -/
  importsBN : Bool

/-- The `n`-th attempt of a pass is told `recentFees n`; its transaction is executed at `clock n`. -/
structure Connection where
  recentFees : Nat → Except String (List JsNumber)
  clock : Nat → Int64

def Host.feeConfig (host : Host) : FeeBid.HybridFeeStrategyConfig := FeeBid.buildFeeConfig host.env

/-- Both instructions can be built. -/
def Host.buildComputeBudgetInstructions (host : Host) (computeUnitLimit microLamportsPerCu : JsNumber) :
    Bool :=
  host.setComputeUnitLimit computeUnitLimit && host.setComputeUnitPrice microLamportsPerCu

/-- The fee bid of an attempt can be encoded. -/
def Host.bids (host : Host) (response : Except String (List JsNumber)) : Bool :=
  host.buildComputeBudgetInstructions host.feeConfig.computeUnitLimit
    (FeeBid.getDynamicPriorityFee host.sorter response host.feeConfig)

/-- The transactions of an attempt can be built: a bundle begins with the tip. -/
def Host.signs (host : Host) (config : HybridFeeStrategyConfig) (jobPriority attempt : Nat) : Bool :=
  !useJito config jobPriority attempt || host.transfer host.feeConfig.jitoTipLamports

/-- The instruction of the report can be built: `fail_job` takes the delay as a
`BN`, and none is made of a number from `2^53` on. -/
def Host.builds (host : Host) (W : Worker K) : Except String String → Bool
  | .ok _ => true
  | .error _ => host.importsBN && decide (W.retryAfterSecs.toInt.natAbs < 2 ^ 53)

/-- Every attempt gets as far as its transaction. -/
structure Host.Sends (host : Host) (config : HybridFeeStrategyConfig) (net : Connection) : Prop where
  bids : ∀ n, host.bids (net.recentFees n) = true
  signs : ∀ jobPriority attempt, host.signs config jobPriority attempt = true

/-- The percentile of the documented range, fees as the RPC gives them, and a
package that encodes every whole bid between floor and cap. -/
theorem bids_of_percentile {host : Host} {response : Except String (List JsNumber)} {q : Rat}
    (hlimit : host.setComputeUnitLimit (.finite 80000) = true)
    (hprice : ∀ n : Nat, 1000 ≤ n → n ≤ 5000000 → host.setComputeUnitPrice (.finite n) = true)
    (hq : FeeBid.numberOr host.env.priorityFeePercentile 75 = .finite q) (hlow : 0 ≤ q) (hhigh : q ≤ 100)
    (hwhole : FeeBid.WholeFees response) : host.bids response = true := by
  obtain ⟨n, hbid, hfloor, hcap⟩ := FeeBid.bid_whole host.sorter hq hlow hhigh hwhole
  have hunits : host.feeConfig.computeUnitLimit = .finite 80000 := rfl
  simp only [Host.bids, Host.buildComputeBudgetInstructions, hunits, hlimit, Bool.true_and]
  exact hbid ▸ hprice n hfloor hcap

structure Pass (K : Type) where
  ledger : Ledger K
  /-- the attempts made so far -/
  sent : Nat
  processed : Nat

section
variable [DecidableEq K] [AddressDerivation K]

/-- The inside of the `try`. -/
def attempt (host : Host) (config : HybridFeeStrategyConfig) (net : Connection) (L : Ledger K)
    (ix : Instruction K) (jobPriority sent number : Nat) : Option (Ledger K) :=
  if host.signs config jobPriority number then Program.step L ⟨net.clock sent, ix⟩ else none

/-- `HybridFeeStrategy.send`: the same instruction until it is confirmed. -/
def send (host : Host) (config : HybridFeeStrategyConfig) (net : Connection) (L : Ledger K)
    (ix : Instruction K) (jobPriority sent : Nat) : Nat → Option (Ledger K) × Nat
  | 0 => (none, sent)
  | attempts + 1 =>
      -- the bid is made before the `try`: when it throws, the loop is over
      if host.bids (net.recentFees sent) then
        match attempt host config net L ix jobPriority sent (config.maxAttempts - attempts) with
        | some L' => (some L', sent + 1)
        | none => send host config net L ix jobPriority (sent + 1) attempts
      else (none, sent + 1)

/-- The body of the loop. -/
def processJob (W : Worker K) (host : Host) (net : Connection) (s : Pass K)
    (job : Records.JobRecord K Json) : Pass K :=
  match send host W.config net s.ledger (W.instruction job.publicKey .claim) job.priority s.sent
    W.config.maxAttempts with
  | (none, sent) => { s with sent := sent }
  | (some L, sent) =>
      if host.builds W (outcome job) then
        let request := report (attemptsAt L job.publicKey) (outcome job)
        match send host W.config net L (W.instruction job.publicKey request) job.priority sent
          W.config.maxAttempts with
        | (none, sent) => ⟨L, sent, s.processed⟩
        | (some L', sent) => ⟨L', sent, s.processed + 1⟩
      else ⟨L, sent, s.processed⟩

def processReadyJobs (W : Worker K) (host : Host) (S : Sorter (Records.JobRecord K Json))
    (parse : Bytes → Except String Json) (now : Int) (net : Connection) (L : Ledger K)
    (readyIds : List Nat) : Pass K :=
  if readyIds.length = 0 then ⟨L, 0, 0⟩
  else
    (sortReadyJobs S now (fetchJobsByIds parse L W.queuePda readyIds)).foldl
      (processJob W host net) ⟨L, 0, 0⟩

/-! ### Sending -/

variable {host : Host} {config : HybridFeeStrategyConfig} {net : Connection} {L L' : Ledger K}
  {ix : Instruction K} {jobPriority sent attempts : Nat}

theorem send_accepted (hsends : host.Sends config net) (hattempts : 1 ≤ attempts)
    (h : Program.step L ⟨net.clock sent, ix⟩ = some L') :
    send host config net L ix jobPriority sent attempts = (some L', sent + 1) := by
  cases attempts with
  | zero => omega
  | succ attempts => simp only [send, attempt, hsends.bids, hsends.signs, h, if_true]

theorem send_refused (hsends : host.Sends config net) (h : ∀ t, Program.step L ⟨t, ix⟩ = none) :
    send host config net L ix jobPriority sent attempts = (none, sent + attempts) := by
  induction attempts generalizing sent with
  | zero => rfl
  | succ attempts ih =>
    simp only [send, attempt, hsends.bids, hsends.signs, h, ih, if_true]
    rw [Nat.add_assoc, Nat.add_comm 1 attempts]

/-- Without a bid that can be encoded nothing is sent. -/
theorem send_unbid (h : ∀ n, host.bids (net.recentFees n) = false) :
    (send host config net L ix jobPriority sent attempts).1 = none := by
  cases attempts with
  | zero => rfl
  | succ attempts => simp only [send, h, Bool.false_eq_true, if_false]

/-- A pass whose bids cannot be encoded, as when they are NaN, claims nothing. -/
theorem pass_claims_nothing (W : Worker K) (S : Sorter (Records.JobRecord K Json))
    (parse : Bytes → Except String Json) (now : Int) (L : Ledger K) (ids : List Nat)
    (h : ∀ n, host.bids (net.recentFees n) = false) :
    (processReadyJobs W host S parse now net L ids).ledger = L ∧
      (processReadyJobs W host S parse now net L ids).processed = 0 := by
  unfold processReadyJobs
  split
  next => exact ⟨rfl, rfl⟩
  next =>
    refine List.foldlRecOn (motive := fun s : Pass K => s.ledger = L ∧ s.processed = 0) _ _ ⟨rfl, rfl⟩ ?_
    intro s hs job _
    have hsend : (send host W.config net s.ledger (W.instruction job.publicKey .claim) job.priority
        s.sent W.config.maxAttempts).1 = none := send_unbid h
    unfold processJob
    split
    next => exact hs
    next heq => cases hsend.symm.trans (congrArg Prod.fst heq)

/-! ### What the ledger holds for a job -/

omit [DecidableEq K] in
/-- The first page lists the job. -/
def listed (L : Ledger K) (Q : K) (id : Nat) : Bool :=
  match L (address (.index Q 0)) with
  | some (.jobIndex page) => decide (id ∈ page.jobIds)
  | _ => false

/-- What a pass reads and changes of a job: its record and whether it is listed. -/
def seen (L : Ledger K) (Q : K) (id : Nat) : Option (Job K) × Bool := (jobAt L Q id, listed L Q id)

variable {Q : K} {v : QueueView K} {p : JobIndex K} {i : Nat} {j : Job K}

omit [DecidableEq K] in
theorem account_of_jobAt (h : jobAt L Q i = some j) : L (address (.job Q i)) = some (.job j) := by
  unfold jobAt at h
  split at h
  next job hjob =>
    cases h
    exact hjob
  next => cases h

omit [DecidableEq K] in
theorem listed_hosts (hv : Hosts L Q v) (hp : v.pages[0]? = some p) (id : Nat) :
    listed L Q id = decide (id ∈ p.jobIds) := by
  simp only [listed, hv.page hp]

omit [DecidableEq K] in
theorem seen_hosts (hv : Hosts L Q v) (hp : v.pages[0]? = some p) (id : Nat) :
    seen L Q id = (v.jobs[id]?, decide (id ∈ p.jobIds)) := by
  rw [seen, jobAt_hosts hv, listed_hosts hv hp]

/-! ### One turn -/

omit [DecidableEq K] [AddressDerivation K] in
/-- The record of a claimed job once the report on it has landed at `u`. -/
def reported (W : Worker K) (u : Int64) (outcome : Except String String) (held : Job K) : Job K :=
  match outcome with
  | .ok result => finished u (some result) held
  | .error errorMessage =>
      if held.attempts < held.maxRetries then retried u errorMessage W.retryAfterSecs held
      else deadLettered u errorMessage held

variable {W : Worker K} {t : Int64}

theorem claim_lands (hv : Hosts L W.queuePda v) (hp : v.pages[0]? = some p) (hj : v.jobs[i]? = some j)
    (hstatus : j.status = .pending) (hready : j.executeAfter ≤ t) (hmem : i ∈ p.jobIds) :
    ∃ L' p', Program.step L ⟨t, W.instruction (address (.job W.queuePda i)) .claim⟩ = some L' ∧
      Hosts L' W.queuePda
        { v with pages := v.pages.set 0 p', jobs := v.jobs.set i (locked t W.key j) } ∧
      Frame W.queuePda L L' ∧ p.jobIds.Perm (i :: p'.jobIds) := by
  have hid : j.jobId = i := (hv.placed.job i j hj).2.1
  obtain ⟨p', hremove⟩ := removeJob_of_mem (hid ▸ hmem)
  have hstep := QueueStep.claimJob (Q := W.queuePda) W.key hj hp hstatus hready hremove
  obtain ⟨L', hexec, hnew⟩ := exec_of_queueStep hv hstep
  exact ⟨L', p', (step_eq_some L L' _).mpr ⟨_, hexec⟩, ⟨hnew.view, hstep.placed hv.placed⟩, hnew.frame,
    hid ▸ removeJob_perm hremove⟩

/-- A job that is not on the first page cannot be claimed from it. -/
theorem claim_refused (hv : Hosts L W.queuePda v) (hp : v.pages[0]? = some p) (hj : v.jobs[i]? = some j)
    (hnot : i ∉ p.jobIds) :
    Program.step L ⟨t, W.instruction (address (.job W.queuePda i)) .claim⟩ = none := by
  rw [Option.eq_none_iff_forall_ne_some]
  intro L' h
  obtain ⟨evs, hexec⟩ := (step_eq_some L L' _).mp h
  simp only [Worker.instruction, exec, execClaimJob, bind_ok_iff, loadJob_ok_iff, loadJobIndex_ok_iff,
    lift_ok_iff, claimJob_ok_iff] at hexec
  obtain ⟨job, hjob, page, hpage, _, _, _, ⟨_, _, page', hremove, _⟩, _⟩ := hexec
  cases (hv.job hj).symm.trans hjob
  cases (hv.page hp).symm.trans hpage
  exact hnot ((hv.placed.job i j hj).2.1 ▸ mem_of_removeJob hremove)

/-- A report on a claimed job lands if its text fits and the first page has room. -/
theorem report_lands (hinv : Inv v) (hv : Hosts L W.queuePda v) (hp : v.pages[0]? = some p)
    (hroom : p.jobIds.length < maxIndexEntries) (hj : v.jobs[i]? = some j)
    (hstatus : j.status = .processing) (hworker : j.worker = some W.key) (held : Nat)
    {outcome : Except String String} (hfits : (reportText outcome).utf8ByteSize ≤ 128) :
    ∃ L' v', Program.step L
        ⟨t, W.instruction (address (.job W.queuePda i)) (report held outcome)⟩ = some L' ∧
      Hosts L' W.queuePda v' ∧ Frame W.queuePda L L' ∧ v'.jobs = v.jobs.set i (reported W t outcome j) ∧
      ∃ p', v'.pages[0]? = some p' ∧ ∀ id, id ∈ p'.jobIds ↔
        id ∈ p.jobIds ∨ (id = i ∧ (reported W t outcome j).status = .pending) := by
  cases outcome with
  | ok result =>
    have hresult : ResultFits (some result) := by
      intro r hr
      cases hr
      exact hfits
    have hcount : v.queue.processedCount + 1 ≤ u64Max :=
      hinv.counted.processed ▸ counter_room hinv.counted.limit hj hstatus rfl
    have hstep : QueueStep W.queuePda t _ v _ _ :=
      .completeJob W.key (some result) hj hstatus hworker hresult hcount
    obtain ⟨L', hexec, hnew⟩ := exec_of_queueStep hv hstep
    refine ⟨L', _, (step_eq_some L L' _).mpr ⟨_, hexec⟩, ⟨hnew.view, hstep.placed hv.placed⟩, hnew.frame,
      rfl, p, hp, fun id => ?_⟩
    simp only [reported, finished, reduceCtorEq, and_false, or_false]
  | error errorMessage =>
    have hmay : MayFail W.key j errorMessage := ⟨hstatus, hworker, hfits⟩
    by_cases hretry : j.attempts < j.maxRetries
    · have hstep : QueueStep W.queuePda t _ v _ _ :=
        .retryJob W.key errorMessage W.retryAfterSecs hj hp hretry hmay hroom
      obtain ⟨L', hexec, hnew⟩ := exec_of_queueStep hv hstep
      have hjobs : retried t errorMessage W.retryAfterSecs j = reported W t (.error errorMessage) j :=
        (if_pos hretry).symm
      refine ⟨L', _, (step_eq_some L L' _).mpr ⟨_, hexec⟩, ⟨hnew.view, hstep.placed hv.placed⟩,
        hnew.frame, hjobs ▸ rfl, _, (getElem?_set_of_some _ hp 0).trans (if_pos rfl), fun id => ?_⟩
      rw [← hjobs, (hv.placed.job i j hj).2.1]
      simp only [List.mem_append, List.mem_singleton, retried, and_true]
    · have hcount : v.queue.failedCount + 1 ≤ u64Max :=
        hinv.counted.failed ▸ counter_room hinv.counted.limit hj hstatus rfl
      have hstep : QueueStep W.queuePda t _ v _ _ :=
        .deadLetter W.key errorMessage W.retryAfterSecs hj hp hretry hmay hcount
      obtain ⟨L', hexec, hnew⟩ := exec_of_queueStep hv hstep
      have hjobs : deadLettered t errorMessage j = reported W t (.error errorMessage) j :=
        (if_neg hretry).symm
      refine ⟨L', _, (step_eq_some L L' _).mpr ⟨_, hexec⟩, ⟨hnew.view, hstep.placed hv.placed⟩,
        hnew.frame, hjobs ▸ rfl, p, hp, fun id => ?_⟩
      rw [← hjobs]
      simp only [deadLettered, reduceCtorEq, and_false, or_false]

/-- A report that is too long is refused by every ledger. -/
theorem report_refused (k : K) (held : Nat) {outcome : Except String String}
    (hlong : ¬(reportText outcome).utf8ByteSize ≤ 128) :
    Program.step L ⟨t, W.instruction k (report held outcome)⟩ = none := by
  rw [Option.eq_none_iff_forall_ne_some]
  intro L' h
  obtain ⟨evs, hexec⟩ := (step_eq_some L L' _).mp h
  cases outcome with
  | ok result =>
    simp only [Worker.instruction, report, exec, execCompleteJob, bind_ok_iff, lift_ok_iff,
      completeJob_ok_iff] at hexec
    obtain ⟨_, _, _, _, _, _, _, ⟨_, _, hresult, _⟩, _⟩ := hexec
    exact hlong (hresult result rfl)
  | error errorMessage =>
    simp only [Worker.instruction, report, exec, execFailJob, bind_ok_iff, lift_ok_iff] at hexec
    obtain ⟨queue, _, job, _, page, _, _, _, _, _, _, hfail, _⟩ := hexec
    by_cases hretry : job.attempts < job.maxRetries
    · exact hlong ((failJob_retry_iff _ _ _ _ _ _ _ _ hretry _).mp hfail).1.2.2
    · exact hlong ((failJob_dead_iff _ _ _ _ _ _ _ _ hretry _).mp hfail).1.2.2

/-! ### The loop -/

omit [DecidableEq K] [AddressDerivation K] in
/-- The report on the job can be built, and its text fits. -/
def Reportable (host : Host) (W : Worker K) (record : Records.JobRecord K Json) : Prop :=
  host.builds W (outcome record) = true ∧ ReportFits record

omit [DecidableEq K] [AddressDerivation K] in
theorem reportable_iff (host : Host) (W : Worker K) (record : Records.JobRecord K Json) :
    host.builds W (outcome record) = true ∧ (reportText (outcome record)).utf8ByteSize ≤ 128 ↔
      Reportable host W record :=
  and_congr_right fun _ => outcome_bytes_iff record

instance (host : Host) (W : Worker K) (record : Records.JobRecord K Json) :
    Decidable (Reportable host W record) :=
  decidable_of_iff _ (reportable_iff host W record)

omit [DecidableEq K] [AddressDerivation K] in
/-- What a turn makes of a pending job that is due. -/
inductive Turned (W : Worker K) (host : Host) (net : Connection) (record : Records.JobRecord K Json)
    (j : Job K) : Bool → Option (Job K) × Bool → Prop where
  /-- not on the first page: the claim is refused -/
  | skipped : Turned W host net record j false (some j, false)
  /-- the report is not built or refused, and the job stays claimed -/
  | stuck (m : Nat) (hlost : ¬Reportable host W record) :
      Turned W host net record j true (some (locked (net.clock m) W.key j), false)
  | settled (m n : Nat) (hmn : m < n) (hreport : Reportable host W record)
      (job : Job K) (hjob : job = reported W (net.clock n) (outcome record) (locked (net.clock m) W.key j)) :
      Turned W host net record j true (some job, decide (job.status = .pending))

/-- Between two turns of a pass over the queue of `L`. -/
structure Between (L : Ledger K) (Q : K) (s : Pass K) : Prop where
  reachable : Reachable s.ledger
  hosted : ∃ v, Hosts s.ledger Q v
  frame : Frame Q L s.ledger

/-- The record is that of a pending job which is due throughout the pass. -/
def Due (clock : Nat → Int64) (Q : K) (record : Records.JobRecord K Json) (b : Option (Job K) × Bool) : Prop :=
  record.publicKey = address (.job Q record.jobId) ∧
    ∃ j, b.1 = some j ∧ j.status = .pending ∧ ∀ n, j.executeAfter ≤ clock n

omit [DecidableEq K] [AddressDerivation K] in
def counts (host : Host) (W : Worker K) (record : Records.JobRecord K Json) (b : Option (Job K) × Bool) :
    Bool :=
  b.2 && decide (Reportable host W record)

omit [DecidableEq K] in
theorem frame_trans {L₁ L₂ L₃ : Ledger K} (h : Frame Q L₁ L₂) (h' : Frame Q L₂ L₃) : Frame Q L₁ L₃ :=
  fun k hk => (h' k hk).trans (h k hk)

omit [DecidableEq K] [AddressDerivation K] in
/-- A job under way is on no page. -/
theorem unlisted_of_processing (hinv : Inv v) (hp : v.pages[0]? = some p) (hj : v.jobs[i]? = some j)
    (hstatus : j.status = .processing) : i ∉ p.jobIds := by
  intro hmem
  have hpending := hinv.indexed.pending_of_mem hp hmem
  rw [pendingAt_of_some hj, hstatus] at hpending
  cases hpending

theorem processJob_turn (hsends : host.Sends W.config net) (hattempts : 1 ≤ W.config.maxAttempts) {s : Pass K}
    {record : Records.JobRecord K Json} (hs : Between L W.queuePda s)
    (hdue : Due net.clock W.queuePda record (seen s.ledger W.queuePda record.jobId)) :
    Turn (fun record : Records.JobRecord K Json => record.jobId) (fun s : Pass K => seen s.ledger W.queuePda)
      (Between L W.queuePda) (fun record b b' => ∀ j, b.1 = some j → Turned W host net record j b.2 b')
      Pass.processed (counts host W) record s (processJob W host net s record) := by
  obtain ⟨hkey, j, hj, hstatus, hready⟩ := hdue
  obtain ⟨hL, ⟨v, hv⟩, hframe⟩ := hs
  have hinv := reachable_inv hL hv
  obtain ⟨p, hp⟩ := hinv.linked.page (Nat.zero_le _)
  have hseen := seen_hosts hv hp
  rw [hseen] at hj
  replace hj : v.jobs[record.jobId]? = some j := hj
  by_cases hmem : record.jobId ∈ p.jobIds
  case neg =>
    have hsend : send host W.config net s.ledger (W.instruction record.publicKey .claim) record.priority
        s.sent W.config.maxAttempts =
        (none, s.sent + W.config.maxAttempts) :=
      send_refused hsends fun t => hkey ▸ claim_refused hv hp hj hmem
    have hafter : processJob W host net s record = { s with sent := s.sent + W.config.maxAttempts } := by
      simp only [processJob, hsend]
    rw [hafter]
    refine ⟨⟨hL, ⟨v, hv⟩, hframe⟩, ?_, fun _ _ => rfl, ?_⟩
    · show ∀ j', (seen s.ledger W.queuePda record.jobId).1 = some j' → _
      rw [hseen, hj, decide_eq_false hmem]
      intro j' hj'
      cases hj'
      exact .skipped
    · simp only [counts, hseen, decide_eq_false hmem, Bool.false_and, Bool.false_eq_true, if_false,
        Nat.add_zero]
  case pos =>
    obtain ⟨L₁, p₁, hclaim, hv₁, hframe₁, hperm⟩ := claim_lands (W := W) hv hp hj hstatus
      (hready s.sent) hmem
    have hL₁ : Reachable L₁ := hL.next hclaim
    have hinv₁ := reachable_inv hL₁ hv₁
    have hsend : send host W.config net s.ledger (W.instruction record.publicKey .claim) record.priority
        s.sent W.config.maxAttempts =
        (some L₁, s.sent + 1) := send_accepted hsends hattempts (hkey ▸ hclaim)
    have hp₁ : (v.pages.set 0 p₁)[0]? = some p₁ := (getElem?_set_of_some _ hp 0).trans (if_pos rfl)
    have hj₁ : (v.jobs.set record.jobId (locked (net.clock s.sent) W.key j))[record.jobId]? =
        some (locked (net.clock s.sent) W.key j) := (getElem?_set_of_some _ hj _).trans (if_pos rfl)
    have hfree : record.jobId ∉ p₁.jobIds := unlisted_of_processing hinv₁ hp₁ hj₁ rfl
    have hseen₁ := seen_hosts hv₁ hp₁
    -- the claim leaves the other jobs, and the page without this one
    have hother₁ : ∀ id, id ≠ record.jobId → seen L₁ W.queuePda id = seen s.ledger W.queuePda id := by
      intro id hid
      have hlisted : id ∈ p₁.jobIds ↔ id ∈ p.jobIds := by
        rw [hperm.mem_iff, List.mem_cons, or_iff_right hid]
      rw [hseen₁, hseen, getElem?_set_of_some _ hj, if_neg hid]
      simp only [hlisted]
    by_cases hreportable : Reportable host W record
    case neg =>
      -- not built, or too long: either way the ledger of the claim is the last
      have hlost : ∃ sent, processJob W host net s record = ⟨L₁, sent, s.processed⟩ := by
        simp only [processJob, hsend]
        split
        next hbuilt =>
          have hlong : ¬(reportText (outcome record)).utf8ByteSize ≤ 128 := fun hfits =>
            hreportable ⟨hbuilt, (outcome_bytes_iff record).mp hfits⟩
          simp only [send_refused hsends fun t => report_refused record.publicKey _ hlong]
          exact ⟨_, rfl⟩
        next => exact ⟨_, rfl⟩
      obtain ⟨sent, hafter⟩ := hlost
      rw [hafter]
      refine ⟨⟨hL₁, ⟨_, hv₁⟩, frame_trans hframe hframe₁⟩, ?_, hother₁, ?_⟩
      · show ∀ j', (seen s.ledger W.queuePda record.jobId).1 = some j' →
          Turned W host net record j' _ (seen L₁ W.queuePda record.jobId)
        rw [hseen, hj, decide_eq_true hmem, hseen₁, hj₁, decide_eq_false hfree]
        intro j' hj'
        cases hj'
        exact .stuck s.sent hreportable
      · simp only [counts, decide_eq_false hreportable, Bool.and_false, Bool.false_eq_true, if_false,
          Nat.add_zero]
    case pos =>
      have hroom : p₁.jobIds.length < maxIndexEntries := by
        have hlength := hperm.length_eq
        have hlimit := hinv.linked.room 0 p hp
        rw [List.length_cons] at hlength
        omega
      obtain ⟨L₂, v₂, hreport, hv₂, hframe₂, hjobs₂, p₂, hp₂, hlisted₂⟩ :=
        report_lands (W := W) (t := net.clock (s.sent + 1)) hinv₁ hv₁ hp₁ hroom hj₁ rfl rfl
          (attemptsAt L₁ record.publicKey) ((outcome_bytes_iff record).mpr hreportable.2)
      rw [← hkey] at hreport
      have hafter : processJob W host net s record = ⟨L₂, s.sent + 1 + 1, s.processed + 1⟩ := by
        simp only [processJob, hsend, hreportable.1, send_accepted hsends hattempts hreport, if_true]
      have hseen₂ := seen_hosts hv₂ hp₂
      have hj₂ := getElem?_set_of_some
        (reported W (net.clock (s.sent + 1)) (outcome record) (locked (net.clock s.sent) W.key j)) hj₁
      rw [hafter]
      refine ⟨⟨hL₁.next hreport, ⟨_, hv₂⟩, frame_trans (frame_trans hframe hframe₁) hframe₂⟩, ?_, ?_, ?_⟩
      · show ∀ j', (seen s.ledger W.queuePda record.jobId).1 = some j' →
          Turned W host net record j' _ (seen L₂ W.queuePda record.jobId)
        rw [hseen, hj, decide_eq_true hmem, hseen₂, hjobs₂, hj₂, if_pos rfl]
        intro j' hj'
        cases hj'
        simp only [hlisted₂, hfree, true_and, false_or]
        exact .settled s.sent (s.sent + 1) (Nat.lt_succ_self _) hreportable _ rfl
      · intro id hid
        refine Eq.trans ?_ (hother₁ id hid)
        show seen L₂ W.queuePda id = _
        rw [hseen₂, hseen₁, hjobs₂, hj₂, if_neg hid]
        simp only [hlisted₂, hid, false_and, or_false]
      · simp only [counts, hseen, decide_eq_true hmem, decide_eq_true hreportable, Bool.and_self, if_true]

/-! ### What a pass takes up -/

/-- The record the pass has of a job that it claims. -/
def taken (parse : Bytes → Except String Json) (now : Int) (L : Ledger K) (Q : K) (id : Nat) :
    Option (Records.JobRecord K Json) :=
  match getJob parse L (address (.job Q id)) with
  | .ok record => if record.isReady now = true ∧ listed L Q id = true then some record else none
  | .error _ => none

section
variable {parse : Bytes → Except String Json} {now : Int} {record : Records.JobRecord K Json} {k : K}
  {S : Sorter (Records.JobRecord K Json)} {ids : List Nat} {id : Nat}

omit [DecidableEq K] in
theorem taken_eq_some : taken parse now L Q id = some record ↔
    getJob parse L (address (.job Q id)) = .ok record ∧ record.isReady now = true ∧ listed L Q id = true := by
  unfold taken
  split
  next record' h =>
    rw [h, Option.ite_none_right_eq_some, Option.some.injEq, Except.ok.injEq]
    constructor
    · rintro ⟨hboth, rfl⟩
      exact ⟨rfl, hboth⟩
    · rintro ⟨rfl, hboth⟩
      exact ⟨hboth, rfl⟩
  next e h => simp only [h, reduceCtorEq, false_and]

omit [DecidableEq K] [AddressDerivation K] in
theorem getJob_fields (h : getJob parse L k = .ok record) :
    ∃ job, L k = some (.job job) ∧ record.publicKey = k ∧ record.jobId = job.jobId ∧
      record.status = job.status ∧ record.executeAfter = newDate (job.executeAfter.toInt * 1000) := by
  simp only [getJob, bind_ok_iff, pure_ok_iff, Snapshot.dateOfSeconds_ok_iff, Snapshot.toNumber_ok_iff] at h
  obtain ⟨job, hjob, _, ⟨_, rfl⟩, _, _, _, _, _, ⟨_, rfl⟩, _, _, _, _, rfl⟩ := h
  refine ⟨job, ?_, rfl, rfl, rfl, rfl⟩
  unfold fetchJob at hjob
  split at hjob
  next data hload =>
    cases hjob
    exact (loadJob_ok_iff L k job).mp hload
  next => cases hjob

omit [DecidableEq K] in
theorem getJob_hosts (hv : Hosts L Q v) (h : getJob parse L (address (.job Q id)) = .ok record) :
    record.jobId = id ∧ record.publicKey = address (.job Q id) ∧ ∃ j, v.jobs[id]? = some j ∧
      record.status = j.status ∧ record.executeAfter = newDate (j.executeAfter.toInt * 1000) := by
  obtain ⟨j, hjob, hkey, hid, hstatus, hafter⟩ := getJob_fields h
  rw [hv.view.jobAt, Option.map_eq_some_iff] at hjob
  obtain ⟨j', hj, he⟩ := hjob
  cases he
  exact ⟨hid.trans (hv.placed.job id j hj).2.1, hkey, j, hj, hstatus, hafter⟩

omit [DecidableEq K] in
/-- What the worker finds ready is due on chain, once the clock there has
reached the second of the worker's. -/
theorem due_of_ready {clock : Nat → Int64} (hv : Hosts L Q v) (hclock : ∀ n, now / 1000 ≤ (clock n).toInt)
    (h : getJob parse L (address (.job Q id)) = .ok record) (hready : record.isReady now = true) :
    Due clock Q record (seen L Q record.jobId) := by
  obtain ⟨hid, hkey, j, hj, hstatus, hafter⟩ := getJob_hosts hv h
  obtain ⟨hpending, t, ht, hle⟩ := (DispatchOrder.isReady_iff now record).mp hready
  refine ⟨hid ▸ hkey, j, ?_, hstatus ▸ hpending, fun n => ?_⟩
  · rw [hid]
    exact (jobAt_hosts hv id).trans hj
  · have hdate : j.executeAfter.toInt * 1000 = t := by
      rw [hafter, newDate] at ht
      exact (Option.ite_none_right_eq_some.mp ht).2 |> Option.some.inj
    have hn := hclock n
    rw [Int64.le_iff_toInt_le]
    omega

omit [DecidableEq K] in
theorem mem_selected : record ∈ sortReadyJobs S now (fetchJobsByIds parse L Q ids) ↔
    ∃ id ∈ ids, getJob parse L (address (.job Q id)) = .ok record ∧ record.isReady now = true := by
  rw [(DispatchOrder.sortReadyJobs_perm S now _).mem_iff, List.mem_filter, fetchJobsByIds,
    List.mem_filterMap]
  simp only [toOption_eq_some_iff]
  constructor
  · rintro ⟨⟨id, hid, hrecord⟩, hready⟩
    exact ⟨id, hid, hrecord, hready⟩
  · rintro ⟨id, hid, hrecord, hready⟩
    exact ⟨⟨id, hid, hrecord⟩, hready⟩

omit [DecidableEq K] in
theorem selected_nodup (hv : Hosts L Q v) (hids : ids.Nodup) :
    ((sortReadyJobs S now (fetchJobsByIds parse L Q ids)).map Records.JobRecord.jobId).Nodup := by
  have hfetched : ((fetchJobsByIds parse L Q ids).map Records.JobRecord.jobId).Nodup := by
    rw [fetchJobsByIds, List.map_filterMap]
    refine hids.filterMap fun a b id ha hb => ?_
    simp only [Option.mem_def, Option.map_eq_some_iff, toOption_eq_some_iff] at ha hb
    obtain ⟨record, hrecord, rfl⟩ := ha
    obtain ⟨record', hrecord', he⟩ := hb
    exact (getJob_hosts hv hrecord).1.symm.trans (he.symm.trans (getJob_hosts hv hrecord').1)
  exact ((DispatchOrder.sortReadyJobs_perm S now _).map _).nodup_iff.mpr
    ((List.filter_sublist.map _).nodup hfetched)

/-! ### The result of a pass -/

omit [DecidableEq K] in
/-- The processed jobs, counted by their ids. -/
theorem countP_selected (hv : Hosts L W.queuePda v) :
    (sortReadyJobs S now (fetchJobsByIds parse L W.queuePda ids)).countP
        (fun record => counts host W record (seen L W.queuePda record.jobId)) =
      ids.countP fun id =>
        (taken parse now L W.queuePda id).any fun record => decide (Reportable host W record) := by
  rw [(DispatchOrder.sortReadyJobs_perm S now _).countP_eq, List.countP_filter, fetchJobsByIds,
    List.countP_filterMap]
  refine List.countP_congr fun id _ => ?_
  cases hread : getJob parse L (address (.job W.queuePda id)) with
  | error e =>
    have hnone : taken parse now L W.queuePda id = none := by simp only [taken, hread]
    rw [hnone]
    exact Iff.rfl
  | ok record =>
    have hid : record.jobId = id := (getJob_hosts hv hread).1
    have htaken : taken parse now L W.queuePda id =
        if record.isReady now = true ∧ listed L W.queuePda id = true then some record else none := by
      simp only [taken, hread]
    show (counts host W record (seen L W.queuePda record.jobId) && record.isReady now) = true ↔ _
    rw [htaken, hid]
    by_cases hboth : record.isReady now = true ∧ listed L W.queuePda id = true
    · simp only [counts, seen, hboth.1, hboth.2, Bool.and_true, Bool.true_and, and_self, if_true,
        Option.any_some]
    · rw [if_neg hboth, Option.any_none, counts, seen]
      simp only [Bool.and_eq_true, Bool.false_eq_true, iff_false]
      rintro ⟨⟨hlisted, _⟩, hready⟩
      exact hboth ⟨hready, hlisted⟩

theorem processReadyJobs_eq : processReadyJobs W host S parse now net L ids =
    (sortReadyJobs S now (fetchJobsByIds parse L W.queuePda ids)).foldl (processJob W host net) ⟨L, 0, 0⟩ := by
  unfold processReadyJobs
  split
  next hnone =>
    have hempty := (DispatchOrder.sortReadyJobs_perm S now
      (fetchJobsByIds parse L W.queuePda [])).eq_nil
    rw [List.eq_nil_of_length_eq_zero hnone, hempty]
    rfl
  next => rfl

/-- What a pass over `ids` does to each job. -/
structure Turns (W : Worker K) (host : Host) (parse : Bytes → Except String Json) (now : Int)
    (net : Connection) (L : Ledger K) (ids : List Nat) (L' : Ledger K) : Prop where
  kept : ∀ id, id ∉ ids ∨ taken parse now L W.queuePda id = none →
    seen L' W.queuePda id = seen L W.queuePda id
  turned : ∀ id ∈ ids, ∀ record, taken parse now L W.queuePda id = some record →
    ∃ j, jobAt L W.queuePda id = some j ∧ Turned W host net record j true (seen L' W.queuePda id)

variable (parse S) in
theorem pass_turns {queue : Queue K} (hL : Reachable L) (hQ : L W.queuePda = some (.queue queue))
    (hids : ids.Nodup) (hsends : host.Sends W.config net) (hattempts : 1 ≤ W.config.maxAttempts)
    (hclock : ∀ n, now / 1000 ≤ (net.clock n).toInt) :
    Between L W.queuePda (processReadyJobs W host S parse now net L ids) ∧
      Turns W host parse now net L ids (processReadyJobs W host S parse now net L ids).ledger ∧
      (processReadyJobs W host S parse now net L ids).processed = ids.countP fun id =>
        (taken parse now L W.queuePda id).any fun record => decide (Reportable host W record) := by
  obtain ⟨v, hv, _, _⟩ := reachable_queue hL hQ
  have hdue : ∀ record ∈ sortReadyJobs S now (fetchJobsByIds parse L W.queuePda ids),
      Due net.clock W.queuePda record (seen L W.queuePda record.jobId) := by
    intro record hrecord
    obtain ⟨id, _, hread, hready⟩ := mem_selected.mp hrecord
    exact due_of_ready hv hclock hread hready
  have hturn : ∀ (s : Pass K) record, Between L W.queuePda s →
      record ∈ sortReadyJobs S now (fetchJobsByIds parse L W.queuePda ids) →
      Due net.clock W.queuePda record (seen s.ledger W.queuePda record.jobId) → _ :=
    fun s record hs _ hdue => processJob_turn hsends hattempts hs hdue
  have hstart : Between L W.queuePda (⟨L, 0, 0⟩ : Pass K) := ⟨hL, ⟨v, hv⟩, fun _ _ => rfl⟩
  obtain ⟨hbetween, hturned, hrest, htotal⟩ := foldl_turns hturn (selected_nodup hv hids) hstart hdue
  rw [← processReadyJobs_eq] at hbetween hturned hrest htotal
  -- what the pass makes of a job whose record it reads and finds ready
  have hone : ∀ id ∈ ids, ∀ record, getJob parse L (address (.job W.queuePda id)) = .ok record →
      record.isReady now = true → ∃ j, jobAt L W.queuePda id = some j ∧
        Turned W host net record j (listed L W.queuePda id)
          (seen (processReadyJobs W host S parse now net L ids).ledger W.queuePda id) := by
    intro id hid record hread hready
    obtain ⟨hrecord, _, j, hj, _⟩ := getJob_hosts hv hread
    have hjob := (jobAt_hosts hv id).trans hj
    have h := hturned record (mem_selected.mpr ⟨id, hid, hread, hready⟩) j
    simp only [hrecord] at h
    exact ⟨j, hjob, h hjob⟩
  refine ⟨hbetween, ⟨fun id hid => ?_, fun id hid record htaken => ?_⟩, ?_⟩
  · by_cases hmem : id ∈ (sortReadyJobs S now (fetchJobsByIds parse L W.queuePda ids)).map
        Records.JobRecord.jobId
    · obtain ⟨record, hrecord, rfl⟩ := List.mem_map.mp hmem
      obtain ⟨id, hin, hread, hready⟩ := mem_selected.mp hrecord
      rw [(getJob_hosts hv hread).1] at hid ⊢
      have hnone : taken parse now L W.queuePda id = none := hid.resolve_left (not_not_intro hin)
      have hunlisted : listed L W.queuePda id = false := by
        rw [← Bool.not_eq_true]
        intro hlisted
        cases hnone.symm.trans (taken_eq_some.mpr ⟨hread, hready, hlisted⟩)
      obtain ⟨j, hj, hturn⟩ := hone id hin record hread hready
      have hbefore : seen L W.queuePda id = (some j, false) := by rw [seen, hj, hunlisted]
      rw [hbefore]
      rw [hunlisted] at hturn
      generalize seen _ W.queuePda id = after at hturn ⊢
      cases hturn
      rfl
    · exact hrest id hmem
  · obtain ⟨hread, hready, hlisted⟩ := taken_eq_some.mp htaken
    exact hlisted ▸ hone id hid record hread hready
  · rw [htotal, Nat.zero_add, countP_selected hv]

/-- A pass over `readyIds` from `L` to `s`: of the jobs it is given it claims
the ready ones on the first page, completes or fails those that can be reported,
and keeps the others claimed; nothing else changes. -/
structure Serves (W : Worker K) (host : Host) (parse : Bytes → Except String Json) (now : Int)
    (net : Connection) (L : Ledger K) (readyIds : List Nat) (s : Pass K) : Prop where
  kept : ∀ id, id ∉ readyIds ∨ taken parse now L W.queuePda id = none →
    jobAt s.ledger W.queuePda id = jobAt L W.queuePda id
  settled : ∀ id ∈ readyIds, ∀ record, taken parse now L W.queuePda id = some record →
    Reportable host W record → ∃ j m n, jobAt L W.queuePda id = some j ∧ m < n ∧
      jobAt s.ledger W.queuePda id =
        some (reported W (net.clock n) (outcome record) (locked (net.clock m) W.key j))
  stuck : ∀ id ∈ readyIds, ∀ record, taken parse now L W.queuePda id = some record →
    ¬Reportable host W record → ∃ j m, jobAt L W.queuePda id = some j ∧
      jobAt s.ledger W.queuePda id = some (locked (net.clock m) W.key j)
  processed : s.processed = readyIds.countP fun id =>
    (taken parse now L W.queuePda id).any fun record => decide (Reportable host W record)
  frame : Frame W.queuePda L s.ledger

theorem pass_serves {queue : Queue K} (hL : Reachable L) (hQ : L W.queuePda = some (.queue queue))
    (hids : ids.Nodup) (hsends : host.Sends W.config net) (hattempts : 1 ≤ W.config.maxAttempts)
    (hclock : ∀ n, now / 1000 ≤ (net.clock n).toInt) :
    Serves W host parse now net L ids (processReadyJobs W host S parse now net L ids) := by
  obtain ⟨hbetween, hturns, hprocessed⟩ := pass_turns parse S hL hQ hids hsends hattempts hclock
  refine ⟨fun id hid => congrArg Prod.fst (hturns.kept id hid), fun id hid record htaken hreport => ?_,
    fun id hid record htaken hlost => ?_, hprocessed, hbetween.frame⟩
  · obtain ⟨j, hj, hturn⟩ := hturns.turned id hid record htaken
    generalize hafter : seen _ W.queuePda id = after at hturn
    cases hturn with
    | stuck m hlost => exact absurd hreport hlost
    | settled m n hmn _ job hjob => exact ⟨j, m, n, hj, hmn, hjob ▸ congrArg Prod.fst hafter⟩
  · obtain ⟨j, hj, hturn⟩ := hturns.turned id hid record htaken
    generalize hafter : seen _ W.queuePda id = after at hturn
    cases hturn with
    | stuck m => exact ⟨j, m, hj, congrArg Prod.fst hafter⟩
    | settled m n hmn hreport => exact absurd hreport hlost

/-! ### Pass after pass -/

end

/-- One pass, and the ids it is given. -/
structure Round where
  now : Int
  net : Connection
  readyIds : List Nat

/-- The clock of the chain is not behind the worker's by a second or more. -/
structure Round.Regular (host : Host) (W : Worker K) (r : Round) : Prop where
  distinct : r.readyIds.Nodup
  sends : host.Sends W.config r.net
  clock : ∀ n, r.now / 1000 ≤ (r.net.clock n).toInt

section
variable {parse : Bytes → Except String Json} {record record' : Records.JobRecord K Json} {k : K}
  {S : Sorter (Records.JobRecord K Json)} {rounds : List Round} {j' : Job K}

def passes (W : Worker K) (host : Host) (S : Sorter (Records.JobRecord K Json))
    (parse : Bytes → Except String Json) (L : Ledger K) (rounds : List Round) : Ledger K :=
  rounds.foldl (fun L r => (processReadyJobs W host S parse r.now r.net L r.readyIds).ledger) L

omit [DecidableEq K] in
/-- While the job is pending, the round lists it, and the worker finds it ready. -/
def Offered (parse : Bytes → Except String Json) (Q : K) (i : Nat) (L : Ledger K) (r : Round) : Prop :=
  i ∈ r.readyIds ∧ ∀ j, jobAt L Q i = some j → j.status = .pending →
    ∃ record, getJob parse L (address (.job Q i)) = .ok record ∧ record.isReady r.now = true

omit [DecidableEq K] [AddressDerivation K] in
/-- How a job that was pending as `j` ends: by the outcome of its execution. -/
def Ends (outcome : Except String String) (j j' : Job K) : Prop :=
  match outcome with
  | .ok result => j'.status = .completed ∧ j'.result = some result ∧ j'.attempts = j.attempts + 1
  | .error errorMessage => j'.status = .failed ∧ j'.errorMessage = some errorMessage ∧
      j'.attempts = max 1 j.maxRetries

omit [DecidableEq K] [AddressDerivation K] in
/-- The outcome depends on the parts of the record that never change. -/
theorem outcome_congr (hid : record'.jobId = record.jobId) (htype : record'.jobType = record.jobType)
    (hpayload : record'.payload = record.payload) : outcome record' = outcome record := by
  have hexec : executeJob record' = executeJob record := by
    simp only [executeJob, renderResult, hid, htype, hpayload]
  rw [outcome, outcome, hexec]

omit [DecidableEq K] [AddressDerivation K] in
theorem getJob_parts {job : Job K} (hk : L k = some (.job job)) (h : getJob parse L k = .ok record) :
    record.jobId = job.jobId ∧ record.jobType = Utf16.utf16 job.jobType ∧
      parsePayload parse job.payload = .ok record.payload := by
  have hfetch : fetchJob L k = .ok job := by
    simp only [fetchJob, (loadJob_ok_iff _ _ job).mpr hk]
  simp only [getJob, hfetch, bind_ok_iff, Except.ok.injEq, exists_eq_left', pure_ok_iff,
    Snapshot.toNumber_ok_iff] at h
  obtain ⟨_, ⟨_, rfl⟩, payload, hpayload, _, _, _, _, _, _, _, _, rfl⟩ := h
  exact ⟨rfl, rfl, hpayload⟩

/-- A job that is not pending is left alone by every pass. -/
theorem passes_keep {queue : Queue K} (hL : Reachable L) (hQ : L W.queuePda = some (.queue queue))
    (hattempts : 1 ≤ W.config.maxAttempts) (hregular : ∀ r ∈ rounds, r.Regular host W)
    (hj : jobAt L W.queuePda i = some j) (hdone : j.status ≠ .pending) :
    jobAt (passes W host S parse L rounds) W.queuePda i = some j := by
  induction rounds generalizing L queue with
  | nil => exact hj
  | cons r rounds ih =>
    obtain ⟨hr, hrest⟩ := List.forall_mem_cons.mp hregular
    obtain ⟨hbetween, hturns, _⟩ := pass_turns parse S hL hQ hr.distinct hr.sends hattempts hr.clock
    obtain ⟨v, hv, _, _⟩ := reachable_queue hL hQ
    obtain ⟨v', hv'⟩ := hbetween.hosted
    have hnone : taken parse r.now L W.queuePda i = none := by
      rw [Option.eq_none_iff_forall_ne_some]
      intro record htaken
      obtain ⟨hread, hready, _⟩ := taken_eq_some.mp htaken
      obtain ⟨_, _, j', hj', hstatus, _⟩ := getJob_hosts hv hread
      cases hj.symm.trans ((jobAt_hosts hv i).trans hj')
      exact hdone (hstatus ▸ ((DispatchOrder.isReady_iff r.now record).mp hready).1)
    have hkept := congrArg Prod.fst (hturns.kept i (.inr hnone))
    exact ih hbetween.reachable hv'.view.queueAt hrest (hkept.trans hj)

omit [DecidableEq K] in
/-- Whenever the job is read, it has this outcome. -/
theorem outcome_later {L' : Ledger K} (hj : jobAt L Q i = some j) (hj' : jobAt L' Q i = some j')
    (hsame : j'.jobId = j.jobId ∧ j'.jobType = j.jobType ∧ j'.payload = j.payload)
    (h : getJob parse L (address (.job Q i)) = .ok record)
    (h' : getJob parse L' (address (.job Q i)) = .ok record') : outcome record' = outcome record := by
  obtain ⟨hid, htype, hpayload⟩ := getJob_parts (account_of_jobAt hj) h
  obtain ⟨hid', htype', hpayload'⟩ := getJob_parts (account_of_jobAt hj') h'
  rw [hsame.1] at hid'
  rw [hsame.2.1] at htype'
  rw [hsame.2.2] at hpayload'
  exact outcome_congr (hid'.trans hid.symm) (htype'.trans htype.symm)
    (Except.ok.inj (hpayload'.symm.trans hpayload))

/-- The induction: one round for each attempt that is left. -/
theorem ends_of_offered {queue : Queue K} {result : Except String String} (hL : Reachable L)
    (hQ : L W.queuePda = some (.queue queue)) (hattempts : 1 ≤ W.config.maxAttempts)
    (hregular : ∀ r ∈ rounds, r.Regular host W) (hj : jobAt L W.queuePda i = some j)
    (hpending : j.status = .pending) (hlisted : listed L W.queuePda i = true)
    (hresult : ∀ record, getJob parse L (address (.job W.queuePda i)) = .ok record →
      outcome record = result)
    (hbuilds : host.builds W result = true) (hfits : (reportText result).utf8ByteSize ≤ 128)
    (hoffered : ∀ before r after, rounds = before ++ r :: after →
      Offered parse W.queuePda i (passes W host S parse L before) r)
    (hlength : max 1 j.maxRetries - j.attempts ≤ rounds.length) :
    ∃ j', jobAt (passes W host S parse L rounds) W.queuePda i = some j' ∧ Ends result j j' := by
  induction rounds generalizing L j queue with
  | nil =>
    obtain ⟨v, hv, hinv, _⟩ := reachable_queue hL hQ
    have hbudget := (hinv.budget i j ((jobAt_hosts hv i).symm.trans hj)).fit
    simp only [AttemptsFit, hpending] at hbudget
    simp only [List.length_nil] at hlength
    omega
  | cons r rounds ih =>
    obtain ⟨v, hv, hinv, _⟩ := reachable_queue hL hQ
    have hbudget := hinv.budget i j ((jobAt_hosts hv i).symm.trans hj)
    have hfit := hbudget.fit
    simp only [AttemptsFit, hpending] at hfit
    obtain ⟨hr, hrest⟩ := List.forall_mem_cons.mp hregular
    obtain ⟨hbetween, hturns, _⟩ := pass_turns parse S hL hQ hr.distinct hr.sends hattempts hr.clock
    obtain ⟨v', hv'⟩ := hbetween.hosted
    show ∃ j', jobAt (passes W host S parse
      (processReadyJobs W host S parse r.now r.net L r.readyIds).ledger rounds) W.queuePda i = some j' ∧
        Ends result j j'
    obtain ⟨hin, hfind⟩ := hoffered [] r rounds rfl
    obtain ⟨record, hread, hready⟩ := hfind j hj hpending
    have hout := hresult record hread
    obtain ⟨j₀, hj₀, hturn⟩ := hturns.turned i hin record (taken_eq_some.mpr ⟨hread, hready, hlisted⟩)
    cases hj.symm.trans hj₀
    generalize hafter : seen _ W.queuePda i = after at hturn
    cases hturn with
    | stuck m hlost => exact absurd ((reportable_iff host W record).mp (hout ▸ ⟨hbuilds, hfits⟩)) hlost
    | settled m n hmn _ job hjob =>
      have hnow := congrArg Prod.fst hafter
      have hcount := hbudget.locked_attempts (r.net.clock m) W.key
      rw [hout] at hjob
      cases result with
      | ok text =>
        have hdone : job.status ≠ .pending := by simp [hjob, reported, finished]
        refine ⟨job, passes_keep hbetween.reachable hv'.view.queueAt hattempts hrest hnow hdone, ?_⟩
        rw [hjob]
        exact ⟨rfl, rfl, hcount⟩
      | error errorMessage =>
        by_cases hretry : (locked (r.net.clock m) W.key j).attempts < j.maxRetries
        · have hretried : job = retried (r.net.clock n) errorMessage W.retryAfterSecs
              (locked (r.net.clock m) W.key j) := hjob.trans (if_pos hretry)
          have hstatus : job.status = .pending := by rw [hretried]; rfl
          have hattempt : job.attempts = j.attempts + 1 := by rw [hretried]; exact hcount
          have hbound : job.maxRetries = j.maxRetries := by rw [hretried]; rfl
          have hsame : job.jobId = j.jobId ∧ job.jobType = j.jobType ∧ job.payload = j.payload := by
            rw [hretried]
            exact ⟨rfl, rfl, rfl⟩
          have hback := congrArg Prod.snd hafter
          rw [List.length_cons] at hlength
          obtain ⟨j', hj', hstatus', herror, hlast⟩ := ih hbetween.reachable hv'.view.queueAt hrest hnow hstatus
            (hback.trans (decide_eq_true hstatus))
            (fun record' hread' => (outcome_later hj hnow hsame hread hread').trans hout)
            (fun before r' after he => hoffered (r :: before) r' after (by rw [he, List.cons_append]))
            (by omega)
          exact ⟨j', hj', hstatus', herror, hbound ▸ hlast⟩
        · have hdead : job = deadLettered (r.net.clock n) errorMessage (locked (r.net.clock m) W.key j) :=
            hjob.trans (if_neg hretry)
          have hdone : job.status ≠ .pending := by simp [hdead, deadLettered]
          refine ⟨job, passes_keep hbetween.reachable hv'.view.queueAt hattempts hrest hnow hdone, ?_⟩
          rw [hdead]
          refine ⟨rfl, rfl, ?_⟩
          show (locked (r.net.clock m) W.key j).attempts = _
          omega

/-- A job that can be reported ends when as many passes as it has attempts left
are given its id: it is completed, or its attempts are used up. -/
theorem passes_end {queue : Queue K} (hL : Reachable L) (hQ : L W.queuePda = some (.queue queue))
    (hattempts : 1 ≤ W.config.maxAttempts) (hregular : ∀ r ∈ rounds, r.Regular host W)
    (hj : jobAt L W.queuePda i = some j) (hpending : j.status = .pending)
    (hlisted : listed L W.queuePda i = true)
    (hread : getJob parse L (address (.job W.queuePda i)) = .ok record)
    (hreport : Reportable host W record)
    (hoffered : ∀ before r after, rounds = before ++ r :: after →
      Offered parse W.queuePda i (passes W host S parse L before) r)
    (hlength : max 1 j.maxRetries - j.attempts ≤ rounds.length) :
    ∃ j', jobAt (passes W host S parse L rounds) W.queuePda i = some j' ∧ Ends (outcome record) j j' := by
  refine ends_of_offered hL hQ hattempts hregular hj hpending hlisted (fun record' hread' => ?_)
    hreport.1 ((outcome_bytes_iff record).mpr hreport.2) hoffered hlength
  cases hread.symm.trans hread'
  rfl

/-! ### A pass is a run of the worker -/

open Kit.Transition (run run_cons run_append run_singleton)

omit [AddressDerivation K] in
/-- The world after a call of `send`, by what came of it. -/
def afterSend (s : World K) (call : Call K) (jobs : List (Client.JobRecord K)) :
    Option (Ledger K) → World K
  | some L' =>
      { s.accept call.job.publicKey call.request L' with
        phase := call.returned (attemptsAt L' call.job.publicKey) jobs }
  | none => s.giveUp call jobs

/-- A call that throws before anything is signed. -/
theorem rejected_run {s : World K} {call : Call K} {jobs : List (Client.JobRecord K)}
    (hphase : s.phase = .sending call jobs) (hunsent : call.progress = .unsent) :
    run W.step s [.rejected] = some (s.giveUp call jobs) := by
  refine run_singleton.mpr ?_
  simp only [Worker.step, hphase]
  exact if_pos hunsent

section
variable (host) (net)

/-- One attempt, signed, executed and reported truthfully, or not signed at all. -/
theorem attempt_run {s : World K} {call : Call K} {jobs : List (Client.JobRecord K)}
    (jobPriority sent number : Nat) (hphase : s.phase = .sending call jobs)
    (hunsent : call.progress = .unsent) (hlast : call.attempt ≤ W.config.maxAttempts) :
    ∃ es, run W.step s es = some
      (match attempt host W.config net s.ledger (W.instruction call.job.publicKey call.request)
          jobPriority sent number with
        | some L' => afterSend s call jobs (some L')
        | none => { s with phase := .sending call.retry jobs }) := by
  have hsign : W.step s (.sign s.blockHeight) =
      some { s with phase := .sending { call with progress := .inFlight s.blockHeight } jobs } := by
    simp only [Worker.step, hphase]
    exact if_pos ⟨hunsent, hlast⟩
  by_cases hsigns : host.signs W.config jobPriority number = true
  · simp only [attempt, if_pos hsigns]
    cases hexec : Program.step s.ledger ⟨net.clock sent, W.instruction call.job.publicKey call.request⟩ with
    | some L' =>
      refine ⟨[.sign s.blockHeight, .land (net.clock sent), .confirmed], run_cons.mpr ⟨_, hsign, ?_⟩⟩
      simp only [run, Worker.step, hexec, le_refl, if_true, Option.bind_some]
      rfl
    | none =>
      refine ⟨[.sign s.blockHeight, .land (net.clock sent), .attemptFailed], run_cons.mpr ⟨_, hsign, ?_⟩⟩
      simp only [run, Worker.step, hexec, le_refl, if_true, Option.bind_some, if_pos hlast,
        Call.retry, Call.outstanding, List.append_nil]
  · -- the tip cannot be encoded: the attempt fails before anything is sent
    simp only [attempt, if_neg hsigns]
    refine ⟨[.attemptFailed], run_singleton.mpr ?_⟩
    simp only [Worker.step, hphase, if_pos hlast, Call.outstanding, hunsent, List.append_nil]

/-- The attempts of one call. -/
theorem send_run {s : World K} {call : Call K} {jobs : List (Client.JobRecord K)} {n : Nat}
    (jobPriority sent : Nat) (hphase : s.phase = .sending call jobs) (hunsent : call.progress = .unsent)
    (hn : call.attempt + n = W.config.maxAttempts + 1) :
    ∃ es, run W.step s es = some (afterSend s call jobs
      (send host W.config net s.ledger (W.instruction call.job.publicKey call.request)
        jobPriority sent n).1) := by
  induction n generalizing s call sent with
  | zero => exact ⟨[.rejected], rejected_run hphase hunsent⟩
  | succ n ih =>
    unfold send
    split
    next =>
      obtain ⟨es, hes⟩ := attempt_run (W := W) host net jobPriority sent (W.config.maxAttempts - n)
        hphase hunsent (by omega)
      split
      next L' hlanded =>
        simp only [hlanded] at hes
        exact ⟨es, hes⟩
      next hfailed =>
        simp only [hfailed] at hes
        obtain ⟨es', hes'⟩ := ih (s := { s with phase := .sending call.retry jobs }) (sent + 1) rfl rfl
          (by simp only [Call.retry]; omega)
        refine ⟨es ++ es', run_append.mpr ⟨_, hes, ?_⟩⟩
        rw [hes']
        show some (afterSend _ call.retry jobs (send host W.config net s.ledger
          (W.instruction call.job.publicKey call.request) jobPriority (sent + 1) n).1) = _
        cases (send host W.config net s.ledger (W.instruction call.job.publicKey call.request)
          jobPriority (sent + 1) n).1 <;> rfl
    next => exact ⟨[.rejected], rejected_run hphase hunsent⟩

/-- One turn of the loop, as events of the worker. -/
theorem turn_run {s : World K} {job : Client.JobRecord K} {jobs : List (Client.JobRecord K)} {t : Pass K}
    {record : Records.JobRecord K Json} (hphase : s.phase = .looping (job :: jobs))
    (hkey : job.publicKey = record.publicKey) (hledger : t.ledger = s.ledger) :
    ∃ es s', run W.step s es = some s' ∧ s'.phase = .looping jobs ∧
      s'.ledger = (processJob W host net t record).ledger ∧ s'.late = s.late ∧
      s'.reported.length + t.processed = s.reported.length + (processJob W host net t record).processed := by
  have hnext : W.step s .nextJob = some (s.takeUp job jobs) := by
    simp only [Worker.step, hphase]
  obtain ⟨es, hes⟩ : ∃ es, run W.step (s.takeUp job jobs) es = some (afterSend (s.takeUp job jobs)
      ⟨job, .claim, 1, .unsent⟩ jobs
      (send host W.config net t.ledger (W.instruction record.publicKey .claim) record.priority t.sent
        W.config.maxAttempts).1) := by
    rw [hledger, ← hkey]
    exact send_run host net record.priority t.sent rfl rfl (Nat.add_comm ..)
  have hclaim : run W.step s (.nextJob :: es) = _ := run_cons.mpr ⟨_, hnext, hes⟩
  unfold processJob
  generalize send host W.config net t.ledger (W.instruction record.publicKey .claim) record.priority t.sent
    W.config.maxAttempts = result at hclaim
  obtain ⟨_ | L₁, sent⟩ := result
  · exact ⟨_, _, hclaim, rfl, hledger.symm, rfl, rfl⟩
  · -- the claim has landed: execute the job and report
    have hbuilt : ∃ w, run W.step s (.nextJob :: es ++ [.executed (outcome record)]) = some w ∧
        w.phase = .sending
          ⟨job, report (attemptsAt L₁ job.publicKey) (outcome record), 1, .unsent⟩ jobs ∧
        w.ledger = L₁ ∧ w.late = s.late ∧ w.reported = s.reported :=
      ⟨_, run_append.mpr ⟨_, hclaim, rfl⟩, rfl, rfl, rfl, rfl⟩
    obtain ⟨w, hbuilt, hphase', rfl, hlate, hreported⟩ := hbuilt
    have hquiet : ∀ r, (⟨job, report (attemptsAt w.ledger record.publicKey) (outcome record), 1,
        .unsent⟩ : Call K).returned r jobs = .looping jobs := by
      intro r
      cases outcome record <;> rfl
    simp only
    split
    case isFalse =>
      exact ⟨_, _, run_append.mpr ⟨w, hbuilt, rejected_run hphase' rfl⟩, rfl, rfl, hlate, hreported ▸ rfl⟩
    obtain ⟨es', hes'⟩ := send_run host net record.priority sent hphase' rfl (Nat.add_comm ..)
    rw [hkey] at hes'
    have hwhole := run_append.mpr ⟨w, hbuilt, hes'⟩
    generalize send host W.config net w.ledger (W.instruction record.publicKey
      (report (attemptsAt w.ledger record.publicKey) (outcome record))) record.priority sent
        W.config.maxAttempts = result at hwhole
    obtain ⟨_ | L₂, sent⟩ := result
    · exact ⟨_, _, hwhole, rfl, rfl, hlate, by rw [← hreported]; rfl⟩
    · refine ⟨_, _, hwhole, hquiet _, rfl, hlate, ?_⟩
      have hlength : ∀ call : Call K, call.request =
            report (attemptsAt w.ledger record.publicKey) (outcome record) →
          (afterSend w call jobs (some L₂)).reported.length = w.reported.length + 1 := by
        intro call hcall
        simp only [afterSend, World.accept, hcall]
        cases outcome record <;> exact List.length_append
      show List.length (World.reported (afterSend w _ jobs (some L₂))) + t.processed =
        s.reported.length + (t.processed + 1)
      rw [hlength _ rfl, hreported]
      omega

/-- The rest of the pass. -/
theorem loop_run {s : World K} {jobs : List (Client.JobRecord K)} {t : Pass K}
    {records : List (Records.JobRecord K Json)}
    (hjobs : List.Forall₂ (fun job record => job.publicKey = record.publicKey) jobs records)
    (hphase : s.phase = .looping jobs) (hledger : t.ledger = s.ledger) :
    ∃ es s', run W.step s es = some s' ∧ s'.phase = .looping [] ∧
      s'.ledger = (records.foldl (processJob W host net) t).ledger ∧ s'.late = s.late ∧
      s'.reported.length + t.processed =
        s.reported.length + (records.foldl (processJob W host net) t).processed := by
  induction hjobs generalizing s t with
  | nil => exact ⟨[], s, rfl, hphase, hledger.symm, rfl, rfl⟩
  | cons hkey _ ih =>
    obtain ⟨es, s₁, hrun, hphase₁, hledger₁, hlate₁, hreported₁⟩ :=
      turn_run host net hphase hkey hledger
    obtain ⟨es', s₂, hrun', hphase₂, hledger₂, hlate₂, hreported₂⟩ := ih hphase₁ hledger₁.symm
    refine ⟨es ++ es', s₂, run_append.mpr ⟨s₁, hrun, hrun'⟩, hphase₂, hledger₂, hlate₂.trans hlate₁, ?_⟩
    rw [List.foldl_cons]
    omega

end

/-- Reading the jobs the pass is going to take. -/
theorem fetch_run {s : World K} {fetched : List (Client.JobRecord K)}
    {records : List (Records.JobRecord K Json)} {nowSeconds : Int64} (hphase : s.phase = .fetching fetched)
    (hrecords : ∀ record ∈ records, ∃ id j, record.publicKey = address (.job W.queuePda id) ∧
      s.ledger record.publicKey = some (.job j) ∧ j.status = .pending ∧ j.executeAfter ≤ nowSeconds) :
    ∃ es jobs, run W.step s es = some { s with phase := .fetching (fetched ++ jobs) } ∧
      List.Forall₂ (fun job record => job.publicKey = record.publicKey) jobs records ∧
      ∀ job ∈ jobs, job.ready nowSeconds = true := by
  induction records generalizing s fetched with
  | nil =>
    refine ⟨[], [], ?_, .nil, fun job hjob => absurd hjob List.not_mem_nil⟩
    rw [List.append_nil, ← hphase]
    rfl
  | cons record records ih =>
    obtain ⟨⟨id, j, hkey, hj, hpending, hready⟩, hrest⟩ := List.forall_mem_cons.mp hrecords
    have hfetch : W.step s (.fetchJob id) =
        some { s with phase := .fetching (fetched ++ [⟨address (.job W.queuePda id), j⟩]) } := by
      simp only [Worker.step, hphase, hkey ▸ hj]
    obtain ⟨es, jobs, hrun, hjobs, hall⟩ := ih (s := { s with
      phase := .fetching (fetched ++ [⟨address (.job W.queuePda id), j⟩]) }) rfl hrest
    refine ⟨.fetchJob id :: es, ⟨address (.job W.queuePda id), j⟩ :: jobs, run_cons.mpr ⟨_, hfetch, ?_⟩,
      .cons hkey.symm hjobs, List.forall_mem_cons.mpr ⟨?_, hall⟩⟩
    · rw [hrun, List.append_assoc]
      rfl
    · exact decide_eq_true ⟨hpending, hready⟩

/-- The pass is one of the runs of the worker: nothing is left in the network,
and it counts the reports that took effect. -/
theorem pass_run {queue : Queue K} {ids : List Nat} {now : Int} {nowSeconds : Int64} (hL : Reachable L)
    (hQ : L W.queuePda = some (.queue queue)) (hnow : nowSeconds.toInt = now / 1000) :
    ∃ es s', run W.step (Client.start L) es = some s' ∧ s'.phase = .looping [] ∧
      s'.ledger = (processReadyJobs W host S parse now net L ids).ledger ∧ s'.late = [] ∧
      s'.reported.length = (processReadyJobs W host S parse now net L ids).processed := by
  obtain ⟨v, hv, _, _⟩ := reachable_queue hL hQ
  have hrecords : ∀ record ∈ sortReadyJobs S now (fetchJobsByIds parse L W.queuePda ids),
      ∃ id j, record.publicKey = address (.job W.queuePda id) ∧ L record.publicKey = some (.job j) ∧
        j.status = .pending ∧ j.executeAfter ≤ nowSeconds := by
    intro record hrecord
    obtain ⟨id, _, hread, hready⟩ := mem_selected.mp hrecord
    obtain ⟨hid, hkey, _⟩ := getJob_hosts hv hread
    have hfound : Due (fun _ => nowSeconds) W.queuePda record (seen L W.queuePda record.jobId) :=
      due_of_ready hv (fun _ => hnow.ge) hread hready
    obtain ⟨_, j, hj, hpending, hdue⟩ := hfound
    exact ⟨id, j, hkey, hkey ▸ hid ▸ account_of_jobAt hj, hpending, hdue 0⟩
  obtain ⟨es, jobs, hfetch, hjobs, hready⟩ := fetch_run (s := Client.start L) rfl hrecords
  have hsort : W.step { Client.start L with phase := .fetching ([] ++ jobs) } (.sortReady nowSeconds jobs) =
      some { Client.start L with phase := .looping jobs } := by
    simp only [Worker.step, List.nil_append, List.filter_eq_self.mpr hready, List.Perm.refl, if_true]
  obtain ⟨es', s', hloop, hphase, hledger, hlate, hreported⟩ := loop_run (W := W) host net
    (s := { Client.start L with phase := .looping jobs }) (t := ⟨L, 0, 0⟩) hjobs rfl rfl
  refine ⟨es ++ .sortReady nowSeconds jobs :: es', s',
    run_append.mpr ⟨_, hfetch, run_cons.mpr ⟨_, hsort, hloop⟩⟩, hphase, ?_, hlate, ?_⟩
  · rw [hledger, processReadyJobs_eq]
  · rw [processReadyJobs_eq]
    exact hreported.trans (Nat.zero_add _)

end

end

/-! ### A job that fails, and one that cannot be reported -/

/-- The whole numbers of so many bits. -/
def encodes (bits : Nat) : JsNumber → Bool
  | .finite q => decide (q.den = 1 ∧ 0 ≤ q.num ∧ q.num < 2 ^ bits)
  | _ => false

theorem encodes_natCast {bits n : Nat} (h : n < 2 ^ bits) : encodes bits (.finite n) = true := by
  refine decide_eq_true ⟨Rat.den_natCast n, ?_⟩
  rw [Rat.num_natCast]
  exact ⟨Int.natCast_nonneg n, mod_cast h⟩

/-- Nothing is set in the environment. -/
def demoHost : Host :=
  ⟨⟨none, none, none, none, none⟩, mergeSorter _, encodes 32, encodes 64, encodes 64, true⟩

def demoNet : Connection := ⟨fun _ => .ok [.finite 3000, .finite 1000], fun _ => 3⟩

theorem demo_sends : demoHost.Sends Client.demoWorker.config demoNet := by
  have hprice : ∀ n : Nat, 1000 ≤ n → n ≤ 5000000 → demoHost.setComputeUnitPrice (.finite n) = true := by
    intro n _ hcap
    have hsize : n < 2 ^ 64 := hcap.trans_lt (by norm_num)
    simp only [demoHost]
    exact encodes_natCast hsize
  have hwhole : FeeBid.WholeFees (.ok [.finite 3000, .finite 1000]) :=
    List.forall_mem_cons.mpr ⟨⟨3000, by norm_num⟩, List.forall_mem_singleton.mpr ⟨1000, by norm_num⟩⟩
  have htip : demoHost.transfer demoHost.feeConfig.jitoTipLamports = true := by decide +kernel
  refine ⟨fun n => bids_of_percentile (q := 75) (by decide +kernel) hprice rfl (by norm_num) (by norm_num)
    hwhole, fun jobPriority attempt => ?_⟩
  rw [Host.signs, htip, Bool.or_true]

theorem demo_clock : (3000 : Int) / 1000 ≤ (3 : Int64).toInt := by decide

theorem accented_queue_start : ledgerAfter accentedStart demoQueue =
    some (.queue ⟨.wallet 0, "jobs", 1, 1, 0, 0, 3, false, 0, 255⟩) := by
  decide +kernel

def failing : Json := .object [(Utf16.utf16 "fail", .bool true)]

def failingBytes : Bytes := (DecqueueCore.toUnicode (stringify failing)).toUTF8.data.toList

def failingParse (payload : Bytes) : Except String Json :=
  if payload = failingBytes then .ok failing else .error "Unexpected token"

/-- One attempt, in a queue that allows no more. -/
def failingStart : List (Tx Key) :=
  [⟨0, initializeAt (.wallet 0) "jobs" 1⟩,
    ⟨1, enqueueAt demoQueue (.wallet 5) 0 0 failingBytes "send-email" 1 0⟩]

def failingAccount : Job Key :=
  ⟨demoQueue, 0, "send-email", failingBytes, .pending, 1, 1, 1, 0, 1, none, none, none, none, none, 255⟩

def failingJob : Records.JobRecord Key Json :=
  ⟨address (.job demoQueue 0), 0, Utf16.utf16 "send-email", failing, .pending, 1, some 1000, some 1000,
    0, 1, none, none, none, none, none⟩

theorem failing_job : ledgerAfter failingStart (address (.job demoQueue 0)) = some (.job failingAccount) := by
  decide +kernel

theorem failing_queue : ledgerAfter failingStart demoQueue =
    some (.queue ⟨.wallet 0, "jobs", 1, 1, 0, 0, 1, false, 0, 255⟩) := by
  decide +kernel

theorem failing_fetched :
    getJob failingParse (ledgerAfter failingStart) (address (.job demoQueue 0)) = .ok failingJob := by
  have hfetch : fetchJob (ledgerAfter failingStart) (address (.job demoQueue 0)) = .ok failingAccount := by
    simp only [fetchJob, loadJob, failing_job]
  have hparse : parsePayload failingParse failingAccount.payload = .ok failing := by
    simp only [parsePayload, failingParse, failingAccount, if_pos]
  simp only [getJob, bind_ok_iff, pure_ok_iff]
  exact ⟨failingAccount, hfetch, 0, rfl, failing, hparse, some 1000, rfl, some 1000, rfl,
    none, rfl, none, rfl, rfl⟩

theorem failing_reportable : Reportable demoHost Client.demoWorker failingJob :=
  (reportable_iff _ _ _).mp ⟨by decide +kernel, by decide +kernel⟩

/-- Of one job the claim lands and the report cannot, the other is reported. -/
theorem pass_serves_demo :
    (∃ j m, jobAt (ledgerAfter accentedStart) demoQueue 0 = some j ∧
      jobAt (processReadyJobs Client.demoWorker demoHost (mergeSorter _) accentedParse 3000 demoNet
        (ledgerAfter accentedStart) [0]).ledger demoQueue 0 =
          some (locked (demoNet.clock m) (.wallet 1) j)) ∧
    ∃ j m n, jobAt (ledgerAfter failingStart) demoQueue 0 = some j ∧ m < n ∧
      jobAt (processReadyJobs Client.demoWorker demoHost (mergeSorter _) failingParse 3000 demoNet
        (ledgerAfter failingStart) [0]).ledger demoQueue 0 =
          some (reported Client.demoWorker (demoNet.clock n) (outcome failingJob)
            (locked (demoNet.clock m) (.wallet 1) j)) := by
  have haccented : taken accentedParse 3000 (ledgerAfter accentedStart) demoQueue 0 = some accentedJob :=
    taken_eq_some.mpr ⟨accented_fetched, by decide, by decide +kernel⟩
  have hlost : ¬Reportable demoHost Client.demoWorker accentedJob := by
    rw [← reportable_iff, accented_outcome]
    exact fun hreport => absurd hreport.2 (Nat.not_le.mpr accented_long)
  have hfailing : taken failingParse 3000 (ledgerAfter failingStart) demoQueue 0 = some failingJob :=
    taken_eq_some.mpr ⟨failing_fetched, by decide, by decide +kernel⟩
  constructor
  · exact (pass_serves (W := Client.demoWorker) (S := mergeSorter _)
      (ledgerAfter_reachable (by decide +kernel)) accented_queue_start (List.nodup_singleton 0) demo_sends
      (by decide) (fun _ => demo_clock)).stuck 0 (List.mem_singleton_self 0) accentedJob haccented hlost
  · exact (pass_serves (W := Client.demoWorker) (S := mergeSorter _)
      (ledgerAfter_reachable (by decide +kernel)) failing_queue (List.nodup_singleton 0) demo_sends
      (by decide) (fun _ => demo_clock)).settled 0 (List.mem_singleton_self 0) failingJob hfailing
        failing_reportable

theorem passes_end_demo : ∃ j',
    jobAt (passes Client.demoWorker demoHost (mergeSorter _) failingParse (ledgerAfter failingStart)
      [⟨3000, demoNet, [0]⟩]) demoQueue 0 = some j' ∧ Ends (outcome failingJob) failingAccount j' := by
  have hreachable : Reachable (ledgerAfter failingStart) := ledgerAfter_reachable (by decide +kernel)
  have hj : jobAt (ledgerAfter failingStart) demoQueue 0 = some failingAccount := by
    simp only [jobAt, failing_job]
  have hoffered : Offered failingParse demoQueue 0 (ledgerAfter failingStart) ⟨3000, demoNet, [0]⟩ :=
    ⟨List.mem_singleton_self 0, fun _ _ _ => ⟨failingJob, failing_fetched, by decide⟩⟩
  refine passes_end (W := Client.demoWorker) hreachable failing_queue (by decide)
    (List.forall_mem_singleton.mpr ⟨List.nodup_singleton 0, demo_sends, fun _ => demo_clock⟩) hj rfl
    (by decide +kernel) failing_fetched failing_reportable ?_ (by decide)
  intro before r after he
  cases before with
  | nil =>
    cases he
    exact hoffered
  | cons r' before => simp at he

end DecQueue.WorkerPass
