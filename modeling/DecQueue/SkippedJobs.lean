import DecQueue.Client

/-! # Jobs the worker skips

When all attempts to claim a job are reported as failed, the worker goes on to
the next job. It does not look at the ledger: a claim that took effect all the
same, or takes effect later, leaves it with a job it does not know it holds. -/

namespace DecQueue.SkippedJobs
open Kit.Transition State Address Program View Refinement Reachability JobLife Lock Client

variable {K : Type}

def landedClaim (call : Call K) : Bool :=
  match call.request, call.progress with
  | .claim, .landed _ => true
  | _, _ => false

def claiming : Phase K → Option K
  | .sending call _ => if call.request = .claim then some call.job.publicKey else none
  | _ => none

def isLand : WorldEvent K → Bool
  | .land _ => true
  | _ => false

/-- The event reports a claim as failed that took effect. -/
def misreports (s : World K) : WorldEvent K → Bool
  | .attemptFailed =>
      match s.phase with
      | .sending call _ => landedClaim call
      | _ => false
  | _ => false

def takenUp (s : World K) : WorldEvent K → Option K
  | .nextJob =>
      match s.phase with
      | .looping (job :: _) => some job.publicKey
      | _ => none
  | _ => none

theorem landedClaim_unsent {call : Call K} (h : call.progress = .unsent) : landedClaim call = false := by
  unfold landedClaim
  rw [h]
  cases call.request <;> rfl

theorem landedClaim_inFlight {call : Call K} {lastValidBlockHeight : Nat}
    (h : call.progress = .inFlight lastValidBlockHeight) : landedClaim call = false := by
  unfold landedClaim
  rw [h]
  cases call.request <;> rfl

def SkippedFree (W : Worker K) (s : World K) : Prop := ∀ k ∈ s.skipped, ¬Held s.ledger k W.key

variable [DecidableEq K] [AddressDerivation K]

structure Settled (W : Worker K) (s : World K) (e : WorldEvent K) : Prop where
  /-- while a job is being claimed, and once it is skipped, no other transaction claims it -/
  own : ∀ k ∈ W.claimTaken s e, isLand e = true ∨ (k ∉ s.skipped ∧ claiming s.phase ≠ some k)
  told : misreports s e = false
  free : ∀ k ∈ takenUp s e, ¬Held s.ledger k W.key

theorem settled_iff {W : Worker K} {s : World K} {e : WorldEvent K} :
    Settled W s e ↔
      (∀ k ∈ W.claimTaken s e, isLand e = true ∨ (k ∉ s.skipped ∧ claiming s.phase ≠ some k)) ∧
        misreports s e = false ∧ ∀ k ∈ takenUp s e, ¬Held s.ledger k W.key :=
  ⟨fun h => ⟨h.own, h.told, h.free⟩, fun h => ⟨h.1, h.2.1, h.2.2⟩⟩

instance (W : Worker K) (s : World K) (e : WorldEvent K) : Decidable (Settled W s e) :=
  decidable_of_iff _ settled_iff.symm

structure Safe (W : Worker K) (s : World K) : Prop where
  reachable : Reachable s.ledger
  skipped : SkippedFree W s
  claims : ∀ call jobs, s.phase = .sending call jobs → call.request = .claim →
    call.job.publicKey ∉ s.skipped ∧
      (Held s.ledger call.job.publicKey W.key → landedClaim call = true)

variable {W : Worker K} {s s' : World K} {e : WorldEvent K} {k : K}

theorem Safe.of_quiet (hs : Safe W s) (hledger : s'.ledger = s.ledger) (hskip : s'.skipped = s.skipped)
    (hphase : ∀ call jobs, s'.phase = .sending call jobs → call.request = .claim →
      call.job.publicKey ∉ s.skipped ∧
        (Held s.ledger call.job.publicKey W.key → landedClaim call = true)) : Safe W s' := by
  refine ⟨hledger ▸ hs.reachable, ?_, ?_⟩
  · intro k hk
    rw [hledger]
    exact hs.skipped k (hskip ▸ hk)
  · rw [hledger, hskip]
    exact hphase

/-- A transaction outside the attempt in progress. -/
theorem Safe.of_foreign (hs : Safe W s) (h : W.step s e = some s') (hphase : s'.phase = s.phase)
    (hskip : s'.skipped = s.skipped)
    (hown : ∀ k ∈ W.claimTaken s e, k ∉ s.skipped ∧ claiming s.phase ≠ some k) : Safe W s' := by
  have hstep := worldStep_of_step h
  refine ⟨reachable_ledger hs.reachable (run_singleton.mpr h), ?_, ?_⟩
  · intro k hk hheld
    obtain ⟨hbefore, _⟩ | htaken := hstep.held hs.reachable hheld
    · exact hs.skipped k (hskip ▸ hk) hbefore
    · exact (hown k htaken).1 (hskip ▸ hk)
  · intro call jobs hc hclaim
    rw [hphase] at hc
    obtain ⟨hnot, hlanded⟩ := hs.claims call jobs hc hclaim
    refine ⟨hskip ▸ hnot, fun hheld => ?_⟩
    obtain ⟨hbefore, _⟩ | htaken := hstep.held hs.reachable hheld
    · exact hlanded hbefore
    · refine absurd ?_ (hown _ htaken).2
      rw [hc]
      exact if_pos hclaim

/-- As long as its transaction has not taken effect, the job of a claim is not held. -/
theorem Safe.not_held (hs : Safe W s) {call : Call K} {jobs : List (JobRecord K)}
    (hphase : s.phase = .sending call jobs) (hclaim : call.request = .claim)
    (hnot : landedClaim call = false) : ¬Held s.ledger call.job.publicKey W.key := by
  intro hheld
  rw [(hs.claims call jobs hphase hclaim).2 hheld] at hnot
  cases hnot

theorem Safe.step (hs : Safe W s) (hcond : Settled W s e) (h : W.step s e = some s') : Safe W s' := by
  have hw := worldStep_of_step h
  have hstep := hw
  cases hw with
  | chain htx =>
    exact hs.of_foreign h rfl rfl fun k hk => (hcond.own k hk).resolve_left Bool.false_ne_true
  | landLate htx hvalid hland =>
    exact hs.of_foreign h rfl rfl fun k hk => (hcond.own k hk).resolve_left Bool.false_ne_true
  | blocks | refuseLate => exact hs.of_quiet rfl rfl hs.claims
  | fetchJob | sortReady | passEnds =>
    refine hs.of_quiet rfl rfl ?_
    intro call jobs hc
    cases hc
  | @nextJob job jobs hphase =>
    refine ⟨hs.reachable, fun k hk => hs.skipped k (List.mem_filter.mp hk).1, ?_⟩
    intro call jobs' hc _
    cases hc
    refine ⟨fun hk => ?_, fun hheld => ?_⟩
    · exact of_decide_eq_true (List.mem_filter.mp hk).2 rfl
    · refine absurd hheld (hcond.free job.publicKey ?_)
      simp only [takenUp, hphase, Option.mem_def]
  | @sign call jobs lastValidBlockHeight hphase hunsent =>
    refine hs.of_quiet rfl rfl ?_
    intro call' jobs' hc hclaim
    cases hc
    have hfree := hs.not_held hphase hclaim (landedClaim_unsent hunsent)
    exact ⟨(hs.claims call jobs hphase hclaim).1, fun hheld => absurd hheld hfree⟩
  | @land call jobs clock L hphase hland =>
    refine ⟨reachable_ledger hs.reachable (run_singleton.mpr h), ?_, ?_⟩
    · intro k hk hheld
      obtain ⟨hbefore, _⟩ | htaken := hstep.held hs.reachable hheld
      · exact hs.skipped k hk hbefore
      · simp only [Worker.claimTaken, hphase] at htaken
        obtain ⟨hclaim, rfl⟩ := claimOf_instruction htaken
        exact (hs.claims call jobs hphase hclaim).1 hk
    · intro call' jobs' hc hclaim
      cases hc
      refine ⟨(hs.claims call jobs hphase hclaim).1, fun _ => ?_⟩
      simp only [landedClaim, show call.request = .claim from hclaim]
  | @refuse call jobs clock lastValidBlockHeight hphase hflight =>
    refine hs.of_quiet rfl rfl ?_
    intro call' jobs' hc hclaim
    cases hc
    have hfree := hs.not_held hphase hclaim (landedClaim_inFlight hflight)
    exact ⟨(hs.claims call jobs hphase hclaim).1, fun hheld => absurd hheld hfree⟩
  | @attemptFailed call jobs hphase =>
    have hnot : landedClaim call = false := by
      have htold := hcond.told
      simpa only [misreports, hphase] using htold
    refine hs.of_quiet rfl rfl ?_
    intro call' jobs' hc hclaim
    cases hc
    have hfree := hs.not_held hphase hclaim hnot
    exact ⟨(hs.claims call jobs hphase hclaim).1, fun hheld => absurd hheld hfree⟩
  | @confirmed call jobs attempts hphase hlanded =>
    refine hs.of_quiet rfl rfl ?_
    intro call' jobs' hc
    simp only [Call.returned] at hc
    split at hc <;> cases hc
  | @rejected call jobs hphase hunsent =>
    refine ⟨hs.reachable, ?_, ?_⟩
    · intro k hk
      simp only [World.giveUp] at hk
      split at hk
      next hclaim =>
        obtain rfl | hk := List.mem_cons.mp hk
        · exact hs.not_held hphase hclaim (landedClaim_unsent hunsent)
        · exact hs.skipped k hk
      next => exact hs.skipped k hk
    · intro call' jobs' hc
      cases hc
  | @executed job held jobs outcome hphase =>
    refine hs.of_quiet rfl rfl ?_
    intro call' jobs' hc hclaim
    cases hc
    cases outcome <;> cases hclaim

theorem safe_start {L : Ledger K} (hL : Reachable L) : Safe W (start L) := by
  refine ⟨hL, nofun, ?_⟩
  intro call jobs hc
  cases hc

theorem skipped_free {L : Ledger K} (hL : Reachable L) {es : List (WorldEvent K)}
    (hrun : run W.step (start L) es = some s)
    (hcond : Meets W.step (Settled W) (start L) es) : SkippedFree W s := by
  have hs := run_meets (P := Safe W) (fun _ _ _ hP hC h => hP.step hC h) (safe_start hL) hcond hrun
  exact hs.skipped

/-- Another worker is faster: the claim is refused, all attempts fail. -/
theorem skipped_free_demo :
    ∃ s, run demoWorker.step (start (ledgerAfter demoStart))
        (demoTakeUp ++ [.sign 150, .chain ⟨3, claimAt demoQueue (.wallet 2) 0 0⟩, .land 4,
          .attemptFailed, .attemptFailed, .attemptFailed, .attemptFailed, .rejected]) = some s ∧
      s.skipped = [address (.job demoQueue 0)] ∧ SkippedFree demoWorker s := by
  have hrun : (run demoWorker.step (start (ledgerAfter demoStart))
      (demoTakeUp ++ [.sign 150, .chain ⟨3, claimAt demoQueue (.wallet 2) 0 0⟩, .land 4,
        .attemptFailed, .attemptFailed, .attemptFailed, .attemptFailed, .rejected])).map World.skipped =
      some [address (.job demoQueue 0)] := by decide
  obtain ⟨s, hs, hskipped⟩ := Option.map_eq_some_iff.mp hrun
  exact ⟨s, hs, hskipped, skipped_free (ledgerAfter_reachable demoStart_accepted) hs (by decide)⟩

/-- The first attempt takes effect and is reported as failed; the others are
refused, since the job is no longer pending. -/
def demoMisreported : List (WorldEvent Key) :=
  demoTakeUp ++ [.sign 150, .land 3, .attemptFailed, .attemptFailed, .attemptFailed, .attemptFailed,
    .rejected]

theorem skipped_held :
    ∃ s, run demoWorker.step (start (ledgerAfter demoStart)) demoMisreported = some s ∧
      s.skipped = [address (.job demoQueue 0)] ∧
      Held s.ledger (address (.job demoQueue 0)) demoWorker.key ∧ ¬SkippedFree demoWorker s := by
  have hrun : (run demoWorker.step (start (ledgerAfter demoStart)) demoMisreported).map (fun s =>
      (s.skipped, decide (Held s.ledger (address (.job demoQueue 0)) demoWorker.key))) =
        some ([address (.job demoQueue 0)], true) := by decide
  obtain ⟨s, hs, hboth⟩ := Option.map_eq_some_iff.mp hrun
  obtain ⟨hskipped, hheld⟩ := Prod.mk.inj hboth
  have hheld := of_decide_eq_true hheld
  refine ⟨s, hs, hskipped, hheld, fun h => ?_⟩
  exact h _ (hskipped ▸ List.mem_cons_self ..) hheld

end DecQueue.SkippedJobs
