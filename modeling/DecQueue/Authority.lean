import DecQueue.AuditRecord

/-! # What only the authority of a queue may do

Pausing, growing the page list and cancelling need the signature of the
queue's authority; every other instruction leaves the fields these three write
alone, whoever signs it. While a queue is paused it takes no new jobs. -/

namespace DecQueue.Authority
open Kit.Transition Kit.Lists State Handlers Outcomes Address Program View Refinement Reachability
  Invariants JobLife AuditRecord

variable {K : Type}

def signer : Instruction K → Option K
  | .initializeQueue ctx _ _ => some ctx.authority
  | .growIndex ctx _ => some ctx.authority
  | .advanceHead _ => none
  | .enqueueJob ctx _ _ _ _ => some ctx.payer
  | .claimJob ctx => some ctx.worker
  | .completeJob ctx _ => some ctx.worker
  | .failJob ctx _ _ => some ctx.worker
  | .cancelJob ctx => some ctx.authority
  | .setQueuePaused ctx _ => some ctx.authority

/-! ### One step without the authority's signature -/

structure Guarded (v v' : QueueView K) : Prop where
  paused : v'.queue.paused = v.queue.paused
  tail : v'.head.tailIndexSeq = v.head.tailIndexSeq
  length : v'.pages.length = v.pages.length
  nextSeq : ∀ (s : Nat) p, v.pages[s]? = some p → ∃ p', v'.pages[s]? = some p' ∧ p'.nextSeq = p.nextSeq
  cancelled : ∀ (i : Nat) j', v'.jobs[i]? = some j' → j'.status = .cancelled →
    ∃ j, v.jobs[i]? = some j ∧ j.status = .cancelled

theorem Guarded.refl (v : QueueView K) : Guarded v v :=
  ⟨rfl, rfl, rfl, fun _ p h => ⟨p, h, rfl⟩, fun _ j h hs => ⟨j, h, hs⟩⟩

theorem nextSeq_set {pages : List (JobIndex K)} {s : Nat} {p : JobIndex K} (hp : pages[s]? = some p)
    (p' : JobIndex K) (hn : p'.nextSeq = p.nextSeq) :
    ∀ (t : Nat) r, pages[t]? = some r → ∃ r', (pages.set s p')[t]? = some r' ∧ r'.nextSeq = r.nextSeq :=
  exists_set (R := fun r r' => r'.nextSeq = r.nextSeq) (fun _ => rfl) hp hn

theorem cancelled_set {jobs : List (Job K)} {i : Nat} {j : Job K} (hj : jobs[i]? = some j)
    (j' : Job K) (hs : j'.status ≠ .cancelled) :
    ∀ (t : Nat) r', (jobs.set i j')[t]? = some r' → r'.status = .cancelled →
      ∃ r, jobs[t]? = some r ∧ r.status = .cancelled :=
  forall_set (P := fun t (r' : Job K) => r'.status = .cancelled →
      ∃ r, jobs[t]? = some r ∧ r.status = .cancelled)
    (fun _ r hr hc => ⟨r, hr, hc⟩) hj fun hc => absurd hc hs

section
variable [AddressDerivation K] {Q : K} {clock : Int64} {ix : Instruction K} {v v' : QueueView K}
  {evs : List (Event K)}

theorem guarded_step (h : QueueStep Q clock ix v v' evs) (hsign : signer ix ≠ some v.queue.authority) :
    Guarded v v' := by
  have hrefl := Guarded.refl v
  cases h with
  | growIndex | cancelJob | setQueuePaused => exact absurd rfl hsign
  | advanceHead => exact ⟨rfl, rfl, rfl, hrefl.nextSeq, hrefl.cancelled⟩
  | enqueueJob payer payload jobType priority executeAfter hpage =>
    exact ⟨rfl, rfl, List.length_set, nextSeq_set hpage _ rfl,
      forall_concat (P := fun t (r' : Job K) => r'.status = .cancelled →
        ∃ r, v.jobs[t]? = some r ∧ r.status = .cancelled) hrefl.cancelled rfl nofun⟩
  | claimJob worker hjob hpage hstatus hready hremove =>
    exact ⟨rfl, rfl, List.length_set, nextSeq_set hpage _ (removeJob_fields hremove).2.2.1,
      cancelled_set hjob _ nofun⟩
  | completeJob worker result hjob =>
    exact ⟨rfl, rfl, rfl, hrefl.nextSeq, cancelled_set hjob _ nofun⟩
  | retryJob worker errorMessage retryAfterSecs hjob hpage =>
    exact ⟨rfl, rfl, List.length_set, nextSeq_set hpage _ rfl, cancelled_set hjob _ nofun⟩
  | deadLetter worker errorMessage retryAfterSecs hjob =>
    exact ⟨rfl, rfl, rfl, hrefl.nextSeq, cancelled_set hjob _ nofun⟩

/-! ### A paused queue -/

def Closed (jobs : Nat) (v : QueueView K) : Prop :=
  v.queue.paused = true ∧ v.queue.jobCount = jobs ∧ v.head.totalJobs = jobs ∧ v.jobs.length = jobs

theorem closed_step {n : Nat} (hc : Closed n v) (h : QueueStep Q clock ix v v' evs)
    (hpause : ∀ authority, ix ≠ .setQueuePaused ⟨Q, authority⟩ false) : Closed n v' := by
  obtain ⟨hpaused, hcount, htotal, hlength⟩ := hc
  cases h with
  | growIndex | advanceHead => exact ⟨hpaused, hcount, htotal, hlength⟩
  | enqueueJob payer payload jobType priority executeAfter hpage hpayload htype hpriority hopen =>
    rw [hpaused] at hopen
    cases hopen
  | claimJob | completeJob | retryJob | deadLetter | cancelJob =>
    exact ⟨hpaused, hcount, htotal, List.length_set.trans hlength⟩
  | setQueuePaused paused =>
    cases paused with
    | false => exact absurd rfl (hpause v.queue.authority)
    | true => exact ⟨rfl, hcount, htotal, hlength⟩

end

/-! ### On the ledger -/

section
variable [AddressDerivation K] {L L' : Ledger K} {Q : K}

/-- What a step of `Q` leaves alone when its authority has not signed. -/
structure Unprivileged (L L' : Ledger K) (Q : K) (queue queue' : Queue K) (head head' : QueueHead K) :
    Prop where
  paused : queue'.paused = queue.paused
  tail : head'.tailIndexSeq = head.tailIndexSeq
  pages : ∀ k, (∃ page, L' k = some (.jobIndex page) ∧ page.queue = Q) ↔
    ∃ page, L k = some (.jobIndex page) ∧ page.queue = Q
  nextSeq : ∀ k page page', L k = some (.jobIndex page) → page.queue = Q →
    L' k = some (.jobIndex page') → page'.nextSeq = page.nextSeq
  cancelled : ∀ k job', L' k = some (.job job') → job'.queue = Q → job'.status = .cancelled →
    statusAt L k = some .cancelled

theorem page_iff {v : QueueView K} (hL : WellFormed L) (hv : Hosts L Q v) (k : K) :
    (∃ page, L k = some (.jobIndex page) ∧ page.queue = Q) ↔
      ∃ s, s < v.pages.length ∧ k = address (.index Q s) := by
  constructor
  · rintro ⟨page, hk, rfl⟩
    obtain ⟨w, s, hw, hkey, hp⟩ := hL.page hk
    cases hv.unique hw
    exact ⟨s, (List.getElem?_eq_some_iff.mp hp).1, hkey⟩
  · rintro ⟨s, hs, rfl⟩
    have hp := List.getElem?_eq_getElem hs
    exact ⟨_, hv.page hp, (hv.placed.page s _ hp).1⟩

theorem unprivileged_of_guarded {v v' : QueueView K} (hL : WellFormed L) (hL' : WellFormed L')
    (hv : Hosts L Q v) (hv' : Hosts L' Q v') (h : Guarded v v') :
    Unprivileged L L' Q v.queue v'.queue v.head v'.head := by
  refine ⟨h.paused, h.tail, fun k => ?_, ?_, ?_⟩
  · rw [page_iff hL' hv', page_iff hL hv, h.length]
  · rintro k page page' hk rfl hk'
    obtain ⟨w, s, hw, rfl, hp⟩ := hL.page hk
    cases hv.unique hw
    obtain ⟨r, hr, hnext⟩ := h.nextSeq s page hp
    cases (hv'.page hr).symm.trans hk'
    exact hnext
  · rintro k job' hk' rfl hs
    obtain ⟨w, i, hw, rfl, hj'⟩ := hL'.job hk'
    cases hv'.unique hw
    obtain ⟨j, hj, hcancelled⟩ := h.cancelled i job' hj' hs
    rw [statusAt_job (hv.job hj), hcancelled]

/-- No job has been created in `Q` between `L` and `L'`. -/
structure NoNewJobs (L L' : Ledger K) (Q : K) : Prop where
  jobs : ∀ k job', L' k = some (.job job') → job'.queue = Q → ∃ job, L k = some (.job job)
  counters : ∃ queue queue' head head', L Q = some (.queue queue) ∧ L' Q = some (.queue queue') ∧
    L (address (.queueHead Q)) = some (.queueHead head) ∧
    L' (address (.queueHead Q)) = some (.queueHead head') ∧
    queue'.jobCount = queue.jobCount ∧ head'.totalJobs = head.totalJobs

theorem noNewJobs_of_closed {v v' : QueueView K} {n : Nat} (hL' : WellFormed L') (hv : Hosts L Q v)
    (hv' : Hosts L' Q v') (hc : Closed n v) (hc' : Closed n v') : NoNewJobs L L' Q := by
  obtain ⟨_, hcount, htotal, hlength⟩ := hc
  obtain ⟨_, hcount', htotal', hlength'⟩ := hc'
  refine ⟨?_, v.queue, v'.queue, v.head, v'.head, hv.view.queueAt, hv'.view.queueAt,
    hv.view.headAt, hv'.view.headAt, hcount'.trans hcount.symm, htotal'.trans htotal.symm⟩
  rintro k job' hk' rfl
  obtain ⟨w, i, hw, rfl, hj'⟩ := hL'.job hk'
  cases hv'.unique hw
  have hlt := (List.getElem?_eq_some_iff.mp hj').1
  rw [hlength', ← hlength] at hlt
  exact ⟨_, hv.job (List.getElem?_eq_getElem hlt)⟩

variable [DecidableEq K]

theorem head_authority {v : QueueView K} (hL : Reachable L) (hv : Hosts L Q v) :
    v.head.authority = v.queue.authority := by
  apply reachable_invariant (I := fun _ v => v.head.authority = v.queue.authority) _ _ hL hv
  · intro clock authority Q queueName maxRetries _
    rfl
  · intro Q clock ix v v' evs hq h hstep
    have hkept := kept_step hq hstep
    exact hkept.head.authority.trans (h.trans hkept.queue.authority.symm)

theorem closed_run {v : QueueView K} {n : Nat} {txs : List (Tx K)} (hL : WellFormed L)
    (hv : Hosts L Q v) (hc : Closed n v) (hrun : run step L txs = some L')
    (hpause : ∀ tx ∈ txs, ∀ authority, tx.ix ≠ .setQueuePaused ⟨Q, authority⟩ false) :
    ∃ v', Hosts L' Q v' ∧ Closed n v' := by
  refine (run_meets (P := fun M => WellFormed M ∧ ∃ w, Hosts M Q w ∧ Closed n w)
    (C := fun _ tx => ∀ authority, tx.ix ≠ .setQueuePaused ⟨Q, authority⟩ false) ?_ ⟨hL, v, hv, hc⟩
    (meets_of_forall fun tx htx _ => hpause tx htx) hrun).2
  intro M tx M' ⟨hM, w, hw, hc⟩ hix h
  refine ⟨wellFormed_step M tx M' hM h, ?_⟩
  obtain ⟨w', hw', rfl | ⟨evs, hstep⟩⟩ := hosts_step hM hw h
  · exact ⟨w', hw', hc⟩
  · exact ⟨w', hw', closed_step hc hstep hix⟩

structure AuthorityBoundary (L : Ledger K) (Q : K) (queue : Queue K) (head : QueueHead K) : Prop where
  headAuthority : head.authority = queue.authority
  fixed : ∀ txs L', run step L txs = some L' → ∃ queue' head', L' Q = some (.queue queue') ∧
    L' (address (.queueHead Q)) = some (.queueHead head') ∧ queue'.authority = queue.authority ∧
    queue'.name = queue.name ∧ queue'.maxRetries = queue.maxRetries ∧
    queue'.createdAt = queue.createdAt ∧ head'.authority = queue'.authority
  unprivileged : ∀ tx L', step L tx = some L' → signer tx.ix ≠ some queue.authority →
    ∃ queue' head', L' Q = some (.queue queue') ∧
      L' (address (.queueHead Q)) = some (.queueHead head') ∧
      Unprivileged L L' Q queue queue' head head'
  /-- between pausing the queue and opening it again -/
  paused : ∀ clock authority L₁ txs L₂,
    step L ⟨clock, .setQueuePaused ⟨Q, authority⟩ true⟩ = some L₁ → run step L₁ txs = some L₂ →
      (∀ tx ∈ txs, ∀ a, tx.ix ≠ .setQueuePaused ⟨Q, a⟩ false) → NoNewJobs L₁ L₂ Q

theorem closed_of_pause {clock : Int64} {authority : K} (hL : Reachable L)
    (h : step L ⟨clock, .setQueuePaused ⟨Q, authority⟩ true⟩ = some L') :
    ∃ v, Hosts L' Q v ∧ Closed v.jobs.length v := by
  obtain ⟨evs, heff⟩ := effect_of_step (reachable_wellFormed hL) h
  cases heff with
  | @act Q v v' _ _ hv hstep hnew =>
    have hplaced := hstep.placed hv.placed
    cases hstep with
    | setQueuePaused =>
      have htotal := (reachable_inv hL hv).counted.total
      exact ⟨_, ⟨hnew.view, hplaced⟩, rfl, hplaced.jobCount, htotal, rfl⟩

theorem authority_boundary (hL : Reachable L) {queue : Queue K} (hQ : L Q = some (.queue queue)) :
    ∃ head, L (address (.queueHead Q)) = some (.queueHead head) ∧
      AuthorityBoundary L Q queue head := by
  have hwf := reachable_wellFormed hL
  obtain ⟨v, hv, _, rfl⟩ := reachable_queue hL hQ
  refine ⟨v.head, hv.view.headAt, head_authority hL hv, ?_, ?_, ?_⟩
  · intro txs L' hrun
    obtain ⟨data, hQ', hsame⟩ := account_run hwf hrun hv.view.queueAt
    cases hsame with
    | @queue _ q h =>
      have hL' := hL.extend hrun
      obtain ⟨w, hw, hq⟩ := (reachable_wellFormed hL').queue hQ'
      exact ⟨q, w.head, hQ', hw.view.headAt, h.authority, h.name, h.maxRetries, h.createdAt,
        hq ▸ head_authority hL' hw⟩
  · intro tx L' h hsign
    have hwf' := wellFormed_step L tx L' hwf h
    obtain ⟨v', hv', hstep⟩ := hosts_step hwf hv h
    refine ⟨v'.queue, v'.head, hv'.view.queueAt, hv'.view.headAt,
      unprivileged_of_guarded hwf hwf' hv hv' ?_⟩
    obtain rfl | ⟨evs, hstep⟩ := hstep
    · exact .refl _
    · exact guarded_step hstep hsign
  · intro clock authority L₁ txs L₂ hpause hrun hopen
    obtain ⟨v₁, hv₁, hc₁⟩ := closed_of_pause hL hpause
    have hwf₁ := wellFormed_step L _ L₁ hwf hpause
    obtain ⟨v₂, hv₂, hc₂⟩ := closed_run hwf₁ hv₁ hc₁ hrun hopen
    exact noNewJobs_of_closed (reachable_wellFormed ((hL.next hpause).extend hrun)) hv₁ hv₂ hc₁ hc₂

end

theorem authority_boundary_demo : ∃ head,
    ledgerAfter demoRun (address (.queueHead demoQueue)) = some (.queueHead head) ∧
      AuthorityBoundary (ledgerAfter demoRun) demoQueue demoAccount head :=
  authority_boundary demo_reachable demo_queue

end DecQueue.Authority
