import DecQueue.JobLife

/-! # Cancelling a job

`cancel_job` admits pending and processing jobs, but takes the id out of an
index page first come what may. A claim has already taken it out, so of the
two only a pending job can be cancelled. -/

namespace DecQueue.Cancellation
open State Handlers Outcomes Address Program View Refinement Reachability Invariants JobLife

variable {K : Type} [DecidableEq K] [AddressDerivation K]

/-- Some page of its queue lets the authority cancel the job at `k`, with all
that is to follow from it. -/
def Cancellable (L : Ledger K) (clock : Int64) (k : K) (job : Job K) (queue : Queue K) : Prop :=
  ∃ page, (∃ p, L page = some (.jobIndex p) ∧ p.queue = job.queue) ∧
    ∃ L' evs, exec clock L (.cancelJob ⟨job.queue, k, queue.authority, page⟩) = .ok (L', evs) ∧
      (∃ job', L' k = some (.job job') ∧ job'.status = .cancelled ∧ job'.completedAt.isSome) ∧
      (∃ queue', L' job.queue = some (.queue queue') ∧
        queue'.pendingCount + 1 = queue.pendingCount) ∧
      ∀ k' p, L' k' = some (.jobIndex p) → p.queue = job.queue → job.jobId ∉ p.jobIds

omit [DecidableEq K] in
theorem cancel_inv {Q : K} {clock : Int64} {ctx : CancelJob K} {v v' : QueueView K}
    {evs : List (Event K)} (h : QueueStep Q clock (.cancelJob ctx) v v' evs) :
    ∃ (i s : Nat) (j : Job K) (p p' : JobIndex K), ctx.job = address (.job Q i) ∧
      v.jobs[i]? = some j ∧ v.pages[s]? = some p ∧ p.removeJob j.jobId = .ok p' := by
  cases h with
  | @cancelJob v i s j p p' hjob hpage hstatus hremove =>
    exact ⟨i, s, j, p, p', rfl, hjob, hpage, hremove⟩

variable {L L' : Ledger K} {clock : Int64} {k : K} {job : Job K} {queue : Queue K}

theorem pending_of_cancel {Q authority page : K} {evs : List (Event K)} (hL : Reachable L)
    (hk : L k = some (.job job))
    (h : exec clock L (.cancelJob ⟨Q, k, authority, page⟩) = .ok (L', evs)) :
    job.status = .pending := by
  obtain ⟨Q, v, v', hv, hstep⟩ := hosts_of_exec (reachable_wellFormed hL) (by simp) h
  obtain ⟨i, s, j, p, p', hi, hj, hp, hremove⟩ := cancel_inv hstep
  have hkey : k = address (.job _ i) := hi
  subst hkey
  cases (hv.job hj).symm.trans hk
  have hid := (hv.placed.job i job hj).2.1
  have hpending := (reachable_inv hL hv).indexed.pending_of_mem hp (mem_of_removeJob hremove)
  rw [hid, pendingAt_of_some hj] at hpending
  exact eq_of_beq hpending

theorem cancellable_of_pending (hL : Reachable L) (hk : L k = some (.job job))
    (hq : L job.queue = some (.queue queue)) (hstatus : job.status = .pending) :
    Cancellable L clock k job queue := by
  obtain ⟨v, hv, hinv, hkey, hj⟩ := reachable_job hL hk
  cases Account.queue.inj (Option.some.inj (hv.view.queueAt.symm.trans hq))
  have hpending : pendingAt v.jobs job.jobId = true := by
    rw [pendingAt_of_some hj, hstatus]
    rfl
  obtain ⟨s, p, hp, hmem⟩ := hinv.indexed.page_of_pending hpending
  obtain ⟨p', hremove⟩ := removeJob_of_mem hmem
  have hstep : QueueStep job.queue clock _ v _ _ := .cancelJob hj hp (.inl hstatus) hremove
  obtain ⟨L', hexec, hnew⟩ := exec_of_queueStep hv hstep
  have hpos := hinv.counted.pending_pos hj (by rw [hstatus]; rfl)
  refine ⟨_, ⟨p, hv.page hp, (hv.placed.page s p hp).1⟩, L', _, hkey ▸ hexec,
    ⟨cancelled clock job, ?_, rfl, rfl⟩, ⟨_, hnew.view.queueAt, Nat.sub_add_cancel hpos⟩, ?_⟩
  · rw [hkey, hnew.view.jobAt, Kit.Lists.getElem?_set_of_some _ hj, if_pos rfl, Option.map_some]
  · intro k' r hk' hr hin
    have hL' : Reachable L' := hL.next ((step_eq_some L L' ⟨clock, _⟩).mpr ⟨_, hexec⟩)
    have hv' : Hosts L' job.queue _ := ⟨hnew.view, hstep.placed hv.placed⟩
    obtain ⟨w, t, hw, rfl, hrt⟩ := (reachable_wellFormed hL').page hk'
    rw [hr] at hw
    cases hv'.unique hw
    have hpending' := (reachable_inv hL' hv').indexed.pending_of_mem hrt hin
    rw [pendingAt_set hj, if_pos rfl] at hpending'
    cases hpending'

theorem cancellable_iff (hL : Reachable L) (hk : L k = some (.job job))
    (hq : L job.queue = some (.queue queue)) (clock : Int64) :
    Cancellable L clock k job queue ↔ job.status = .pending := by
  constructor
  · intro ⟨page, _, L', evs, hexec, _⟩
    exact pending_of_cancel hL hk hexec
  · exact cancellable_of_pending hL hk hq

theorem cancellable_iff_demo :
    Cancellable (ledgerAfter demoRun) 4 (address (.job demoQueue 1)) demoPending demoAccount ↔
      demoPending.status = .pending :=
  cancellable_iff demo_reachable demo_pending demo_queue 4

theorem cancel_unavailable : Reachable (ledgerAfter demoRun) ∧
    ledgerAfter demoRun (address (.job demoQueue 0)) = some (.job demoClaimed) ∧
    ledgerAfter demoRun demoClaimed.queue = some (.queue demoAccount) ∧
    demoClaimed.status = .processing ∧
    ¬Cancellable (ledgerAfter demoRun) 4 (address (.job demoQueue 0)) demoClaimed demoAccount := by
  refine ⟨demo_reachable, demo_claimed, demo_queue, rfl, ?_⟩
  intro ⟨page, _, L', evs, hexec, _⟩
  cases pending_of_cancel demo_reachable demo_claimed hexec

end DecQueue.Cancellation
