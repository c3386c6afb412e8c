import DecQueue.Client
import DecQueue.HeadCoverage

/-! # The page a caller names (client/worker.ts, app/src)

The worker and the dashboard always name the first page of a queue: to claim
a job, to retry it and to cancel it. That is the right page as long as every
id is on it and the head has not moved on while jobs are processed. Four
instructions can end this state, each under its own condition. -/

namespace DecQueue.PageChoice
open Kit.Fallible Kit.Lists Kit.Transition State Handlers Outcomes Address Program View Refinement
  Reachability Invariants Client HeadCoverage

variable {K : Type}

/-! ### One queue -/

/-- Ids are on the first page only, and it is the head page while jobs are processed. -/
structure OnFirstPage (v : QueueView K) : Prop where
  later : ∀ (s : Nat) p, v.pages[s]? = some p → s ≠ 0 → p.jobIds = []
  head : ∀ (i : Nat) j, v.jobs[i]? = some j → j.status = .processing → v.head.headIndexSeq = 0

theorem later_set {pages : List (JobIndex K)} {s : Nat} {p : JobIndex K}
    (h : ∀ (t : Nat) q, pages[t]? = some q → t ≠ 0 → q.jobIds = []) (hp : pages[s]? = some p)
    (p' : JobIndex K) (hs : s ≠ 0 → p'.jobIds = []) :
    ∀ (t : Nat) q, (pages.set s p')[t]? = some q → t ≠ 0 → q.jobIds = [] :=
  forall_set (P := fun t (q : JobIndex K) => t ≠ 0 → q.jobIds = []) h hp hs

theorem head_set {jobs : List (Job K)} {i n : Nat} {j : Job K}
    (h : ∀ (t : Nat) r, jobs[t]? = some r → r.status = .processing → n = 0) (hj : jobs[i]? = some j)
    (j' : Job K) (hs : j'.status ≠ .processing) :
    ∀ (t : Nat) r, (jobs.set i j')[t]? = some r → r.status = .processing → n = 0 :=
  forall_set (P := fun _ (r : Job K) => r.status = .processing → n = 0) h hj fun he => absurd he hs

theorem OnFirstPage.remove {v : QueueView K} (h : OnFirstPage v) {s : Nat} {p p' : JobIndex K} {id : Nat}
    (hp : v.pages[s]? = some p) (hremove : p.removeJob id = .ok p') : s = 0 := by
  by_contra hs
  have hmem := mem_of_removeJob hremove
  rw [h.later s p hp hs] at hmem
  exact List.not_mem_nil hmem

theorem firstPage {v : QueueView K} (hinv : Inv v) : ∃ p, v.pages[0]? = some p := hinv.linked.page (Nat.zero_le _)

theorem OnFirstPage.page_of_pending {v : QueueView K} (h : OnFirstPage v) (hinv : Inv v) {job : Job K}
    (hj : v.jobs[job.jobId]? = some job) (hstatus : job.status = .pending) :
    ∃ p, v.pages[0]? = some p ∧ job.jobId ∈ p.jobIds := by
  have hpending : pendingAt v.jobs job.jobId = true := by
    rw [pendingAt_of_some hj, hstatus]
    rfl
  obtain ⟨s, p, hp, hmem⟩ := hinv.indexed.page_of_pending hpending
  have hs : s = 0 := by
    by_contra hne
    rw [h.later s p hp hne] at hmem
    exact List.not_mem_nil hmem
  exact ⟨p, hs ▸ hp, hmem⟩

section
variable [AddressDerivation K] {Q : K} {clock : Int64} {ix : Instruction K} {v v' : QueueView K}
  {evs : List (Event K)}

theorem onFirstPage_initial (clock : Int64) (authority Q : K) (queueName : String) (maxRetries : Nat) :
    OnFirstPage (initial clock authority Q queueName maxRetries) := by
  refine ⟨fun s p hp hs => ?_, fun i j hj => ?_⟩
  · cases s with
    | zero => exact absurd rfl hs
    | succ s => simp [initial] at hp
  · simp [initial] at hj

/-- What an instruction must meet to leave all ids on the first page. -/
def StaysFirst (Q : K) (v : QueueView K) : Instruction K → Prop
  | .enqueueJob _ _ _ _ _ => v.head.tailIndexSeq = 0
  | .failJob ctx _ _ => ∀ i j, ctx.job = address (.job Q i) → v.jobs[i]? = some j →
      j.attempts < j.maxRetries → ctx.retryIndexPage = address (.index Q 0)
  | .advanceHead _ => ∀ (i : Nat) j, v.jobs[i]? = some j → j.status ≠ .processing
  | .claimJob _ => v.head.headIndexSeq = 0
  | _ => True

/-- A step from such a state leads to such a state exactly when it meets its condition. -/
theorem onFirstPage_step (hinv : Inv v) (h : OnFirstPage v) (hstep : QueueStep Q clock ix v v' evs) :
    OnFirstPage v' ↔ StaysFirst Q v ix := by
  cases hstep with
  | @growIndex v tail hpage hfree hlimit hfull =>
    have hset := later_set h.later hpage { tail with nextSeq := v.head.tailIndexSeq + 1 }
      (h.later _ tail hpage)
    have hall := forall_concat (P := fun t (q : JobIndex K) => t ≠ 0 → q.jobIds = []) hset rfl
      (b := ⟨Q, v.head.tailIndexSeq + 1, 0, [], bumpOf (.index Q (v.head.tailIndexSeq + 1))⟩)
      fun _ => rfl
    exact ⟨fun _ => trivial, fun _ => ⟨hall, h.head⟩⟩
  | @advanceHead v page hpage hempty hnext =>
    have hnext := (hinv.linked.advance hpage hnext).1
    refine ⟨fun h' i j hj hs => ?_, fun hc => ⟨h.later, fun i j hj hs => absurd hs (hc i j hj)⟩⟩
    have hzero : page.nextSeq = 0 := h'.head i j hj hs
    omega
  | @enqueueJob v tail payer payload jobType priority executeAfter hpage =>
    refine ⟨fun h' => ?_, fun hc => ⟨later_set h.later hpage _ fun hs => absurd hc hs, ?_⟩⟩
    · by_contra hs
      have hmem := h'.later v.head.tailIndexSeq _ ((getElem?_set_of_some _ hpage _).trans (if_pos rfl)) hs
      exact List.append_ne_nil_of_right_ne_nil _ (List.cons_ne_nil _ _) hmem
    · exact forall_concat (P := fun _ (r : Job K) => r.status = .processing → v.head.headIndexSeq = 0)
        h.head rfl fun hs => nomatch hs
  | @claimJob v i s j p p' worker hjob hpage hstatus hready hremove =>
    have hs := h.remove hpage hremove
    refine ⟨fun h' => ?_, fun hc => ⟨later_set h.later hpage _ fun hne => absurd hs hne, fun _ _ _ _ => hc⟩⟩
    exact h'.head i _ ((getElem?_set_of_some _ hjob _).trans (if_pos rfl)) rfl
  | @completeJob v i j worker result hjob =>
    exact ⟨fun _ => trivial, fun _ => ⟨h.later, head_set h.head hjob _ (by simp [finished])⟩⟩
  | @retryJob v i s j p worker errorMessage retryAfterSecs hjob hpage hretry hmay hroom =>
    have hjobs := head_set h.head hjob (retried clock errorMessage retryAfterSecs j)
      (by simp [retried])
    constructor
    · intro h' i' j' hi hj' _
      by_contra hne
      have hs : s ≠ 0 := fun hs => hne (congrArg (fun n => address (.index Q n)) hs)
      have hmem := h'.later s _ ((getElem?_set_of_some _ hpage _).trans (if_pos rfl)) hs
      exact List.append_ne_nil_of_right_ne_nil _ (List.cons_ne_nil _ _) hmem
    · intro hc
      have he := address_injective (hc i j rfl hjob hretry)
      cases he
      exact ⟨later_set h.later hpage _ fun hs => absurd rfl hs, hjobs⟩
  | @deadLetter v i s j p worker errorMessage retryAfterSecs hjob hpage hdead =>
    refine ⟨fun _ i' j' hi hj' hretry => ?_, fun _ =>
      ⟨h.later, head_set h.head hjob _ (by simp [deadLettered])⟩⟩
    cases address_injective hi
    cases hj'.symm.trans hjob
    exact absurd hretry hdead
  | @cancelJob v i s j p p' hjob hpage hstatus hremove =>
    have hs := h.remove hpage hremove
    exact ⟨fun _ => trivial, fun _ => ⟨later_set h.later hpage _ fun hne => absurd hs hne,
      head_set h.head hjob _ (by simp [cancelled])⟩⟩
  | setQueuePaused => exact ⟨fun _ => trivial, fun _ => ⟨h.later, h.head⟩⟩

end

/-! ### What the callers send -/

section
variable [AddressDerivation K]

def cancelJobWithProgram (authority queuePda jobPda : K) (indexPageSeq : Option Nat) : Instruction K :=
  .cancelJob ⟨queuePda, jobPda, authority, address (.index queuePda (indexPageSeq.getD 0))⟩

def cancelJobFromWallet (wallet queuePda jobPda : K) : Instruction K :=
  cancelJobWithProgram wallet queuePda jobPda (some 0)

end

def sourcePage : Instruction K → Option K
  | .claimJob ctx => some ctx.sourceIndexPage
  | .cancelJob ctx => some ctx.sourceIndexPage
  | _ => none

def retryPage : Instruction K → Option K
  | .failJob ctx _ _ => some ctx.retryIndexPage
  | _ => none

section
variable [AddressDerivation K] [DecidableEq K]

/-- The instruction takes the id from a page that contains it, and is not
rejected for that reason. -/
def NamesPageOf (L : Ledger K) (ix : Instruction K) (id : Nat) : Prop :=
  (∃ k ∈ sourcePage ix, ∃ page, L k = some (.jobIndex page) ∧ id ∈ page.jobIds) ∧
    ∀ clock, exec clock L ix ≠ .error (.custom .jobNotInIndex)

/-- The instruction puts the id into a page between head and tail of the queue. -/
def NamesLivePage (L : Ledger K) (ix : Instruction K) (queue : K) : Prop :=
  ∃ k ∈ retryPage ix, ∃ page head, L k = some (.jobIndex page) ∧
    L (address (.queueHead queue)) = some (.queueHead head) ∧
    head.headIndexSeq ≤ page.seq ∧ page.seq ≤ head.tailIndexSeq

structure RightPages (L : Ledger K) : Prop where
  claim : ∀ (W : Worker K) k job, L k = some (.job job) → job.queue = W.queuePda →
    job.status = .pending → NamesPageOf L (W.instruction k .claim) job.jobId
  cancel : ∀ wallet k job, L k = some (.job job) → job.status = .pending →
    NamesPageOf L (cancelJobFromWallet wallet job.queue k) job.jobId
  retry : ∀ (W : Worker K) k job held errorMessage, L k = some (.job job) → job.queue = W.queuePda →
    job.status = .processing → NamesLivePage L (W.instruction k (.fail held errorMessage)) job.queue

/-! ### On the ledger -/

variable {L L' : Ledger K} {Q : K} {v v' : QueueView K} {clock : Int64}

omit [AddressDerivation K] [DecidableEq K] in
theorem removeJob_error {page : JobIndex K} {id : Nat} {e : JobQueueError}
    (h : page.removeJob id = .error e) : id ∉ page.jobIds := by
  intro hmem
  obtain ⟨page', hok⟩ := removeJob_of_mem hmem
  cases hok.symm.trans h

theorem claim_notInIndex {ctx : ClaimJob K}
    (h : exec clock L (.claimJob ctx) = .error (.custom .jobNotInIndex)) :
    ∃ job page, L ctx.job = some (.job job) ∧ L ctx.sourceIndexPage = some (.jobIndex page) ∧
      job.jobId ∉ page.jobIds := by
  simp only [exec, execClaimJob, bind_error_iff, loadJob_custom, loadJobIndex_custom, loadJob_ok_iff,
    loadJobIndex_ok_iff, require_error_iff, lift_error_iff, pure_error_iff, ProgramError.custom.injEq,
    reduceCtorEq, false_or, or_false, and_false, exists_false, claimJob] at h
  obtain ⟨job, hj, page, hp, _, _, e, he, rfl⟩ := h
  rcases he with ⟨_, hne⟩ | ⟨_, _, ⟨_, hne⟩ | ⟨_, _, herror⟩⟩
  · cases hne
  · cases hne
  · exact ⟨job, page, hj, hp, removeJob_error herror⟩

theorem cancel_notInIndex {ctx : CancelJob K}
    (h : exec clock L (.cancelJob ctx) = .error (.custom .jobNotInIndex)) :
    ∃ job page, L ctx.job = some (.job job) ∧ L ctx.sourceIndexPage = some (.jobIndex page) ∧
      job.jobId ∉ page.jobIds := by
  simp only [exec, execCancelJob, bind_error_iff, loadQueue_custom, loadJob_custom,
    loadJobIndex_custom, loadJob_ok_iff, loadJobIndex_ok_iff, require_error_iff, lift_error_iff,
    pure_error_iff, ProgramError.custom.injEq, reduceCtorEq, false_or, or_false, and_false,
    exists_false, cancelJob] at h
  obtain ⟨_, _, job, hj, page, hp, _, _, _, _, e, he, rfl⟩ := h
  rcases he with ⟨_, hne⟩ | ⟨_, _, ⟨_, hne⟩ | ⟨_, _, herror⟩⟩
  · cases hne
  · cases hne
  · exact ⟨job, page, hj, hp, removeJob_error herror⟩

/-! ### One queue and the ledger -/

theorem rightPages_of_onFirstPage (hL : Reachable L) (hall : ∀ Q v, Hosts L Q v → OnFirstPage v) :
    RightPages L := by
  have hfind : ∀ k job, L k = some (.job job) → job.status = .pending →
      ∃ p, L (address (.index job.queue 0)) = some (.jobIndex p) ∧ job.jobId ∈ p.jobIds := by
    intro k job hk hstatus
    obtain ⟨v, hv, hinv, _, hj⟩ := reachable_job hL hk
    obtain ⟨p, hp, hmem⟩ := (hall _ v hv).page_of_pending hinv hj hstatus
    exact ⟨p, hv.page hp, hmem⟩
  refine ⟨fun W k job hk hq hstatus => ?_, fun wallet k job hk hstatus => ?_,
    fun W k job held errorMessage hk hq hstatus => ?_⟩
  · obtain ⟨p, hp, hmem⟩ := hfind k job hk hstatus
    rw [hq] at hp
    refine ⟨⟨_, rfl, p, hp, hmem⟩, fun clock h => ?_⟩
    obtain ⟨job', p', hk', hp', hnot⟩ := claim_notInIndex h
    cases hk.symm.trans hk'
    cases hp.symm.trans hp'
    exact hnot hmem
  · obtain ⟨p, hp, hmem⟩ := hfind k job hk hstatus
    refine ⟨⟨_, rfl, p, hp, hmem⟩, fun clock h => ?_⟩
    obtain ⟨job', p', hk', hp', hnot⟩ := cancel_notInIndex h
    cases hk.symm.trans hk'
    cases hp.symm.trans hp'
    exact hnot hmem
  · obtain ⟨v, hv, hinv, _, hj⟩ := reachable_job hL hk
    obtain ⟨p, hp⟩ := firstPage hinv
    have hhead := (hall _ v hv).head _ job hj hstatus
    have hseq := (hv.placed.page 0 p hp).2.1
    refine ⟨_, rfl, p, v.head, hq ▸ hv.page hp, hv.view.headAt, ?_, ?_⟩ <;> omega

theorem onFirstPage_of_rightPages (hL : Reachable L) (h : RightPages L) (hv : Hosts L Q v) :
    OnFirstPage v := by
  have hinv := reachable_inv hL hv
  refine ⟨fun s p hp hs => ?_, fun i j hj hstatus => ?_⟩
  · -- an id on a later page would be on the first page too
    rw [List.eq_nil_iff_forall_not_mem]
    intro id hmem
    have hpending := hinv.indexed.pending_of_mem hp hmem
    rw [pendingAt, Option.any_eq_true] at hpending
    obtain ⟨j, hj, hstatus⟩ := hpending
    obtain ⟨hown, hid, _⟩ := hv.placed.job id j hj
    obtain ⟨⟨k, hk, p', hp', hmem'⟩, _⟩ := h.cancel Q _ j (hv.job hj) (eq_of_beq hstatus)
    cases hk
    rw [hown, hv.view.pageAt, Option.map_eq_some_iff] at hp'
    obtain ⟨q, hq, he⟩ := hp'
    cases he
    exact hs (hinv.indexed.unique hq hp (hid ▸ hmem') hmem)
  · obtain ⟨hown, _, _⟩ := hv.placed.job i j hj
    obtain ⟨k, hk, p, head, hp, hhead, hle, _⟩ :=
      h.retry ⟨Q, Q, 0, defaultHybridFeeConfig⟩ _ j 0 "" (hv.job hj) hown hstatus
    cases hk
    rw [hown] at hhead
    cases hhead.symm.trans hv.view.headAt
    rw [hv.view.pageAt, Option.map_eq_some_iff] at hp
    obtain ⟨q, hq, he⟩ := hp
    cases he
    have hseq := (hv.placed.page 0 _ hq).2.1
    omega

/-- The condition on a transaction: ids are only put on the first page, a
claim finds the head there, and the head moves on only when no job of the
queue is processed. -/
def PagesMatch (L : Ledger K) (tx : Tx K) : Prop :=
  match tx.ix with
  | .enqueueJob ctx _ _ _ _ =>
      ∀ head, L ctx.queueHead = some (.queueHead head) → head.tailIndexSeq = 0
  | .failJob ctx _ _ => ∀ job, L ctx.job = some (.job job) → job.attempts < job.maxRetries →
      ctx.retryIndexPage = address (.index job.queue 0)
  | .advanceHead ctx => ∀ page, L ctx.headPage = some (.jobIndex page) →
      ∀ k job, L k = some (.job job) → job.queue = page.queue → job.status ≠ .processing
  | .claimJob ctx => ∀ job head, L ctx.job = some (.job job) →
      L (address (.queueHead job.queue)) = some (.queueHead head) → head.headIndexSeq = 0
  | _ => True

omit [DecidableEq K] in
theorem fail_match {ctx : FailJob K} {errorMessage : String} {retryAfterSecs : Int64} {i : Nat} {j : Job K}
    (hv : Hosts L Q v) (hi : ctx.job = address (.job Q i)) (hj : v.jobs[i]? = some j) :
    PagesMatch L ⟨clock, .failJob ctx errorMessage retryAfterSecs⟩ ↔
      StaysFirst Q v (.failJob ctx errorMessage retryAfterSecs) := by
  have hjob : L ctx.job = some (.job j) := hi ▸ hv.job hj
  have hown := (hv.placed.job i j hj).1
  constructor
  · intro h i' j' hi' hj' hretry
    have hj'' : L ctx.job = some (.job j') := hi' ▸ hv.job hj'
    cases hjob.symm.trans hj''
    exact hown ▸ h j hjob hretry
  · intro h job hk hretry
    cases hjob.symm.trans hk
    exact hown.symm ▸ h i j hi hj hretry

theorem pagesMatch_iff {ix : Instruction K} {evs : List (Event K)} (hL : Reachable L)
    (hv : Hosts L Q v) (hstep : QueueStep Q clock ix v v' evs) :
    PagesMatch L ⟨clock, ix⟩ ↔ StaysFirst Q v ix := by
  cases hstep with
  | growIndex | completeJob | cancelJob | setQueuePaused => exact Iff.rfl
  | @advanceHead v page hpage =>
    have hback := (hv.placed.page _ page hpage).1
    constructor
    · intro h i j hj
      exact h page (hv.page hpage) _ j (hv.job hj) ((hv.placed.job i j hj).1.trans hback.symm)
    · intro h page' hp' k job hk hq
      cases (hv.page hpage).symm.trans hp'
      obtain ⟨w, hw, _, _, hj⟩ := reachable_job hL hk
      rw [hq, hback] at hw
      cases hv.unique hw
      exact h _ job hj
  | enqueueJob =>
    constructor
    · intro h
      exact h v.head hv.view.headAt
    · intro h head hhead
      cases hhead.symm.trans hv.view.headAt
      exact h
  | @claimJob v i s j p p' worker hjob =>
    have hown := (hv.placed.job i j hjob).1
    constructor
    · intro h
      exact h j v.head (hv.job hjob) (hown ▸ hv.view.headAt)
    · intro h job head hk hhead
      cases (hv.job hjob).symm.trans hk
      rw [hown] at hhead
      cases hhead.symm.trans hv.view.headAt
      exact h
  | retryJob _ _ _ hjob => exact fail_match hv rfl hjob
  | deadLetter _ _ _ hjob => exact fail_match hv rfl hjob

/-! ### Runs -/

theorem rightPages_step {tx : Tx K} (hL : Reachable L) (h : RightPages L)
    (hstep : step L tx = some L') : RightPages L' ↔ PagesMatch L tx := by
  have hL' : Reachable L' := hL.next hstep
  have hwf := reachable_wellFormed hL
  obtain ⟨evs, heff⟩ := effect_of_step hwf hstep
  obtain ⟨clock, ix⟩ := tx
  constructor
  · intro h'
    cases heff with
    | create => exact trivial
    | @act Q v v' _ _ hv hq hnew =>
      have hv' : Hosts L' Q v' := ⟨hnew.view, hq.placed hv.placed⟩
      rw [pagesMatch_iff hL hv hq]
      exact (onFirstPage_step (reachable_inv hL hv) (onFirstPage_of_rightPages hL h hv) hq).mp
        (onFirstPage_of_rightPages hL' h' hv')
  · intro hm
    refine rightPages_of_onFirstPage hL' fun Q v' hv' => ?_
    rcases heff.backward hv' with ⟨authority, queueName, maxRetries, _, rfl⟩ | ⟨v, hv, rfl | hq⟩
    · exact onFirstPage_initial clock authority Q queueName maxRetries
    · exact onFirstPage_of_rightPages hL h hv
    · exact (onFirstPage_step (reachable_inv hL hv) (onFirstPage_of_rightPages hL h hv) hq).mpr
        ((pagesMatch_iff hL hv hq).mp hm)

theorem rightPages_genesis : RightPages (genesis : Ledger K) := by
  refine rightPages_of_onFirstPage (Reachable.refl _) fun Q v hv => ?_
  cases hv.view.queueAt

theorem rightPages_of_meets {txs : List (Tx K)} (hm : Meets step PagesMatch genesis txs)
    (hrun : run step genesis txs = some L) : RightPages L :=
  (run_meets (P := fun M => Reachable M ∧ RightPages M)
    (fun _ _ _ hM hC h => ⟨hM.1.next h, (rightPages_step hM.1 hM.2 h).mpr hC⟩)
    ⟨Reachable.refl genesis, rightPages_genesis⟩ hm hrun).2

/-- The callers name the right pages in every state of a run exactly when
every transaction of the run meets its condition. -/
theorem rightPages_iff_pagesMatch {txs : List (Tx K)} (hrun : run step genesis txs = some L) :
    Throughout step RightPages genesis txs ↔ Meets step PagesMatch genesis txs := by
  constructor
  · intro hall js tx M hjs hM
    obtain ⟨rest, rfl⟩ := hjs
    obtain ⟨M', hM', _⟩ := run_append.mp hrun
    obtain ⟨N, hN, hstep⟩ := run_snoc.mp hM'
    cases hM.symm.trans hN
    have hsub : js <+: js ++ [tx] ++ rest := by
      rw [List.append_assoc]
      exact List.prefix_append js _
    exact (rightPages_step ⟨js, hM⟩ (hall js M hsub hM) hstep).mp
      (hall _ M' (List.prefix_append _ _) hM')
  · intro hm js M hjs hM
    exact rightPages_of_meets (hm.of_prefix hjs) hM

end

theorem rightPages_iff_pagesMatch_demo :
    Throughout step RightPages genesis demoRun ↔ Meets step PagesMatch genesis demoRun :=
  rightPages_iff_pagesMatch (ledgerAfter_run demoRun_accepted)

/-! ### A second page

The first page is filled, a second one added, and one more job enqueued. -/

def overflowRun : List (Tx Key) :=
  ⟨0, initializeAt (.wallet 0) "jobs" 3⟩ :: (fillRun 256 ++
    [⟨1, growAt demoQueue (.wallet 0) 0⟩, ⟨1, enqueueAt demoQueue (.wallet 5) 256 1 [] "email" 1 0⟩])

def overflowView (n : Nat) : QueueView Key where
  queue := filledQueue (n + 1)
  head := ⟨.wallet 0, 0, 1, n + 1, 255⟩
  pages := [⟨demoQueue, 0, 1, List.range n, 255⟩, ⟨demoQueue, 1, 0, [n], 255⟩]
  jobs := (List.range n).map filledJob ++ [filledJob n]

theorem overflow_steps {L : Ledger Key} {n : Nat} (hn : n = maxIndexEntries)
    (hv : Hosts L demoQueue (filledView n)) :
    ∃ L', run step L [⟨1, growAt demoQueue (.wallet 0) 0⟩,
      ⟨1, enqueueAt demoQueue (.wallet 5) n 1 [] "email" 1 0⟩] = some L' ∧
        Hosts L' demoQueue (overflowView n) := by
  have hfull : maxIndexEntries ≤ (List.range n).length := by
    rw [List.length_range]
    omega
  have hlimit : n + 1 ≤ u64Max := by
    simp only [hn, maxIndexEntries, u64Max]
    omega
  have hgrow := @QueueStep.growIndex Key _ demoQueue 1 (filledView n)
    ⟨demoQueue, 0, 0, List.range n, 255⟩ rfl rfl (show 1 ≤ u64Max by decide) hfull
  obtain ⟨M, hM, hw⟩ := step_of_queueStep hv hgrow
  have hadd := @QueueStep.enqueueJob Key _ demoQueue 1
    ⟨filledQueue n, ⟨.wallet 0, 0, 1, n, 255⟩,
      [⟨demoQueue, 0, 1, List.range n, 255⟩, ⟨demoQueue, 1, 0, [], 255⟩],
      (List.range n).map filledJob⟩
    ⟨demoQueue, 1, 0, [], 255⟩ (.wallet 5) [] "email" 1 0 rfl (by decide) (by decide) (by decide) rfl
    (by decide) hlimit hlimit hlimit
  obtain ⟨L', hL', hv'⟩ := step_of_queueStep hw hadd
  exact ⟨L', run_cons.mpr ⟨M, hM, run_singleton.mpr hL'⟩, hv'⟩

/-- The last job is on the second page, and the callers name the first. -/
theorem wrong_page : ∃ L, run step genesis overflowRun = some L ∧ ¬RightPages L := by
  have hinit : (run step (genesis : Ledger Key) [⟨0, initializeAt (.wallet 0) "jobs" 3⟩]).isSome =
      true := by decide
  have hstart := run_singleton.mp (ledgerAfter_run hinit)
  have hv₀ : Hosts _ demoQueue (filledView 0) := hosts_of_initialize genesis_wellFormed hstart
  obtain ⟨M, hfill, hv₁⟩ := fill_run hv₀ 256 le_rfl
  obtain ⟨L, hlast, hv₂⟩ := overflow_steps rfl hv₁
  have hrun : run step genesis overflowRun = some L :=
    run_cons.mpr ⟨_, hstart, run_append.mpr ⟨M, hfill, hlast⟩⟩
  refine ⟨L, hrun, fun h => ?_⟩
  have hlater := (onFirstPage_of_rightPages ⟨_, hrun⟩ h hv₂).later 1 ⟨demoQueue, 1, 0, [256], 255⟩ rfl
    Nat.one_ne_zero
  cases hlater

end DecQueue.PageChoice
