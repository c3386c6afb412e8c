import DecQueue.PageList

/-! # Pending jobs between head and tail

Workers read the pages from `head_index_seq` on. `advance_head` leaves a page
behind as soon as it is empty, also while jobs taken from it are processed,
and `fail_job` puts an id back into any page the worker names. A retry into a
page behind the head strands the job, and nothing else does. -/

namespace DecQueue.HeadCoverage
open Kit.Transition Kit.Lists State Handlers Outcomes Address Program View Refinement Reachability
  Invariants PageList

variable {K : Type}

/-! ### Pages behind the head -/

def Drained (head : Nat) (pages : List (JobIndex K)) : Prop :=
  ∀ (s : Nat) p, pages[s]? = some p → s < head → p.jobIds = []

section
variable {head s : Nat} {pages : List (JobIndex K)} {p : JobIndex K}

theorem Drained.set (h : Drained head pages) (hp : pages[s]? = some p) (p' : JobIndex K)
    (hs : s < head → p'.jobIds = []) : Drained head (pages.set s p') :=
  forall_set (P := fun t (q : JobIndex K) => t < head → q.jobIds = []) h hp hs

theorem Drained.concat (h : Drained head pages) {new : JobIndex K} (hnew : new.jobIds = []) :
    Drained head (pages ++ [new]) :=
  forall_concat (P := fun t (q : JobIndex K) => t < head → q.jobIds = []) h rfl fun _ => hnew

theorem Drained.not_behind (h : Drained head pages) (hp : pages[s]? = some p) {id : Nat}
    (hmem : id ∈ p.jobIds) : head ≤ s := by
  by_contra hs
  rw [h s p hp (Nat.lt_of_not_le hs)] at hmem
  exact List.not_mem_nil hmem

theorem Drained.advance (h : Drained head pages) (hp : pages[head]? = some p)
    (hempty : p.jobIds = []) : Drained (head + 1) pages := by
  intro t q hq ht
  rcases Nat.lt_succ_iff_lt_or_eq.mp ht with hlt | heq
  · exact h t q hq hlt
  · subst heq
    cases hp.symm.trans hq
    exact hempty

end

section
variable [AddressDerivation K]

def RetryAheadView (Q : K) (v : QueueView K) (ix : Instruction K) : Prop :=
  ∀ worker i s errorMessage retryAfterSecs j p,
    ix = failAt Q worker i s errorMessage retryAfterSecs → v.jobs[i]? = some j →
      j.attempts < j.maxRetries → v.pages[s]? = some p → v.head.headIndexSeq ≤ s

theorem drained_step {Q : K} {clock : Int64} {ix : Instruction K} {v v' : QueueView K}
    {evs : List (Event K)} (hinv : Inv v) (h : Drained v.head.headIndexSeq v.pages)
    (hahead : RetryAheadView Q v ix) (hstep : QueueStep Q clock ix v v' evs) :
    Drained v'.head.headIndexSeq v'.pages := by
  have horder := hinv.linked.order
  cases hstep with
  | @growIndex v tail hpage hfree hlimit hfull =>
    exact (h.set hpage { tail with nextSeq := v.head.tailIndexSeq + 1 } (h _ tail hpage)).concat rfl
  | @advanceHead v page hpage hempty hnext =>
    simp only [(hinv.linked.advance hpage hnext).1]
    exact h.advance hpage hempty
  | @enqueueJob v tail payer payload jobType priority executeAfter hpage =>
    exact h.set hpage _ fun hlt => absurd horder (Nat.not_le_of_lt hlt)
  | @claimJob v i s j p p' worker hjob hpage hstatus hready hremove =>
    have hs := h.not_behind hpage (mem_of_removeJob hremove)
    exact h.set hpage _ fun hlt => absurd hs (Nat.not_le_of_lt hlt)
  | @retryJob v i s j p worker errorMessage retryAfterSecs hjob hpage hretry hmay hroom =>
    have hs := hahead worker i s errorMessage retryAfterSecs j p rfl hjob hretry hpage
    exact h.set hpage _ fun hlt => absurd hs (Nat.not_le_of_lt hlt)
  | @cancelJob v i s j p p' hjob hpage hstatus hremove =>
    have hs := h.not_behind hpage (mem_of_removeJob hremove)
    exact h.set hpage _ fun hlt => absurd hs (Nat.not_le_of_lt hlt)
  | completeJob | deadLetter | setQueuePaused => exact h

/-- A retry into a page behind the head leaves the job there. -/
theorem stranded_step {Q : K} {clock : Int64} {ix : Instruction K} {v v' : QueueView K}
    {evs : List (Event K)} (hq : Placed Q v) (hbehind : ¬RetryAheadView Q v ix)
    (hstep : QueueStep Q clock ix v v' evs) :
    ∃ (i s : Nat) (p : JobIndex K), pendingAt v'.jobs i = true ∧ v'.pages[s]? = some p ∧
      i ∈ p.jobIds ∧ s < v'.head.headIndexSeq := by
  simp only [RetryAheadView, not_forall, Nat.not_le] at hbehind
  obtain ⟨worker, i, s, errorMessage, retryAfterSecs, j, _, rfl, hj, hretry, _, hlt⟩ := hbehind
  generalize hix : failAt Q worker i s errorMessage retryAfterSecs = ix at hstep
  cases hstep with
  | growIndex | advanceHead | enqueueJob | claimJob | completeJob | cancelJob | setQueuePaused =>
    cases hix
  | deadLetter _ _ _ hjob _ hdead =>
    simp only [failAt, Instruction.failJob.injEq, FailJob.mk.injEq] at hix
    cases address_injective hix.1.2.1
    cases hj.symm.trans hjob
    exact absurd hretry hdead
  | @retryJob v t u r p _ _ _ hjob hpage =>
    simp only [failAt, Instruction.failJob.injEq, FailJob.mk.injEq] at hix
    cases address_injective hix.1.2.1
    cases address_injective hix.1.2.2.2
    have hid := (hq.job i r hjob).2.1
    refine ⟨i, s, _, ?_, (getElem?_set_of_some _ hpage s).trans (if_pos rfl), ?_, hlt⟩
    · rw [pendingAt_set hjob, if_pos rfl]
      rfl
    · rw [hid]
      exact List.mem_append_right _ (List.mem_singleton_self i)

theorem fail_inv {Q : K} {clock : Int64} {ctx : FailJob K} {errorMessage : String}
    {retryAfterSecs : Int64} {v v' : QueueView K} {evs : List (Event K)}
    (h : QueueStep Q clock (.failJob ctx errorMessage retryAfterSecs) v v' evs) :
    ∃ (i s : Nat) (j : Job K) (p : JobIndex K), ctx = ⟨Q, address (.job Q i), ctx.worker,
      address (.index Q s)⟩ ∧ v.jobs[i]? = some j ∧ v.pages[s]? = some p := by
  cases h with
  | @retryJob v i s j p worker errorMessage retryAfterSecs hjob hpage =>
    exact ⟨i, s, j, p, rfl, hjob, hpage⟩
  | @deadLetter v i s j p worker errorMessage retryAfterSecs hjob hpage =>
    exact ⟨i, s, j, p, rfl, hjob, hpage⟩

/-! ### On the ledger -/

/-- If the transaction is a `fail_job` with attempts left, the page it names
is not behind the head of the queue. -/
def RetryAhead (L : Ledger K) (tx : Tx K) : Prop :=
  ∀ ctx errorMessage retryAfterSecs, tx.ix = .failJob ctx errorMessage retryAfterSecs →
    ∀ job page head, L ctx.job = some (.job job) → job.attempts < job.maxRetries →
      L ctx.retryIndexPage = some (.jobIndex page) →
      L (address (.queueHead job.queue)) = some (.queueHead head) → head.headIndexSeq ≤ page.seq

/-- A page between head and tail holds the id of the job, and a reader of the
list comes to it. -/
def Findable (L : Ledger K) (job : Job K) : Prop :=
  ∃ head page, L (address (.queueHead job.queue)) = some (.queueHead head) ∧
    L (address (.index job.queue page.seq)) = some (.jobIndex page) ∧ page.queue = job.queue ∧
    job.jobId ∈ page.jobIds ∧
    (head.headIndexSeq ≤ page.seq ∧ page.seq ≤ head.tailIndexSeq) ∧
    page.seq ∈ walk (nextSeqAt L job.queue) (head.tailIndexSeq - head.headIndexSeq) head.headIndexSeq

def AllFindable (L : Ledger K) : Prop :=
  ∀ k job, L k = some (.job job) → job.status = .pending → Findable L job

section
variable [DecidableEq K] {L L' : Ledger K} {Q : K} {v v' : QueueView K}

omit [DecidableEq K] in
theorem retryAhead_iff {clock : Int64} {ix : Instruction K} {evs : List (Event K)}
    (hv : Hosts L Q v) (hstep : QueueStep Q clock ix v v' evs) :
    RetryAhead L ⟨clock, ix⟩ ↔ RetryAheadView Q v ix := by
  constructor
  · rintro h worker i s errorMessage retryAfterSecs j p rfl hj hretry hp
    obtain ⟨hown, _, _⟩ := hv.placed.job i j hj
    have hle := h _ _ _ rfl j p v.head (hv.job hj) hretry (hv.page hp) (by rw [hown]; exact hv.view.headAt)
    rwa [(hv.placed.page s p hp).2.1] at hle
  · intro h ctx errorMessage retryAfterSecs hix job page head hj hretry hp hhead
    cases hix
    obtain ⟨i, s, j, p, hctx, hjob, hpage⟩ := fail_inv hstep
    rw [hctx] at hj hp
    cases hj.symm.trans (hv.job hjob)
    cases hp.symm.trans (hv.page hpage)
    rw [(hv.placed.job i job hjob).1] at hhead
    cases hhead.symm.trans hv.view.headAt
    rw [(hv.placed.page s page hpage).2.1]
    exact h ctx.worker i s errorMessage retryAfterSecs job page (by rw [hctx]; rfl) hjob hretry hpage

theorem findable_of_drained (hL : Reachable L) (hv : Hosts L Q v)
    (hd : Drained v.head.headIndexSeq v.pages) {job : Job K} {k : K} (hk : L k = some (.job job))
    (hown : job.queue = Q) (hstatus : job.status = .pending) : Findable L job := by
  subst hown
  obtain ⟨w, hw, hinv, _, hj⟩ := reachable_job hL hk
  cases hv.unique hw
  have hpending : pendingAt v.jobs job.jobId = true := by
    rw [pendingAt_of_some hj, hstatus]
    rfl
  obtain ⟨s, p, hp, hmem⟩ := hinv.indexed.page_of_pending hpending
  obtain ⟨hq, hseq, _⟩ := hv.placed.page s p hp
  subst hseq
  have hlow := hd.not_behind hp hmem
  have hhigh := (List.getElem?_eq_some_iff.mp hp).1
  rw [hinv.linked.length] at hhigh
  refine ⟨v.head, p, hv.view.headAt, hv.page hp, hq, hmem, ⟨hlow, by omega⟩, ?_⟩
  rw [traversal_hosts hL hv le_rfl, List.mem_range'_1]
  omega

theorem not_findable_of_behind (hL : Reachable L) (hv : Hosts L Q v) {i s : Nat} {p : JobIndex K}
    {job : Job K} (hj : v.jobs[i]? = some job) (hp : v.pages[s]? = some p) (hmem : i ∈ p.jobIds)
    (hlt : s < v.head.headIndexSeq) : ¬Findable L job := by
  obtain ⟨hown, hid, _⟩ := hv.placed.job i job hj
  intro ⟨head, page, hhead, hpage, _, hin, ⟨hle, _⟩, _⟩
  rw [hown] at hhead hpage
  cases hhead.symm.trans hv.view.headAt
  rw [hv.view.pageAt, Option.map_eq_some_iff] at hpage
  obtain ⟨q, hq, he⟩ := hpage
  cases he
  have hseq := (reachable_inv hL hv).indexed.unique hp hq hmem (hid ▸ hin)
  omega

theorem drained_ledger_step {tx : Tx K} (hL : Reachable L)
    (hd : ∀ Q v, Hosts L Q v → Drained v.head.headIndexSeq v.pages) (hahead : RetryAhead L tx)
    (h : step L tx = some L') : ∀ Q v, Hosts L' Q v → Drained v.head.headIndexSeq v.pages := by
  intro Q v' hv'
  have hwf := reachable_wellFormed hL
  obtain ⟨evs, heff⟩ := effect_of_step hwf h
  rcases heff.backward hv' with ⟨a, n, m, _, rfl⟩ | ⟨w, hw, rfl | hstep⟩
  · intro s p _ hs
    exact absurd hs (Nat.not_lt_zero s)
  · exact hd Q v' hw
  · exact drained_step (reachable_inv hL hw) (hd Q w hw) ((retryAhead_iff hw hstep).mp hahead) hstep

theorem allFindable_of_meets {txs : List (Tx K)} (hm : Meets step RetryAhead genesis txs)
    (hrun : run step genesis txs = some L) : AllFindable L := by
  have hkeep := run_meets
    (P := fun M => Reachable M ∧ ∀ Q v, Hosts M Q v → Drained v.head.headIndexSeq v.pages)
    (fun M tx M' hM hC h => ⟨hM.1.next h, drained_ledger_step hM.1 hM.2 hC h⟩)
    ⟨Reachable.refl genesis, fun Q v hv => nomatch hv.view.queueAt⟩ hm hrun
  intro k job hk hstatus
  obtain ⟨v, hv, _⟩ := reachable_job hkeep.1 hk
  exact findable_of_drained hkeep.1 hv (hkeep.2 _ v hv) hk rfl hstatus

theorem not_allFindable_of_behind {tx : Tx K} (hL : Reachable L) (h : step L tx = some L')
    (hbehind : ¬RetryAhead L tx) : ¬AllFindable L' := by
  have hwf := reachable_wellFormed hL
  have hL' : Reachable L' := hL.next h
  obtain ⟨evs, heff⟩ := effect_of_step hwf h
  obtain ⟨clock, ix⟩ := tx
  cases heff with
  | create => exact absurd nofun hbehind
  | @act Q v v' _ _ hv hstep hnew =>
    have hv' : Hosts L' Q v' := ⟨hnew.view, hstep.placed hv.placed⟩
    obtain ⟨i, s, p, hpending, hp, hmem, hlt⟩ := stranded_step hv.placed
      (fun hview => hbehind ((retryAhead_iff hv hstep).mpr hview)) hstep
    intro hall
    rw [pendingAt, Option.any_eq_true] at hpending
    obtain ⟨job, hj, hstatus⟩ := hpending
    exact not_findable_of_behind hL' hv' hj hp hmem hlt
      (hall _ job (hv'.job hj) (eq_of_beq hstatus))

/-- Every pending job can be found in every state of the run, if and only if
every retry of the run stays ahead of the head. -/
theorem findable_iff_retryAhead {txs : List (Tx K)} (hrun : run step genesis txs = some L) :
    Throughout step AllFindable genesis txs ↔ Meets step RetryAhead genesis txs := by
  constructor
  · intro hall js tx M hjs hM
    by_contra hbehind
    obtain ⟨rest, rfl⟩ := hjs
    obtain ⟨M', hM', _⟩ := run_append.mp hrun
    obtain ⟨N, hN, hstep⟩ := run_snoc.mp hM'
    cases hM.symm.trans hN
    exact not_allFindable_of_behind ⟨js, hM⟩ hstep hbehind (hall _ M' (List.prefix_append _ _) hM')
  · intro hm js M hjs hM
    exact allFindable_of_meets (hm.of_prefix hjs) hM

end

end

theorem findable_iff_retryAhead_demo :
    Throughout step AllFindable genesis demoRun ↔ Meets step RetryAhead genesis demoRun :=
  findable_iff_retryAhead (ledgerAfter_run demoRun_accepted)

/-! ### A job behind the head

The first page is filled, a second one added, the first page claimed empty and
left behind; then the first job is retried into it. -/

def fillRun : Nat → List (Tx Key)
  | 0 => []
  | n + 1 => fillRun n ++ [⟨1, enqueueAt demoQueue (.wallet 5) n 0 [] "email" 1 0⟩]

def drainRun : Nat → List (Tx Key)
  | 0 => []
  | n + 1 => ⟨2, claimAt demoQueue (.wallet 1) n 0⟩ :: drainRun n

def strandRun : List (Tx Key) :=
  ⟨0, initializeAt (.wallet 0) "jobs" 3⟩ :: (fillRun 256 ++
    ⟨1, growAt demoQueue (.wallet 0) 0⟩ :: (drainRun 256 ++
      [⟨2, advanceAt demoQueue 0⟩, ⟨3, failAt demoQueue (.wallet 1) 0 0 "timeout" 0⟩]))

def filledQueue (n : Nat) : Queue Key := ⟨.wallet 0, "jobs", n, n, 0, 0, 3, false, 0, 255⟩

def filledJob (i : Nat) : Job Key := enqueued 1 demoQueue 255 (filledQueue i) [] "email" 1 0

def filledView (n : Nat) : QueueView Key where
  queue := filledQueue n
  head := ⟨.wallet 0, 0, 0, n, 255⟩
  pages := [⟨demoQueue, 0, 0, List.range n, 255⟩]
  jobs := (List.range n).map filledJob

/-- Two pages, of which the first still holds the jobs `0 .. n-1`. -/
structure Draining (n : Nat) (v : QueueView Key) : Prop where
  head : v.head.headIndexSeq = 0 ∧ v.head.tailIndexSeq = 1
  pages : ∃ ids, v.pages = [⟨demoQueue, 0, 1, ids, 255⟩, ⟨demoQueue, 1, 0, [], 255⟩] ∧
    ids.Perm (List.range n)
  waiting : ∀ i < n, v.jobs[i]? = some (filledJob i)
  first : n = 0 → v.jobs[0]? = some (locked 2 (.wallet 1) (filledJob 0))

theorem fill_step {n : Nat} (hn : n < 256) :
    ∃ evs, QueueStep demoQueue 1 (enqueueAt demoQueue (.wallet 5) n 0 [] "email" 1 0)
      (filledView n) (filledView (n + 1)) evs := by
  have hroom : (List.range n).length < maxIndexEntries := by
    rw [List.length_range]
    exact hn
  have hlimit : n + 1 ≤ u64Max := by
    simp only [u64Max]
    omega
  have hstep := @QueueStep.enqueueJob Key _ demoQueue 1 (filledView n)
    ⟨demoQueue, 0, 0, List.range n, 255⟩ (.wallet 5) [] "email" 1 0 rfl (by decide) (by decide)
    (by decide) rfl hroom hlimit hlimit hlimit
  have hview : filledView (n + 1) =
      ⟨filledQueue (n + 1), ⟨.wallet 0, 0, 0, n + 1, 255⟩,
        [⟨demoQueue, 0, 0, List.range n ++ [n], 255⟩],
        (List.range n).map filledJob ++ [filledJob n]⟩ := by
    simp only [filledView, List.range_succ, List.map_append, List.map_singleton]
  rw [hview]
  exact ⟨_, hstep⟩

theorem fill_run {L : Ledger Key} (hv : Hosts L demoQueue (filledView 0)) (n : Nat) (hn : n ≤ 256) :
    ∃ L', run step L (fillRun n) = some L' ∧ Hosts L' demoQueue (filledView n) := by
  induction n with
  | zero => exact ⟨L, rfl, hv⟩
  | succ n ih =>
    obtain ⟨M, hrun, hM⟩ := ih (by omega)
    obtain ⟨evs, hstep⟩ := fill_step (n := n) (by omega)
    obtain ⟨L', hL', hv'⟩ := step_of_queueStep hM hstep
    exact ⟨L', run_snoc.mpr ⟨M, hrun, hL'⟩, hv'⟩

theorem grow_step {n : Nat} (hn : maxIndexEntries ≤ n) : ∃ v evs,
    QueueStep demoQueue 1 (growAt demoQueue (.wallet 0) 0) (filledView n) v evs ∧ Draining n v := by
  have hfull : maxIndexEntries ≤ (List.range n).length := by rwa [List.length_range]
  have hstep := @QueueStep.growIndex Key _ demoQueue 1 (filledView n)
    ⟨demoQueue, 0, 0, List.range n, 255⟩ rfl rfl (show 1 ≤ u64Max by decide) hfull
  refine ⟨_, _, hstep, ⟨rfl, rfl⟩, ⟨List.range n, rfl, List.Perm.refl _⟩, fun i hi => ?_, ?_⟩
  · simp only [filledView, List.getElem?_map, List.getElem?_range hi, Option.map_some]
  · intro h0
    subst h0
    cases hn

theorem drain_step {n : Nat} {v : QueueView Key} (h : Draining (n + 1) v) : ∃ v' evs,
    QueueStep demoQueue 2 (claimAt demoQueue (.wallet 1) n 0) v v' evs ∧ Draining n v' := by
  obtain ⟨ids, hpages, hperm⟩ := h.pages
  have hjob := h.waiting n (Nat.lt_succ_self n)
  have hpage : v.pages[0]? = some ⟨demoQueue, 0, 1, ids, 255⟩ := by rw [hpages]; rfl
  have hmem : n ∈ ids := hperm.mem_iff.mpr (List.mem_range.mpr (Nat.lt_succ_self n))
  obtain ⟨p', hremove⟩ := removeJob_of_mem
    (show n ∈ (⟨demoQueue, 0, 1, ids, 255⟩ : JobIndex Key).jobIds from hmem)
  obtain ⟨hq, hs, hnext, hb⟩ := removeJob_fields hremove
  have hleft : p'.jobIds.Perm (List.range n) := by
    have hsplit : (n :: p'.jobIds).Perm (List.range n ++ [n]) := by
      rw [← List.range_succ]
      exact (removeJob_perm hremove).symm.trans hperm
    exact (hsplit.trans (List.perm_append_singleton n _)).cons_inv
  have hstep := @QueueStep.claimJob Key _ demoQueue 2 v n 0 _ _ p' (.wallet 1) hjob hpage rfl
    (show (1 : Int64) ≤ 2 by decide) hremove
  refine ⟨_, _, hstep, h.head, ⟨p'.jobIds, ?_, hleft⟩, fun i hi => ?_, fun h0 => ?_⟩
  · rw [hpages]
    cases p'
    cases hq
    cases hs
    cases hnext
    cases hb
    rfl
  · rw [getElem?_set_of_some _ hjob, if_neg (Nat.ne_of_lt hi)]
    exact h.waiting i (by omega)
  · subst h0
    rw [getElem?_set_of_some _ hjob, if_pos rfl]

theorem drain_run (n : Nat) {L : Ledger Key} {v : QueueView Key} (hv : Hosts L demoQueue v)
    (h : Draining n v) :
    ∃ L' v', run step L (drainRun n) = some L' ∧ Hosts L' demoQueue v' ∧ Draining 0 v' := by
  induction n generalizing L v with
  | zero => exact ⟨L, v, rfl, hv, h⟩
  | succ n ih =>
    obtain ⟨w, evs, hstep, hw⟩ := drain_step h
    obtain ⟨M, hM, hwM⟩ := step_of_queueStep hv hstep
    obtain ⟨L', v', hrun, hv', h'⟩ := ih hwM hw
    exact ⟨L', v', run_cons.mpr ⟨M, hM, hrun⟩, hv', h'⟩

/-- The last two steps: the head moves on, and the retry goes behind it. -/
theorem strand_steps {L : Ledger Key} {v : QueueView Key} (hL : Reachable L)
    (hv : Hosts L demoQueue v) (h : Draining 0 v) :
    ∃ L', run step L
      [⟨2, advanceAt demoQueue 0⟩, ⟨3, failAt demoQueue (.wallet 1) 0 0 "timeout" 0⟩] = some L' ∧
        ¬AllFindable L' := by
  obtain ⟨ids, hpages, hperm⟩ := h.pages
  cases hperm.eq_nil
  have hjob := h.first rfl
  have hpage : v.pages[0]? = some ⟨demoQueue, 0, 1, [], 255⟩ := by rw [hpages]; rfl
  have hadvance := @QueueStep.advanceHead Key _ demoQueue 2 v _ (h.head.1 ▸ hpage) rfl
    (.inl Nat.one_ne_zero)
  rw [h.head.1] at hadvance
  obtain ⟨M, hM, hw⟩ := step_of_queueStep hv hadvance
  have hretry := @QueueStep.retryJob Key _ demoQueue 3
    { v with head := { v.head with headIndexSeq := 1 } } 0 0 _ _ (.wallet 1) "timeout" 0 hjob hpage
    (by decide) ⟨rfl, rfl, by decide⟩ (by decide)
  obtain ⟨L', hL', hv'⟩ := step_of_queueStep hw hretry
  refine ⟨L', run_cons.mpr ⟨M, hM, run_singleton.mpr hL'⟩, ?_⟩
  refine not_allFindable_of_behind (hL.next hM) hL' fun hahead => ?_
  have hle := (retryAhead_iff hw hretry).mp hahead (.wallet 1) 0 0 "timeout" 0 _ _ rfl hjob (by decide) hpage
  exact absurd hle (Nat.not_succ_le_zero 0)

theorem job_stranded : ∃ L, run step genesis strandRun = some L ∧ ¬AllFindable L := by
  have hinit : (run step (genesis : Ledger Key) [⟨0, initializeAt (.wallet 0) "jobs" 3⟩]).isSome =
      true := by decide
  have hstart := run_singleton.mp (ledgerAfter_run hinit)
  have hv₀ : Hosts _ demoQueue (filledView 0) := hosts_of_initialize genesis_wellFormed hstart
  obtain ⟨L₁, hfill, hv₁⟩ := fill_run hv₀ 256 le_rfl
  obtain ⟨v₂, evs, hgrow, hd₂⟩ := grow_step (n := 256) le_rfl
  obtain ⟨L₂, hL₂, hv₂⟩ := step_of_queueStep hv₁ hgrow
  obtain ⟨L₃, v₃, hdrain, hv₃, hd₃⟩ := drain_run 256 hv₂ hd₂
  have hreach : Reachable L₃ := by
    have h₁ : Reachable L₁ := (Reachable.next (Reachable.refl genesis) hstart).extend hfill
    exact (h₁.next hL₂).extend hdrain
  obtain ⟨L₄, hlast, hbad⟩ := strand_steps hreach hv₃ hd₃
  refine ⟨L₄, run_cons.mpr ⟨_, hstart, run_append.mpr ⟨L₁, hfill, run_cons.mpr ⟨L₂, hL₂, ?_⟩⟩⟩, hbad⟩
  exact run_append.mpr ⟨L₃, hdrain, hlast⟩

end DecQueue.HeadCoverage
