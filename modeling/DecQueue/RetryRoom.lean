import DecQueue.HeadCoverage
import DecQueue.JobLife
import Mathlib.Data.List.Nodup

/-! # Room for retries

`fail_job` puts the id of a job back into an index page. Claiming the job freed
a slot, but nothing keeps that slot free: a later `enqueue_job` or another
retry may take it, and only the authority can add a page. A worker can return
its job as long as the queue has fewer pending jobs than slots. -/

namespace DecQueue.RetryRoom
open Kit.Transition Kit.Lists State Handlers Outcomes Address Program View Refinement Reachability
  Invariants JobLife HeadCoverage

variable {K : Type}

/-! ### Slots and pending jobs -/

section
variable {pages : List (JobIndex K)} {jobs : List (Job K)} {head tail : Nat}

theorem tally_range (p : JobStatus → Bool) (jobs : List (Job K)) :
    ((List.range jobs.length).countP fun i => jobs[i]?.any fun j => p j.status) = tally p jobs := by
  induction jobs using List.reverseRecOn with
  | nil => rfl
  | append_singleton jobs j ih =>
    have hlow : ∀ i ∈ List.range jobs.length,
        ((jobs ++ [j])[i]?.any fun j => p j.status) = jobs[i]?.any fun j => p j.status := by
      intro i hi
      rw [List.getElem?_append_left (List.mem_range.mp hi)]
    rw [List.length_append, List.length_singleton, List.range_succ, List.countP_append,
      tally_concat, ← ih, List.countP_congr fun i hi => by rw [hlow i hi]]
    simp [List.countP_singleton]

theorem stored_perm (h : Indexed pages jobs) :
    (stored pages).Perm ((List.range jobs.length).filter (pendingAt jobs)) := by
  rw [List.perm_iff_count]
  intro id
  have hid : (stored pages).count id = if pendingAt jobs id then 1 else 0 := h id
  rw [hid]
  split
  next hp =>
    have hlt : id < jobs.length := by
      by_contra hge
      simp [pendingAt, List.getElem?_eq_none (Nat.le_of_not_lt hge)] at hp
    rw [List.count_filter hp, List.count_eq_one_of_mem List.nodup_range (List.mem_range.mpr hlt)]
  next hp =>
    refine (List.count_eq_zero_of_not_mem fun hmem => ?_).symm
    exact hp (List.mem_filter.mp hmem).2

theorem stored_length (h : Indexed pages jobs) :
    (pages.map fun p => p.jobIds.length).sum = tally (· == .pending) jobs := by
  have hlength := (stored_perm h).length_eq
  rw [← List.countP_eq_length_filter, stored, List.length_flatMap] at hlength
  exact hlength.trans (tally_range (· == .pending) jobs)

theorem room_iff (hl : Linked head tail pages) (h : Indexed pages jobs) :
    (∃ (s : Nat) (p : JobIndex K), pages[s]? = some p ∧ p.jobIds.length < maxIndexEntries) ↔
      tally (· == .pending) jobs < maxIndexEntries * (tail + 1) := by
  have hroom : ∀ p ∈ pages, p.jobIds.length ≤ maxIndexEntries := by
    intro p hp
    obtain ⟨s, hs⟩ := List.getElem?_of_mem hp
    exact hl.room s p hs
  rw [← stored_length h, ← hl.length,
    ← exists_lt_iff_sum_lt (fun p : JobIndex K => p.jobIds.length) pages maxIndexEntries hroom]
  constructor
  · rintro ⟨s, p, hs, hp⟩
    exact ⟨p, List.mem_of_getElem? hs, hp⟩
  · rintro ⟨p, hmem, hp⟩
    obtain ⟨s, hs⟩ := List.getElem?_of_mem hmem
    exact ⟨s, p, hs, hp⟩

theorem tally_le_slots (hl : Linked head tail pages) (h : Indexed pages jobs) :
    tally (· == .pending) jobs ≤ maxIndexEntries * (tail + 1) := by
  rw [← stored_length h, ← hl.length]
  apply sum_map_le
  intro p hp
  obtain ⟨s, hs⟩ := List.getElem?_of_mem hp
  exact hl.room s p hs

end

/-! ### Open for retries -/

def Owned (j : Job K) : Prop := j.status = .processing → ∃ worker, j.worker = some worker

def Retryable (j : Job K) : Prop := j.status = .processing ∧ j.attempts < j.maxRetries

def free (v : QueueView K) : Nat :=
  maxIndexEntries * (v.head.tailIndexSeq + 1) - tally (· == .pending) v.jobs

def Open (v : QueueView K) : Prop :=
  (∃ (i : Nat) (j : Job K), v.jobs[i]? = some j ∧ Retryable j) → 0 < free v

def pendingJobs [AddressDerivation K] (L : Ledger K) (Q : K) (jobCount : Nat) : Nat :=
  (List.range jobCount).countP fun id => statusAt L (address (.job Q id)) == some .pending

/-- `n` more ids fit into the pages of `Q`. -/
def SlotsLeft [AddressDerivation K] (L : Ledger K) (Q : K) (n : Nat) : Prop :=
  ∃ queue head, L Q = some (.queue queue) ∧ L (address (.queueHead Q)) = some (.queueHead head) ∧
    pendingJobs L Q queue.jobCount + n ≤ maxIndexEntries * (head.tailIndexSeq + 1)

def MayRetry (L : Ledger K) (Q k : K) : Prop :=
  ∃ job, L k = some (.job job) ∧ job.queue = Q ∧ Retryable job

/-- Whoever works on a job with attempts left can return it through some page. -/
def RetriesOpen [DecidableEq K] [AddressDerivation K] (L : Ledger K) : Prop :=
  ∀ k job, L k = some (.job job) → Retryable job → ∃ worker key page, job.worker = some worker ∧
    L key = some (.jobIndex page) ∧ page.queue = job.queue ∧
    ∀ clock errorMessage, 0 ≤ clock → errorMessage.utf8ByteSize ≤ 128 → ∃ L' evs,
      exec clock L (.failJob ⟨job.queue, k, worker, key⟩ errorMessage 0) = .ok (L', evs) ∧
        statusAt L' k = some .pending

/-- Neither an `enqueue_job` nor a retry takes the last slot of a queue while
another job of the queue may still need it. -/
def SparesSlot [AddressDerivation K] (L : Ledger K) (tx : Tx K) : Prop :=
  match tx.ix with
  | .enqueueJob ctx _ _ _ _ => (∃ k, MayRetry L ctx.queue k) → SlotsLeft L ctx.queue 2
  | .failJob ctx _ _ => MayRetry L ctx.queue ctx.job →
      (∃ k, k ≠ ctx.job ∧ MayRetry L ctx.queue k) → SlotsLeft L ctx.queue 2
  | _ => True

section
variable [AddressDerivation K] {L : Ledger K} {Q : K} {v : QueueView K}

theorem slotsLeft_iff (hv : Hosts L Q v) (hinv : Inv v) (n : Nat) :
    SlotsLeft L Q n ↔ n ≤ free v := by
  have hcount : pendingJobs L Q v.queue.jobCount = tally (· == .pending) v.jobs := by
    rw [pendingJobs, hv.placed.jobCount, ← tally_range]
    apply List.countP_congr
    intro i _
    simp only [statusAt, hv.view.jobAt]
    cases v.jobs[i]? <;> simp
  have hle := tally_le_slots hinv.linked hinv.indexed
  unfold free
  constructor
  · rintro ⟨queue, head, hq, hhd, hn⟩
    cases hq.symm.trans hv.view.queueAt
    cases hhd.symm.trans hv.view.headAt
    rw [hcount] at hn
    omega
  · intro hn
    refine ⟨v.queue, v.head, hv.view.queueAt, hv.view.headAt, ?_⟩
    rw [hcount]
    omega

theorem mayRetry_iff (hL : WellFormed L) (hv : Hosts L Q v) (k : K) :
    MayRetry L Q k ↔ ∃ i j, k = address (.job Q i) ∧ v.jobs[i]? = some j ∧ Retryable j := by
  constructor
  · rintro ⟨job, hk, rfl, hr⟩
    obtain ⟨w, i, hw, he, hj⟩ := hL.job hk
    cases hv.unique hw
    exact ⟨i, job, he, hj, hr⟩
  · rintro ⟨i, j, rfl, hj, hr⟩
    exact ⟨j, hv.job hj, (hv.placed.job i j hj).1, hr⟩

variable [DecidableEq K]

theorem owned_of_reachable (hL : Reachable L) (hv : Hosts L Q v) :
    ∀ (i : Nat) j, v.jobs[i]? = some j → Owned j := by
  refine reachable_invariant (I := fun _ v => ∀ (i : Nat) j, v.jobs[i]? = some j → Owned j) ?_ ?_ hL hv
  · intro clock authority Q queueName maxRetries _ i j hj
    simp [initial] at hj
  · intro Q clock ix v v' evs _ h hstep
    cases hstep with
    | growIndex | advanceHead | setQueuePaused => exact h
    | enqueueJob =>
      exact forall_concat (P := fun _ j => Owned j) h rfl (by simp [Owned, enqueued])
    | claimJob worker hjob =>
      exact forall_set (P := fun _ j => Owned j) h hjob fun _ => ⟨worker, rfl⟩
    | completeJob _ _ hjob =>
      exact forall_set (P := fun _ j => Owned j) h hjob (by simp [Owned, finished])
    | retryJob _ _ _ hjob =>
      exact forall_set (P := fun _ j => Owned j) h hjob (by simp [Owned, retried])
    | deadLetter _ _ _ hjob =>
      exact forall_set (P := fun _ j => Owned j) h hjob (by simp [Owned, deadLettered])
    | cancelJob hjob =>
      exact forall_set (P := fun _ j => Owned j) h hjob (by simp [Owned, cancelled])

omit [DecidableEq K] in
theorem room_of_retry {clock : Int64} {worker key : K} {i : Nat} {j : Job K} {v' : QueueView K}
    {errorMessage : String} {retryAfterSecs : Int64} {evs : List (Event K)}
    (hj : v.jobs[i]? = some j) (hretry : j.attempts < j.maxRetries)
    (h : QueueStep Q clock (.failJob ⟨Q, address (.job Q i), worker, key⟩ errorMessage
      retryAfterSecs) v v' evs) :
    ∃ (s : Nat) (p : JobIndex K), v.pages[s]? = some p ∧ p.jobIds.length < maxIndexEntries := by
  generalize hk : address (.job Q i) = k at h
  cases h with
  | @retryJob v t s r p _ _ _ hjob hpage _ _ hroom => exact ⟨s, p, hpage, hroom⟩
  | @deadLetter v t s r p _ _ _ hjob hpage hdead =>
    cases address_injective hk
    cases hj.symm.trans hjob
    exact absurd hretry hdead

theorem retriesOpen_iff (hL : Reachable L) : RetriesOpen L ↔ ∀ Q v, Hosts L Q v → Open v := by
  have hwf := reachable_wellFormed hL
  constructor
  · rintro h Q v hv ⟨i, j, hj, hr⟩
    have hown := (hv.placed.job i j hj).1
    have hinv := reachable_inv hL hv
    obtain ⟨worker, key, page, _, _, _, hall⟩ := h _ j (hv.job hj) hr
    obtain ⟨L', evs, hexec, _⟩ := hall 0 "" (by decide) (by decide)
    obtain ⟨Q', w, w', hw, hstep⟩ := hosts_of_exec hwf (by simp) hexec
    obtain ⟨t, r, he, hr'⟩ := worksOn_step hstep rfl
    cases address_injective he
    cases hv.unique hw
    rw [hown] at hstep
    have hroom := (room_iff hinv.linked hinv.indexed).mp (room_of_retry hj hr.2 hstep)
    unfold free
    omega
  · intro h k job hk hr
    obtain ⟨v, hv, hinv, rfl, hj⟩ := reachable_job hL hk
    have hfree := h _ v hv ⟨_, job, hj, hr⟩
    obtain ⟨s, p, hp, hroom⟩ := (room_iff hinv.linked hinv.indexed).mpr (by
      unfold free at hfree
      omega)
    obtain ⟨worker, hworker⟩ := owned_of_reachable hL hv _ job hj hr.1
    refine ⟨worker, address (.index job.queue s), p, hworker, hv.page hp, (hv.placed.page s p hp).1, ?_⟩
    intro clock errorMessage _ hlength
    have hstep : QueueStep job.queue clock _ v _ _ :=
      .retryJob worker errorMessage 0 hj hp hr.2 ⟨hr.1, hworker, hlength⟩ hroom
    obtain ⟨L', hexec, hupd⟩ := exec_of_queueStep hv hstep
    refine ⟨L', _, hexec, ?_⟩
    rw [statusAt, hupd.view.jobAt, getElem?_set_of_some _ hj, if_pos rfl]
    rfl

/-! ### One step -/

section
variable {clock : Int64} {ix : Instruction K} {v' : QueueView K} {evs : List (Event K)}

omit [AddressDerivation K] [DecidableEq K] in
theorem retryable_of_set {jobs : List (Job K)} {i t : Nat} {j j' r : Job K} (hj : jobs[i]? = some j)
    (hj' : ¬Retryable j') (ht : (jobs.set i j')[t]? = some r) (hr : Retryable r) :
    t ≠ i ∧ jobs[t]? = some r := by
  rw [getElem?_set_of_some j' hj] at ht
  split at ht
  next =>
    cases ht
    exact absurd hr hj'
  next hne => exact ⟨hne, ht⟩

omit [AddressDerivation K] [DecidableEq K] in
theorem tally_retried {jobs : List (Job K)} {i : Nat} {j : Job K} (hj : jobs[i]? = some j)
    (hs : j.status = .processing) (clock : Int64) (errorMessage : String) (retryAfterSecs : Int64) :
    tally (· == .pending) (jobs.set i (retried clock errorMessage retryAfterSecs j)) =
      tally (· == .pending) jobs + 1 := by
  have hset := tally_set (· == .pending) (retried clock errorMessage retryAfterSecs j) hj
  simpa [hs, retried] using hset

omit [AddressDerivation K] [DecidableEq K] in
/-- A job that leaves the index for good takes no slot from the others. -/
theorem Open.set {w : QueueView K} {i : Nat} {j j' : Job K} (h : Open v) (hj : v.jobs[i]? = some j)
    (hp : j'.status ≠ .pending) (hc : j'.status ≠ .processing) (hjobs : w.jobs = v.jobs.set i j')
    (htail : w.head.tailIndexSeq = v.head.tailIndexSeq) : Open w := by
  rintro ⟨t, r, ht, hr⟩
  rw [hjobs] at ht
  obtain ⟨_, ht⟩ := retryable_of_set hj (fun hr => hc hr.1) ht hr
  have hfree := h ⟨t, r, ht, hr⟩
  have hset := tally_set (· == .pending) j' hj
  simp only [beq_eq_false_iff_ne.mpr hp, Bool.false_eq_true, if_false] at hset
  simp only [free, hjobs, htail] at hfree ⊢
  omega

omit [DecidableEq K] in
theorem open_step (hL : WellFormed L) (hv : Hosts L Q v) (hinv : Inv v) (h : Open v)
    (hs : SparesSlot L ⟨clock, ix⟩) (hstep : QueueStep Q clock ix v v' evs) : Open v' := by
  cases hstep with
  | @growIndex v tail =>
    intro hr
    have hfree := h hr
    simp only [free, Nat.mul_add] at *
    omega
  | advanceHead | setQueuePaused => exact h
  | @enqueueJob v tail payer payload jobType priority executeAfter =>
    rintro ⟨i, j, hj, hr⟩
    rw [getElem?_concat rfl] at hj
    split at hj
    next =>
      cases hj
      cases hr.1
    next =>
      have htwo := (slotsLeft_iff hv hinv 2).mp (hs ⟨_, (mayRetry_iff hL hv _).mpr ⟨i, j, rfl, hj, hr⟩⟩)
      simp only [free, tally_concat, enqueued, beq_self_eq_true, if_true] at htwo ⊢
      omega
  | @claimJob v i s j p p' worker hjob hpage hstatus =>
    -- a claim frees the slot that its job may need again
    have hle := tally_le_slots hinv.linked hinv.indexed
    have hset : tally (· == .pending) (v.jobs.set i (locked clock worker j)) + 1 =
        tally (· == .pending) v.jobs := by
      simpa [hstatus, locked] using tally_set (· == .pending) (locked clock worker j) hjob
    intro _
    simp only [free]
    omega
  | @retryJob v i s j p worker errorMessage retryAfterSecs hjob hpage hretry hmay =>
    rintro ⟨t, r, ht, hr⟩
    obtain ⟨hne, ht⟩ := retryable_of_set hjob (by simp [Retryable, retried]) ht hr
    have htwo := (slotsLeft_iff hv hinv 2).mp
      (hs ((mayRetry_iff hL hv _).mpr ⟨i, j, rfl, hjob, hmay.1, hretry⟩) ⟨address (.job Q t),
        fun he => hne (Seeds.job.inj (address_injective he)).2,
        (mayRetry_iff hL hv _).mpr ⟨t, r, rfl, ht, hr⟩⟩)
    have hset := tally_retried hjob hmay.1 clock errorMessage retryAfterSecs
    simp only [free] at htwo ⊢
    omega
  | completeJob _ _ hjob => exact h.set hjob (by simp [finished]) (by simp [finished]) rfl rfl
  | deadLetter _ _ _ hjob => exact h.set hjob (by simp [deadLettered]) (by simp [deadLettered]) rfl rfl
  | cancelJob hjob => exact h.set hjob (by simp [cancelled]) (by simp [cancelled]) rfl rfl

omit [DecidableEq K] in
/-- The last slot is gone, and a job that may need it is left. -/
theorem not_open_step (hL : WellFormed L) (hv : Hosts L Q v) (hinv : Inv v)
    (hs : ¬SparesSlot L ⟨clock, ix⟩) (hstep : QueueStep Q clock ix v v' evs) : ¬Open v' := by
  intro h
  cases hstep with
  | growIndex | advanceHead | claimJob | completeJob | cancelJob | setQueuePaused => exact hs trivial
  | @enqueueJob v tail payer payload jobType priority executeAfter =>
    refine hs fun hk => ?_
    obtain ⟨k, hk⟩ := hk
    obtain ⟨i, j, _, hj, hr⟩ := (mayRetry_iff hL hv k).mp hk
    have hkeep : (v.jobs ++ [enqueued clock Q (bumpOf (.job Q v.queue.jobCount)) v.queue payload
        jobType priority executeAfter])[i]? = some j := by
      rw [List.getElem?_append_left (List.getElem?_eq_some_iff.mp hj).1, hj]
    have hfree := h ⟨i, j, hkeep, hr⟩
    apply (slotsLeft_iff hv hinv 2).mpr
    simp only [free, tally_concat, enqueued, beq_self_eq_true, if_true] at hfree ⊢
    omega
  | @retryJob v i s j p worker errorMessage retryAfterSecs hjob hpage hretry hmay =>
    refine hs fun _ hk => ?_
    obtain ⟨k, hne, hk⟩ := hk
    obtain ⟨t, r, rfl, ht, hr⟩ := (mayRetry_iff hL hv k).mp hk
    have hti : t ≠ i := by
      rintro rfl
      exact hne rfl
    have hfree := h ⟨t, r, by rw [getElem?_set_of_some _ hjob, if_neg hti, ht], hr⟩
    have hset := tally_retried hjob hmay.1 clock errorMessage retryAfterSecs
    apply (slotsLeft_iff hv hinv 2).mpr
    simp only [free] at hfree ⊢
    omega
  | @deadLetter v i s j p worker errorMessage retryAfterSecs hjob hpage hdead =>
    refine hs fun hk _ => ?_
    obtain ⟨t, r, he, ht, hr⟩ := (mayRetry_iff hL hv _).mp hk
    cases address_injective he
    cases hjob.symm.trans ht
    exact absurd hr.2 hdead

end

/-! ### Runs -/

section
variable {L' : Ledger K} {tx : Tx K}

theorem retriesOpen_step (hL : Reachable L) (h : RetriesOpen L) (hs : SparesSlot L tx)
    (hstep : step L tx = some L') : RetriesOpen L' := by
  have hwf := reachable_wellFormed hL
  obtain ⟨evs, heff⟩ := effect_of_step hwf hstep
  rw [retriesOpen_iff (hL.next hstep)]
  rw [retriesOpen_iff hL] at h
  intro Q v' hv'
  rcases heff.backward hv' with ⟨a, n, m, _, rfl⟩ | ⟨w, hw, rfl | hq⟩
  · rintro ⟨i, j, hj, _⟩
    simp [initial] at hj
  · exact h Q v' hw
  · exact open_step hwf hw (reachable_inv hL hw) (h Q w hw) hs hq

theorem not_retriesOpen_step (hL : Reachable L) (hs : ¬SparesSlot L tx)
    (hstep : step L tx = some L') : ¬RetriesOpen L' := by
  have hwf := reachable_wellFormed hL
  obtain ⟨evs, heff⟩ := effect_of_step hwf hstep
  obtain ⟨clock, ix⟩ := tx
  rw [retriesOpen_iff (hL.next hstep)]
  intro h
  cases heff with
  | create => exact hs trivial
  | @act Q v v' _ _ hv hq hnew =>
    exact not_open_step hwf hv (reachable_inv hL hv) hs hq (h Q v' ⟨hnew.view, hq.placed hv.placed⟩)

/-- In every state of a run each claimed job with attempts left can be
returned, if and only if every step spares the slots of such jobs. -/
theorem retries_open_iff {txs : List (Tx K)} (hrun : run step genesis txs = some L) :
    Throughout step RetriesOpen genesis txs ↔ Meets step SparesSlot genesis txs := by
  constructor
  · intro hall js tx M hjs hM
    by_contra hs
    obtain ⟨rest, rfl⟩ := hjs
    obtain ⟨M', hM', _⟩ := run_append.mp hrun
    obtain ⟨N, hN, hstep⟩ := run_snoc.mp hM'
    cases hM.symm.trans hN
    exact not_retriesOpen_step ⟨js, hM⟩ hs hstep (hall _ M' (List.prefix_append _ _) hM')
  · intro hm js M hjs hM
    have hkeep := run_meets (P := fun M => Reachable M ∧ RetriesOpen M)
      (fun N tx N' hN hs h => ⟨hN.1.next h, retriesOpen_step hN.1 hN.2 hs h⟩)
      ⟨Reachable.refl genesis, fun _ _ hk => nomatch hk⟩ (hm.of_prefix hjs) hM
    exact hkeep.2

end

end

theorem retries_open_iff_demo :
    Throughout step RetriesOpen genesis demoRun ↔ Meets step SparesSlot genesis demoRun :=
  retries_open_iff (ledgerAfter_run demoRun_accepted)

/-! ### A job that cannot be returned

The only page is filled, its first job claimed, and the slot taken by one more
job. -/

def crowdRun : List (Tx Key) :=
  ⟨0, initializeAt (.wallet 0) "jobs" 3⟩ :: (fillRun 256 ++
    [⟨2, claimAt demoQueue (.wallet 1) 0 0⟩,
      ⟨2, enqueueAt demoQueue (.wallet 5) 256 0 [] "email" 1 0⟩])

theorem tally_filled (n : Nat) : tally (· == .pending) (filledView n).jobs = n := by
  have hall : tally (· == .pending) (filledView n).jobs = (filledView n).jobs.length := by
    refine List.countP_eq_length.mpr fun j hj => ?_
    obtain ⟨i, _, rfl⟩ := List.mem_map.mp hj
    rfl
  rw [hall]
  simp only [filledView, List.length_map, List.length_range]

/-- One slot is left after the claim, and the next job takes it. -/
theorem crowd_steps {L : Ledger Key} {n : Nat} (hn : n = maxIndexEntries) (hL : Reachable L)
    (hv : Hosts L demoQueue (filledView n)) :
    ∃ L', run step L [⟨2, claimAt demoQueue (.wallet 1) 0 0⟩,
      ⟨2, enqueueAt demoQueue (.wallet 5) n 0 [] "email" 1 0⟩] = some L' ∧ ¬RetriesOpen L' := by
  have hpos : 0 < n := by
    rw [hn]
    decide
  have hjob : (filledView n).jobs[0]? = some (filledJob 0) := by
    simp only [filledView, List.getElem?_map, List.getElem?_range hpos, Option.map_some]
  obtain ⟨p', hremove⟩ : ∃ p', (⟨demoQueue, 0, 0, List.range n, 255⟩ : JobIndex Key).removeJob
      (filledJob 0).jobId = .ok p' :=
    removeJob_of_mem (List.mem_range.mpr hpos)
  have hlength : n = p'.jobIds.length + 1 := by
    simpa using (removeJob_perm hremove).length_eq
  have hclaim := @QueueStep.claimJob Key _ demoQueue 2 (filledView n) 0 0 _ _ p' (.wallet 1) hjob rfl
    rfl (show (1 : Int64) ≤ 2 by decide) hremove
  obtain ⟨M, hM, hw⟩ := step_of_queueStep hv hclaim
  have hlimit : n + 1 ≤ u64Max := by
    simp only [hn, maxIndexEntries, u64Max]
    omega
  have henqueue := @QueueStep.enqueueJob Key _ demoQueue 2 { filledView n with
      pages := [p']
      jobs := (filledView n).jobs.set 0 (locked 2 (.wallet 1) (filledJob 0)) } p' (.wallet 5) []
    "email" 1 0 rfl (by decide) (by decide) (by decide) rfl (by omega) hlimit hlimit hlimit
  obtain ⟨L', hL', _⟩ := step_of_queueStep hw henqueue
  have hreach := hL.next hM
  refine ⟨L', run_cons.mpr ⟨M, hM, run_singleton.mpr hL'⟩, ?_⟩
  refine not_retriesOpen_step hreach (fun hs => ?_) hL'
  have hclaimed : MayRetry M demoQueue (address (.job demoQueue 0)) :=
    (mayRetry_iff (reachable_wellFormed hreach) hw _).mpr
      ⟨0, _, rfl, (getElem?_set_of_some _ hjob 0).trans (if_pos rfl), rfl, by decide⟩
  have htwo := (slotsLeft_iff hw (reachable_inv hreach hw) 2).mp (hs ⟨_, hclaimed⟩)
  have hset : tally (· == .pending) ((filledView n).jobs.set 0 (locked 2 (.wallet 1) (filledJob 0))) +
      1 = n := by
    simpa [tally_filled, locked, filledJob, enqueued] using
      tally_set (· == .pending) (locked 2 (.wallet 1) (filledJob 0)) hjob
  have hfree : 2 ≤ maxIndexEntries * (0 + 1) -
      tally (· == .pending) ((filledView n).jobs.set 0 (locked 2 (.wallet 1) (filledJob 0))) := htwo
  omega

theorem retry_crowded_out : ∃ L, run step genesis crowdRun = some L ∧ ¬RetriesOpen L := by
  have hinit : (run step (genesis : Ledger Key) [⟨0, initializeAt (.wallet 0) "jobs" 3⟩]).isSome =
      true := by decide
  have hstart := run_singleton.mp (ledgerAfter_run hinit)
  have hv₀ : Hosts _ demoQueue (filledView 0) := hosts_of_initialize genesis_wellFormed hstart
  obtain ⟨L₁, hfill, hv₁⟩ := fill_run hv₀ 256 le_rfl
  have h₁ : Reachable L₁ := (Reachable.next (Reachable.refl genesis) hstart).extend hfill
  obtain ⟨L₂, hlast, hbad⟩ := crowd_steps rfl h₁ hv₁
  exact ⟨L₂, run_cons.mpr ⟨_, hstart, run_append.mpr ⟨L₁, hfill, hlast⟩⟩, hbad⟩

end DecQueue.RetryRoom
