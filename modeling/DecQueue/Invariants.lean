import DecQueue.Reachability

/-! # Invariants of one queue

Five properties of a view that every step keeps: the page list is linked and
bounded, attempts stay in the retry budget, the ids on the pages are those of
the pending jobs, the counters count the jobs, and a page beyond the first has
been paid for by 256 insertions. Each is stated on the parts of the view it is
about. -/

namespace DecQueue.Invariants
open Kit.Fallible Kit.Lists State Handlers Outcomes Address Program View Refinement Reachability

variable {K : Type}

/-! ### The page list -/

structure Linked (head tail : Nat) (pages : List (JobIndex K)) : Prop where
  length : pages.length = tail + 1
  order : head ≤ tail
  next : ∀ (s : Nat) p, pages[s]? = some p → p.nextSeq = if s < tail then s + 1 else 0
  room : ∀ (s : Nat) p, pages[s]? = some p → p.jobIds.length ≤ maxIndexEntries

theorem Linked.page {head tail s : Nat} {pages : List (JobIndex K)} (h : Linked head tail pages)
    (hs : s ≤ tail) : ∃ p, pages[s]? = some p := by
  have hlt : s < pages.length := by
    rw [h.length]
    omega
  exact ⟨pages[s], List.getElem?_eq_getElem hlt⟩

theorem Linked.set {head tail s : Nat} {pages : List (JobIndex K)} {p : JobIndex K}
    (h : Linked head tail pages) (hp : pages[s]? = some p) (p' : JobIndex K)
    (hn : p'.nextSeq = p.nextSeq) (hl : p'.jobIds.length ≤ maxIndexEntries) :
    Linked head tail (pages.set s p') :=
  ⟨List.length_set.trans h.length, h.order,
    forall_set h.next hp (hn.trans (h.next s p hp)),
    forall_set (P := fun _ p => p.jobIds.length ≤ maxIndexEntries) h.room hp hl⟩

theorem Linked.grow {head tail : Nat} {pages : List (JobIndex K)} {p : JobIndex K}
    (h : Linked head tail pages) (hp : pages[tail]? = some p) {new : JobIndex K}
    (hn : new.nextSeq = 0) (hl : new.jobIds = []) :
    Linked head (tail + 1) (pages.set tail { p with nextSeq := tail + 1 } ++ [new]) := by
  have hlength : (pages.set tail { p with nextSeq := tail + 1 }).length = tail + 1 :=
    List.length_set.trans h.length
  have hnext : ∀ (s : Nat) r, pages[s]? = some r →
      s ≠ tail → r.nextSeq = if s < tail + 1 then s + 1 else 0 := by
    intro s r hr hne
    have hlt := (List.getElem?_eq_some_iff.mp hr).1
    have hlen := h.length
    rw [h.next s r hr, if_pos (by omega), if_pos (by omega)]
  have hroom := forall_set (P := fun _ r => r.jobIds.length ≤ maxIndexEntries)
    (b := { p with nextSeq := tail + 1 }) h.room hp (h.room tail p hp)
  refine ⟨?_, Nat.le_succ_of_le h.order, forall_concat ?_ hlength ?_,
    forall_concat hroom hlength (by simp only [hl, List.length_nil, Nat.zero_le])⟩
  · rw [List.length_append, hlength, List.length_singleton]
  · intro s r hr
    rw [getElem?_set_of_some _ hp] at hr
    split at hr
    next hs =>
      cases hr
      rw [if_pos (by omega), hs]
    next hne => exact hnext s r hr hne
  · rw [hn, if_neg (by omega)]

/-- The guard of `advance_head` holds exactly when the head has a successor;
its two halves agree, so the head never falls back to the sentinel 0. -/
theorem Linked.guard_iff {head tail : Nat} {pages : List (JobIndex K)} {p : JobIndex K}
    (h : Linked head tail pages) (hp : pages[head]? = some p) :
    (p.nextSeq ≠ 0 ∨ head ≠ tail) ↔ head < tail := by
  have hn := h.next head p hp
  have ho := h.order
  by_cases hlt : head < tail
  · simp only [hlt, if_true] at hn
    simp only [hlt, iff_true]
    omega
  · simp only [hlt, if_false] at hn
    simp only [hlt, iff_false]
    omega

theorem Linked.advance {head tail : Nat} {pages : List (JobIndex K)} {p : JobIndex K}
    (h : Linked head tail pages) (hp : pages[head]? = some p)
    (hguard : p.nextSeq ≠ 0 ∨ head ≠ tail) :
    p.nextSeq = head + 1 ∧ Linked p.nextSeq tail pages := by
  have hlt := (h.guard_iff hp).mp hguard
  have hn := (h.next head p hp).trans (if_pos hlt)
  refine ⟨hn, h.length, ?_, h.next, h.room⟩
  rw [hn]
  omega

/-! ### The retry budget -/

/-- Attempts against the budget, by status. A job with `max_retries = 0` is
still tried once. -/
def AttemptsFit (j : Job K) : Prop :=
  match j.status with
  | .pending => j.attempts < max 1 j.maxRetries
  | .processing => 1 ≤ j.attempts ∧ j.attempts ≤ max 1 j.maxRetries
  | .completed => 1 ≤ j.attempts ∧ j.attempts ≤ max 1 j.maxRetries
  | .failed => j.attempts = max 1 j.maxRetries
  | .cancelled => j.attempts ≤ max 1 j.maxRetries

/-- The job is in its budget, and the budget within the limit of `initialize_queue`. -/
structure Budget (j : Job K) : Prop where
  retries : j.maxRetries ≤ 10
  fit : AttemptsFit j

theorem Budget.le {j : Job K} (h : Budget j) : j.attempts ≤ max 1 j.maxRetries := by
  have hf := h.fit
  unfold AttemptsFit at hf
  split at hf <;> omega

theorem Budget.small {j : Job K} (h : Budget j) : j.attempts ≤ 10 := by
  have hle := h.le
  have hr := h.retries
  omega

theorem Budget.locked_attempts {j : Job K} (h : Budget j) (clock : Int64) (worker : K) :
    (locked clock worker j).attempts = j.attempts + 1 := by
  have hs := h.small
  have hadd : checkedAdd u8Max j.attempts 1 = some (j.attempts + 1) :=
    (checkedAdd_some_iff ..).mpr ⟨by simp only [u8Max]; omega, rfl⟩
  simp only [locked, hadd, Option.getD_some]

theorem Budget.locked {j : Job K} (h : Budget j) (hs : j.status = .pending) (clock : Int64)
    (worker : K) : Budget (Outcomes.locked clock worker j) := by
  refine ⟨h.retries, ?_⟩
  have ha := h.locked_attempts clock worker
  have hf := h.fit
  simp only [AttemptsFit, hs] at hf
  simp only [AttemptsFit, Outcomes.locked] at ha ⊢
  omega

theorem Budget.finished {j : Job K} (h : Budget j) (hs : j.status = .processing) (clock : Int64)
    (result : Option String) : Budget (Outcomes.finished clock result j) := by
  refine ⟨h.retries, ?_⟩
  have hf := h.fit
  simp only [AttemptsFit, hs] at hf
  simpa only [AttemptsFit, Outcomes.finished] using hf

theorem Budget.retried {j : Job K} (h : Budget j) (hr : j.attempts < j.maxRetries) (clock : Int64)
    (errorMessage : String) (retryAfterSecs : Int64) :
    Budget (Outcomes.retried clock errorMessage retryAfterSecs j) := by
  refine ⟨h.retries, ?_⟩
  simp only [AttemptsFit, Outcomes.retried]
  omega

theorem Budget.deadLettered {j : Job K} (h : Budget j) (hs : j.status = .processing)
    (hd : ¬j.attempts < j.maxRetries) (clock : Int64) (errorMessage : String) :
    Budget (Outcomes.deadLettered clock errorMessage j) := by
  refine ⟨h.retries, ?_⟩
  have hf := h.fit
  simp only [AttemptsFit, hs] at hf
  simp only [AttemptsFit, Outcomes.deadLettered]
  omega

theorem Budget.cancelled {j : Job K} (h : Budget j) (clock : Int64) :
    Budget (Outcomes.cancelled clock j) :=
  ⟨h.retries, by simpa only [AttemptsFit, Outcomes.cancelled] using h.le⟩

/-! ### Index membership -/

def stored (pages : List (JobIndex K)) : List Nat := pages.flatMap fun p => p.jobIds

def occurrences (pages : List (JobIndex K)) (id : Nat) : Nat := (stored pages).count id

def pendingAt (jobs : List (Job K)) (id : Nat) : Bool :=
  jobs[id]?.any fun j => j.status == .pending

def Indexed (pages : List (JobIndex K)) (jobs : List (Job K)) : Prop :=
  ∀ id, occurrences pages id = if pendingAt jobs id then 1 else 0

section
variable {pages : List (JobIndex K)} {jobs : List (Job K)} {s i : Nat} {p p' : JobIndex K}
  {j j' : Job K}

theorem occurrences_set (hp : pages[s]? = some p) (p' : JobIndex K) (id : Nat) :
    occurrences (pages.set s p') id + p.jobIds.count id =
      occurrences pages id + p'.jobIds.count id := by
  simp only [occurrences, stored, List.count_flatMap]
  exact sum_map_set (List.count id ∘ fun p => p.jobIds) p' hp

theorem occurrences_pos (hp : pages[s]? = some p) {id : Nat} (hmem : id ∈ p.jobIds) :
    0 < occurrences pages id :=
  List.count_pos_iff.mpr (List.mem_flatMap.mpr ⟨p, List.mem_of_getElem? hp, hmem⟩)

theorem occurrences_two {t : Nat} {q : JobIndex K} (hp : pages[s]? = some p)
    (hq : pages[t]? = some q) (hne : t ≠ s) {id : Nat} (hmem : id ∈ p.jobIds)
    (hmem' : id ∈ q.jobIds) : 2 ≤ occurrences pages id := by
  have hset := occurrences_set hp { p with jobIds := [] } id
  have hq' : (pages.set s { p with jobIds := [] })[t]? = some q := by
    rw [getElem?_set_of_some _ hp, if_neg hne, hq]
  have hrest := occurrences_pos hq' hmem'
  have hcount := List.count_pos_iff.mpr hmem
  simp only [List.count_nil] at hset
  omega

theorem occurrences_push (hp : pages[s]? = some p) (a id : Nat) :
    occurrences (pages.set s { p with jobIds := p.jobIds ++ [a] }) id =
      occurrences pages id + if a = id then 1 else 0 := by
  have hset := occurrences_set hp { p with jobIds := p.jobIds ++ [a] } id
  simp only [List.count_append, List.count_singleton, beq_iff_eq] at hset
  omega

theorem occurrences_remove {a : Nat} (hp : pages[s]? = some p) (hremove : p.removeJob a = .ok p')
    (id : Nat) : occurrences (pages.set s p') id + (if a = id then 1 else 0) = occurrences pages id := by
  have hset := occurrences_set hp p' id
  have hcount := (removeJob_perm hremove).count_eq id
  simp only [List.count_cons, beq_iff_eq] at hcount
  omega

theorem pendingAt_set (hj : jobs[i]? = some j) (id : Nat) :
    pendingAt (jobs.set i j') id = if id = i then j'.status == .pending else pendingAt jobs id := by
  unfold pendingAt
  rw [getElem?_set_of_some j' hj]
  split <;> rfl

theorem pendingAt_of_some (hj : jobs[i]? = some j) : pendingAt jobs i = (j.status == .pending) := by
  simp only [pendingAt, hj, Option.any_some]

theorem Indexed.push (h : Indexed pages jobs) (hp : pages[s]? = some p) (hj : jobs[i]? = some j)
    {n : Nat} (hn : n = i) (hs : j.status ≠ .pending) (hs' : j'.status = .pending) :
    Indexed (pages.set s { p with jobIds := p.jobIds ++ [n] }) (jobs.set i j') := by
  rw [hn]
  intro id
  have hid := h id
  rw [occurrences_push hp, pendingAt_set hj]
  by_cases he : id = i
  · subst he
    have hfalse : pendingAt jobs id = false := by simp [pendingAt_of_some hj, hs]
    simp [hid, hfalse, hs']
  · simp [hid, he, Ne.symm he]

theorem Indexed.remove (h : Indexed pages jobs) (hp : pages[s]? = some p)
    (hj : jobs[i]? = some j) (hremove : p.removeJob i = .ok p') (hs' : j'.status ≠ .pending) :
    Indexed (pages.set s p') (jobs.set i j') := by
  intro id
  have hid := h id
  have hocc := occurrences_remove hp hremove id
  rw [pendingAt_set hj]
  by_cases he : id = i
  · subst he
    simp only [if_true] at hocc
    simp only [if_true, beq_eq_false_iff_ne.mpr hs', Bool.false_eq_true, if_false]
    split at hid <;> omega
  · rw [if_neg (Ne.symm he)] at hocc
    rw [if_neg he, ← hid]
    exact hocc

theorem Indexed.keep (h : Indexed pages jobs) (hj : jobs[i]? = some j) (hs : j.status ≠ .pending)
    (hs' : j'.status ≠ .pending) : Indexed pages (jobs.set i j') := by
  intro id
  rw [h id, pendingAt_set hj]
  by_cases he : id = i
  · subst he
    simp [pendingAt_of_some hj, hs, hs']
  · rw [if_neg he]

theorem Indexed.add (h : Indexed pages jobs) (hp : pages[s]? = some p) {n : Nat}
    (hn : n = jobs.length) (hs' : j'.status = .pending) :
    Indexed (pages.set s { p with jobIds := p.jobIds ++ [n] }) (jobs ++ [j']) := by
  intro id
  have hid := h id
  have hpending : pendingAt (jobs ++ [j']) id = if id = n then true else pendingAt jobs id := by
    unfold pendingAt
    rw [getElem?_concat hn.symm]
    split <;> simp [hs']
  rw [occurrences_push hp, hpending]
  by_cases he : id = n
  · have hfalse : pendingAt jobs id = false := by
      simp only [pendingAt, List.getElem?_eq_none (by omega : jobs.length ≤ id), Option.any_none]
    rw [if_pos he.symm, if_pos he, hid, hfalse]
    rfl
  · rw [if_neg (Ne.symm he), if_neg he, hid, Nat.add_zero]

theorem Indexed.grow (h : Indexed pages jobs) (hp : pages[s]? = some p) {new : JobIndex K} {n : Nat}
    (hl : new.jobIds = []) : Indexed (pages.set s { p with nextSeq := n } ++ [new]) jobs := by
  intro id
  have hset : occurrences (pages.set s { p with nextSeq := n }) id + p.jobIds.count id =
      occurrences pages id + p.jobIds.count id := occurrences_set hp { p with nextSeq := n } id
  have hsplit : occurrences (pages.set s { p with nextSeq := n } ++ [new]) id =
      occurrences (pages.set s { p with nextSeq := n }) id := by
    simp [occurrences, stored, hl]
  rw [hsplit, ← h id]
  omega

theorem Indexed.pending_of_mem (h : Indexed pages jobs) {id : Nat} (hp : pages[s]? = some p)
    (hmem : id ∈ p.jobIds) : pendingAt jobs id = true := by
  have hpos := occurrences_pos hp hmem
  have hid := h id
  by_contra hne
  rw [if_neg hne] at hid
  omega

theorem Indexed.unique (h : Indexed pages jobs) {t id : Nat} {q : JobIndex K}
    (hp : pages[s]? = some p) (hq : pages[t]? = some q) (hmem : id ∈ p.jobIds)
    (hmem' : id ∈ q.jobIds) : t = s := by
  by_contra hne
  have htwo := occurrences_two hp hq hne hmem hmem'
  have hid := h id
  split at hid <;> omega

theorem Indexed.page_of_pending (h : Indexed pages jobs) {id : Nat} (hpending : pendingAt jobs id = true) :
    ∃ (s : Nat) (p : JobIndex K), pages[s]? = some p ∧ id ∈ p.jobIds := by
  have hid := h id
  rw [if_pos hpending] at hid
  have hmem : id ∈ stored pages := List.count_pos_iff.mp (by
    simp only [occurrences] at hid
    omega)
  obtain ⟨p, hp, hmem⟩ := List.mem_flatMap.mp hmem
  obtain ⟨s, hs⟩ := List.getElem?_of_mem hp
  exact ⟨s, p, hs, hmem⟩

end

/-! ### Counters -/

/-- Statuses that `pending_count` covers. -/
def active : JobStatus → Bool
  | .pending | .processing => true
  | .completed | .failed | .cancelled => false

def tally (f : JobStatus → Bool) (jobs : List (Job K)) : Nat := jobs.countP fun j => f j.status

structure Counted (queue : Queue K) (totalJobs : Nat) (jobs : List (Job K)) : Prop where
  total : totalJobs = jobs.length
  limit : jobs.length ≤ u64Max
  pending : queue.pendingCount = tally active jobs
  processed : queue.processedCount = tally (· == .completed) jobs
  failed : queue.failedCount = tally (· == .failed) jobs

section
variable {jobs : List (Job K)} {i : Nat} {j j' : Job K}

theorem tally_set (f : JobStatus → Bool) (j' : Job K) (hj : jobs[i]? = some j) :
    tally f (jobs.set i j') + (if f j.status then 1 else 0) =
      tally f jobs + if f j'.status then 1 else 0 :=
  countP_set (fun j : Job K => f j.status) j' hj

theorem tally_concat (f : JobStatus → Bool) (jobs : List (Job K)) (j' : Job K) :
    tally f (jobs ++ [j']) = tally f jobs + if f j'.status then 1 else 0 := by
  simp [tally, List.countP_append, List.countP_singleton]

theorem tally_cons (f : JobStatus → Bool) (jobs : List (Job K)) (j : Job K) :
    tally f (j :: jobs) = tally f jobs + if f j.status then 1 else 0 := by
  simp only [tally, List.countP_cons]

theorem tally_pos {f : JobStatus → Bool} (hj : jobs[i]? = some j) (hf : f j.status = true) :
    0 < tally f jobs :=
  List.countP_pos_iff.mpr ⟨j, List.mem_of_getElem? hj, hf⟩

theorem tally_le (f : JobStatus → Bool) (jobs : List (Job K)) : tally f jobs ≤ jobs.length :=
  List.countP_le_length

/-- A job without the status leaves room for one more that has it. -/
theorem tally_lt {f : JobStatus → Bool} (hj : jobs[i]? = some j) (hf : f j.status = false) :
    tally f jobs < jobs.length := by
  refine lt_of_le_of_ne (tally_le f jobs) fun heq => ?_
  have hall := List.countP_eq_length.mp heq j (List.mem_of_getElem? hj)
  rw [hf] at hall
  cases hall

theorem tally_sum (jobs : List (Job K)) :
    tally active jobs + tally (· == .completed) jobs + tally (· == .failed) jobs +
      tally (· == .cancelled) jobs = jobs.length := by
  induction jobs with
  | nil => rfl
  | cons j jobs ih =>
    have hone : ∀ st : JobStatus, (if active st then 1 else 0) + (if st == .completed then 1 else 0) +
        (if st == .failed then 1 else 0) + (if st == .cancelled then 1 else 0) = 1 := by
      intro st
      cases st <;> rfl
    have hj := hone j.status
    simp only [tally_cons, List.length_cons]
    omega

theorem Counted.add {queue queue' : Queue K} {totalJobs : Nat} (h : Counted queue totalJobs jobs)
    (hs : j.status = .pending) (hlimit : jobs.length + 1 ≤ u64Max)
    (hp : queue'.pendingCount = queue.pendingCount + 1)
    (hc : queue'.processedCount = queue.processedCount) (hf : queue'.failedCount = queue.failedCount) :
    Counted queue' (totalJobs + 1) (jobs ++ [j]) := by
  refine ⟨?_, ?_, ?_, ?_, ?_⟩
  · rw [h.total, List.length_append, List.length_singleton]
  · rwa [List.length_append, List.length_singleton]
  · rw [hp, h.pending, tally_concat, hs]
    rfl
  · rw [hc, h.processed, tally_concat, hs]
    rfl
  · rw [hf, h.failed, tally_concat, hs]
    rfl

/-- A job changes status: each counter moves by what the two statuses
contribute to it. -/
theorem Counted.set {queue queue' : Queue K} {totalJobs : Nat} (h : Counted queue totalJobs jobs)
    (hj : jobs[i]? = some j)
    (hp : queue'.pendingCount + (if active j.status then 1 else 0) =
      queue.pendingCount + if active j'.status then 1 else 0)
    (hc : queue'.processedCount + (if j.status == .completed then 1 else 0) =
      queue.processedCount + if j'.status == .completed then 1 else 0)
    (hf : queue'.failedCount + (if j.status == .failed then 1 else 0) =
      queue.failedCount + if j'.status == .failed then 1 else 0) :
    Counted queue' totalJobs (jobs.set i j') := by
  have h1 := tally_set active j' hj
  have h2 := tally_set (· == .completed) j' hj
  have h3 := tally_set (· == .failed) j' hj
  have hpending := h.pending
  have hprocessed := h.processed
  have hfailed := h.failed
  refine ⟨h.total.trans List.length_set.symm, List.length_set.trans_le h.limit, ?_, ?_, ?_⟩ <;> omega

theorem Counted.pending_pos {queue : Queue K} {totalJobs : Nat} (h : Counted queue totalJobs jobs)
    (hj : jobs[i]? = some j) (ha : active j.status = true) : 0 < queue.pendingCount := by
  rw [h.pending]
  exact tally_pos hj ha

end

/-! ### Growth of the page list -/

/-- How often the id of the job has been inserted into a page. -/
def pushes (j : Job K) : Nat :=
  match j.status with
  | .pending | .cancelled => j.attempts + 1
  | .processing | .completed | .failed => j.attempts

def Filled (tail : Nat) (pages : List (JobIndex K)) (jobs : List (Job K)) : Prop :=
  ∀ p, pages[tail]? = some p →
    maxIndexEntries * tail + p.jobIds.length ≤ (jobs.map pushes).sum

section
variable {tail : Nat} {pages : List (JobIndex K)} {jobs jobs' : List (Job K)} {s i : Nat}
  {p p' : JobIndex K} {j j' : Job K}

/-- A page may gain as many ids as the jobs gain insertions. -/
theorem Filled.set (h : Filled tail pages jobs) (hp : pages[s]? = some p) {d : Nat}
    (hl : p'.jobIds.length ≤ p.jobIds.length + d)
    (hd : (jobs.map pushes).sum + d ≤ (jobs'.map pushes).sum) :
    Filled tail (pages.set s p') jobs' := by
  intro r hr
  rw [getElem?_set_of_some p' hp] at hr
  split at hr
  next he =>
    cases hr
    have hb := h p (he ▸ hp)
    omega
  next =>
    have hb := h r hr
    omega

theorem pushes_set (hj : jobs[i]? = some j) {d : Nat} (hd : pushes j + d ≤ pushes j') :
    (jobs.map pushes).sum + d ≤ ((jobs.set i j').map pushes).sum := by
  have hset := sum_map_set pushes j' hj
  omega

theorem Filled.grow (h : Filled tail pages jobs) (hp : pages[tail]? = some p)
    (hlength : pages.length = tail + 1) (hfull : maxIndexEntries ≤ p.jobIds.length)
    {new : JobIndex K} (hl : new.jobIds = []) (p' : JobIndex K) :
    Filled (tail + 1) (pages.set tail p' ++ [new]) jobs := by
  intro r hr
  rw [getElem?_concat (List.length_set.trans hlength), if_pos rfl] at hr
  cases hr
  have hb := h p hp
  rw [hl, Nat.mul_add, List.length_nil]
  omega

/-- With every budget kept, the tail number stays far below the `u64` limit. -/
theorem Filled.bounded (h : Filled tail pages jobs) (hp : pages[tail]? = some p)
    (hb : ∀ (i : Nat) j, jobs[i]? = some j → Budget j) (hlimit : jobs.length ≤ u64Max) :
    tail + 1 ≤ u64Max := by
  have hpush : ∀ j ∈ jobs, pushes j ≤ 11 := by
    intro j hj
    obtain ⟨i, hi⟩ := List.getElem?_of_mem hj
    have hs := (hb i j hi).small
    unfold pushes
    split <;> omega
  have hsum := sum_map_le pushes jobs 11 hpush
  have hfill := h p hp
  simp only [maxIndexEntries, u64Max] at *
  omega

end

/-! ### All five together -/

structure Inv (v : QueueView K) : Prop where
  linked : Linked v.head.headIndexSeq v.head.tailIndexSeq v.pages
  retries : v.queue.maxRetries ≤ 10
  budget : ∀ (i : Nat) j, v.jobs[i]? = some j → Budget j
  indexed : Indexed v.pages v.jobs
  counted : Counted v.queue v.head.totalJobs v.jobs
  filled : Filled v.head.tailIndexSeq v.pages v.jobs

section
variable [AddressDerivation K]

theorem inv_initial (clock : Int64) (authority Q : K) (queueName : String) (maxRetries : Nat)
    (hr : maxRetries ≤ 10) : Inv (initial clock authority Q queueName maxRetries) where
  linked := by
    refine ⟨rfl, le_rfl, fun s p hp => ?_, fun s p hp => ?_⟩
    all_goals
      cases s with
      | zero =>
        cases hp
        simp [initial]
      | succ s => simp [initial] at hp
  retries := hr
  budget i j hj := by simp [initial] at hj
  indexed id := by simp [initial, occurrences, stored, pendingAt]
  counted := ⟨rfl, Nat.zero_le _, rfl, rfl, rfl⟩
  filled p hp := by
    cases hp
    simp [initial]

variable {Q : K} {clock : Int64} {ix : Instruction K} {v v' : QueueView K} {evs : List (Event K)}

theorem Inv.step (hq : Placed Q v) (h : Inv v) (hstep : QueueStep Q clock ix v v' evs) : Inv v' := by
  cases hstep with
  | @growIndex v tail hpage hfree hlimit hfull =>
    exact ⟨h.linked.grow hpage rfl rfl, h.retries, h.budget, h.indexed.grow hpage rfl, h.counted,
      h.filled.grow hpage h.linked.length hfull rfl _⟩
  | advanceHead hpage hempty hnext =>
    exact ⟨(h.linked.advance hpage hnext).2, h.retries, h.budget, h.indexed, h.counted, h.filled⟩
  | @enqueueJob v tail payer payload jobType priority executeAfter hpage hpayload htype hpriority
      hopen hroom hjobs hpending htotal =>
    have hcount := hq.jobCount
    have hbudget : Budget (enqueued clock Q (bumpOf (.job Q v.queue.jobCount)) v.queue payload
        jobType priority executeAfter) := ⟨h.retries, by simp only [AttemptsFit, enqueued]; omega⟩
    refine ⟨h.linked.set hpage _ rfl ?_, h.retries,
      forall_concat (P := fun _ j => Budget j) h.budget rfl hbudget, h.indexed.add hpage hcount rfl,
      h.counted.add rfl (hcount ▸ hjobs) rfl rfl rfl, h.filled.set hpage (d := 1) ?_ ?_⟩
    · rw [List.length_append, List.length_singleton]
      exact hroom
    · rw [List.length_append, List.length_singleton]
    · simp [pushes, enqueued]
  | @claimJob v i s j p p' worker hjob hpage hstatus hready hremove =>
    have hid : j.jobId = i := (hq.job i j hjob).2.1
    have hbudget := h.budget i j hjob
    have hlength := (removeJob_perm hremove).length_eq
    rw [List.length_cons] at hlength
    have hroom := h.linked.room s p hpage
    refine ⟨h.linked.set hpage p' (removeJob_fields hremove).2.2.1 (by omega), h.retries,
      forall_set (P := fun _ j => Budget j) h.budget hjob (hbudget.locked hstatus clock worker),
      h.indexed.remove hpage hjob (hid ▸ hremove) (by simp [locked]),
      h.counted.set hjob (by simp [locked, hstatus, active]) (by simp [locked, hstatus])
        (by simp [locked, hstatus]),
      h.filled.set hpage (d := 0) (by omega) (pushes_set hjob ?_)⟩
    have ha := hbudget.locked_attempts clock worker
    simp only [pushes, hstatus, locked] at ha ⊢
    omega
  | @completeJob v i j worker result hjob hstatus hworker hresult hcount =>
    have hpos := h.counted.pending_pos hjob (by simp [hstatus, active])
    refine ⟨h.linked, h.retries,
      forall_set (P := fun _ j => Budget j) h.budget hjob
        ((h.budget i j hjob).finished hstatus clock result),
      h.indexed.keep hjob (by simp [hstatus]) (by simp [finished]),
      h.counted.set hjob ?_ (by simp [finished, hstatus]) (by simp [finished, hstatus]), ?_⟩
    · simp only [finished, hstatus, active, if_true, Bool.false_eq_true, if_false]
      omega
    · intro r hr
      exact (h.filled r hr).trans (pushes_set hjob (d := 0) (by simp [pushes, hstatus, finished]))
  | @retryJob v i s j p worker errorMessage retryAfterSecs hjob hpage hretry hmay hroom =>
    have hid : j.jobId = i := (hq.job i j hjob).2.1
    have hstatus := hmay.1
    refine ⟨h.linked.set hpage _ rfl ?_, h.retries,
      forall_set (P := fun _ j => Budget j) h.budget hjob
        ((h.budget i j hjob).retried hretry clock errorMessage retryAfterSecs),
      h.indexed.push hpage hjob hid (by simp [hstatus]) rfl,
      h.counted.set hjob (by simp [retried, hstatus, active]) (by simp [retried, hstatus])
        (by simp [retried, hstatus]),
      h.filled.set hpage (d := 1) ?_ (pushes_set hjob (by simp [pushes, hstatus, retried]))⟩
    · rw [List.length_append, List.length_singleton]
      exact hroom
    · rw [List.length_append, List.length_singleton]
  | @deadLetter v i s j p worker errorMessage retryAfterSecs hjob hpage hdead hmay hcount =>
    have hstatus := hmay.1
    have hpos := h.counted.pending_pos hjob (by simp [hstatus, active])
    refine ⟨h.linked, h.retries,
      forall_set (P := fun _ j => Budget j) h.budget hjob
        ((h.budget i j hjob).deadLettered hstatus hdead clock errorMessage),
      h.indexed.keep hjob (by simp [hstatus]) (by simp [deadLettered]),
      h.counted.set hjob ?_ (by simp [deadLettered, hstatus]) (by simp [deadLettered, hstatus]), ?_⟩
    · simp only [deadLettered, hstatus, active, if_true, Bool.false_eq_true, if_false]
      omega
    · intro r hr
      exact (h.filled r hr).trans (pushes_set hjob (d := 0) (by simp [pushes, hstatus, deadLettered]))
  | @cancelJob v i s j p p' hjob hpage hstatus hremove =>
    have hid : j.jobId = i := (hq.job i j hjob).2.1
    have hlength := (removeJob_perm hremove).length_eq
    rw [List.length_cons] at hlength
    have hroom := h.linked.room s p hpage
    have hactive : active j.status = true := by rcases hstatus with hs | hs <;> simp [hs, active]
    have hpos := h.counted.pending_pos hjob hactive
    refine ⟨h.linked.set hpage p' (removeJob_fields hremove).2.2.1 (by omega), h.retries,
      forall_set (P := fun _ j => Budget j) h.budget hjob ((h.budget i j hjob).cancelled clock),
      h.indexed.remove hpage hjob (hid ▸ hremove) (by simp [cancelled]),
      h.counted.set hjob ?_ ?_ ?_, h.filled.set hpage (d := 0) (by omega) (pushes_set hjob ?_)⟩
    · rw [if_pos hactive]
      exact Nat.sub_add_cancel hpos
    · rcases hstatus with hs | hs <;> simp [cancelled, hs]
    · rcases hstatus with hs | hs <;> simp [cancelled, hs]
    · rcases hstatus with hs | hs <;> simp [pushes, cancelled, hs]
  | setQueuePaused paused =>
    exact ⟨h.linked, h.retries, h.budget, h.indexed,
      ⟨h.counted.total, h.counted.limit, h.counted.pending, h.counted.processed, h.counted.failed⟩,
      h.filled⟩

end

/-! ### On the ledger -/

section
variable [DecidableEq K] [AddressDerivation K] {L : Ledger K} {Q : K}

theorem reachable_inv {v : QueueView K} (hL : Reachable L) (hv : Hosts L Q v) : Inv v :=
  reachable_invariant (I := fun _ v => Inv v)
    (fun clock authority Q queueName maxRetries hr => inv_initial clock authority Q queueName maxRetries hr)
    (fun _ _ _ _ _ _ hq h hstep => h.step hq hstep) hL hv

theorem reachable_queue {queue : Queue K} (hL : Reachable L) (hQ : L Q = some (.queue queue)) :
    ∃ v, Hosts L Q v ∧ Inv v ∧ v.queue = queue := by
  obtain ⟨v, hv, hq⟩ := (reachable_wellFormed hL).queue hQ
  exact ⟨v, hv, reachable_inv hL hv, hq⟩

theorem reachable_job {k : K} {job : Job K} (hL : Reachable L) (hk : L k = some (.job job)) :
    ∃ v, Hosts L job.queue v ∧ Inv v ∧ k = address (.job job.queue job.jobId) ∧
      v.jobs[job.jobId]? = some job := by
  obtain ⟨v, i, hv, hki, hj⟩ := (reachable_wellFormed hL).job hk
  obtain ⟨_, hid, _⟩ := hv.placed.job i job hj
  subst hid
  exact ⟨v, hv, reachable_inv hL hv, hki, hj⟩

end

end DecQueue.Invariants
