import DecQueue.Program

/-! # One queue seen as a value

A `QueueView` gathers what the ledger holds for one queue: the two head
records, the index pages by sequence number and the jobs by id. `Shows L Q v`
says that the view is what the ledger holds at the derived addresses of `Q`,
`Placed Q v` that the back references and bumps stored in the accounts are
those of their addresses. `QueueStep` is the queue as a machine of its own:
each instruction is named by the canonical addresses of its accounts, and a
step is possible when the guards of its handler hold of the entries of the
view. -/

namespace DecQueue.View
open Kit.Lists State Handlers Outcomes Address Program

structure QueueView (K : Type) where
  queue : Queue K
  head : QueueHead K
  pages : List (JobIndex K)
  jobs : List (Job K)

variable {K : Type} [AddressDerivation K]

/-- `Q` is the address of some queue account. -/
def QueueKey (Q : K) : Prop := ∃ a n, Q = address (.queue a n)

structure Shows (L : Ledger K) (Q : K) (v : QueueView K) : Prop where
  queueAt : L Q = some (.queue v.queue)
  headAt : L (address (.queueHead Q)) = some (.queueHead v.head)
  pageAt : ∀ s, L (address (.index Q s)) = v.pages[s]?.map .jobIndex
  jobAt : ∀ i, L (address (.job Q i)) = v.jobs[i]?.map .job

structure Placed (Q : K) (v : QueueView K) : Prop where
  queueKey : Q = address (.queue v.queue.authority v.queue.name)
  queueBump : v.queue.bump = bumpOf (.queue v.queue.authority v.queue.name)
  headBump : v.head.bump = bumpOf (.queueHead Q)
  page : ∀ s p, v.pages[s]? = some p → p.queue = Q ∧ p.seq = s ∧ p.bump = bumpOf (.index Q s)
  job : ∀ i j, v.jobs[i]? = some j → j.queue = Q ∧ j.jobId = i ∧ j.bump = bumpOf (.job Q i)
  jobCount : v.queue.jobCount = v.jobs.length

theorem Placed.isKey {Q : K} {v : QueueView K} (h : Placed Q v) : QueueKey Q :=
  ⟨_, _, h.queueKey⟩

theorem Shows.unique {L : Ledger K} {Q : K} {v w : QueueView K} (hv : Shows L Q v)
    (hw : Shows L Q w) : v = w := by
  have hq : v.queue = w.queue := by
    have h := hv.queueAt.symm.trans hw.queueAt
    simpa using h
  have hh : v.head = w.head := by
    have h := hv.headAt.symm.trans hw.headAt
    simpa using h
  have hp : v.pages = w.pages := by
    apply List.ext_getElem?
    intro s
    have h := (hv.pageAt s).symm.trans (hw.pageAt s)
    exact Option.map_injective (fun _ _ he => Account.jobIndex.inj he) h
  have hj : v.jobs = w.jobs := by
    apply List.ext_getElem?
    intro i
    have h := (hv.jobAt i).symm.trans (hw.jobAt i)
    exact Option.map_injective (fun _ _ he => Account.job.inj he) h
  cases v
  cases w
  simp_all

/-! ### Identity fields under an update -/

section
variable {Q : K} {v : QueueView K}

theorem Placed.withQueue (h : Placed Q v) (q : Queue K) (ha : q.authority = v.queue.authority)
    (hn : q.name = v.queue.name) (hb : q.bump = v.queue.bump)
    (hc : q.jobCount = v.queue.jobCount) : Placed Q { v with queue := q } :=
  ⟨by rw [ha, hn]; exact h.queueKey, by rw [ha, hn, hb]; exact h.queueBump, h.headBump, h.page,
    h.job, hc.trans h.jobCount⟩

theorem Placed.withHead (h : Placed Q v) (hd : QueueHead K) (hb : hd.bump = v.head.bump) :
    Placed Q { v with head := hd } :=
  ⟨h.queueKey, h.queueBump, hb.trans h.headBump, h.page, h.job, h.jobCount⟩

theorem Placed.setPage (h : Placed Q v) {s : Nat} {p : JobIndex K} (p' : JobIndex K)
    (hp : v.pages[s]? = some p) (hq : p'.queue = p.queue) (hs : p'.seq = p.seq)
    (hb : p'.bump = p.bump) : Placed Q { v with pages := v.pages.set s p' } := by
  obtain ⟨h1, h2, h3⟩ := h.page s p hp
  exact ⟨h.queueKey, h.queueBump, h.headBump,
    forall_set h.page hp ⟨hq.trans h1, hs.trans h2, hb.trans h3⟩, h.job, h.jobCount⟩

theorem Placed.setJob (h : Placed Q v) {i : Nat} {j : Job K} (j' : Job K)
    (hj : v.jobs[i]? = some j) (hq : j'.queue = j.queue) (hid : j'.jobId = j.jobId)
    (hb : j'.bump = j.bump) : Placed Q { v with jobs := v.jobs.set i j' } := by
  obtain ⟨h1, h2, h3⟩ := h.job i j hj
  exact ⟨h.queueKey, h.queueBump, h.headBump, h.page,
    forall_set h.job hj ⟨hq.trans h1, hid.trans h2, hb.trans h3⟩,
    h.jobCount.trans List.length_set.symm⟩

theorem Placed.addPage (h : Placed Q v) {p : JobIndex K} (hq : p.queue = Q)
    (hs : p.seq = v.pages.length) (hb : p.bump = bumpOf (.index Q v.pages.length)) :
    Placed Q { v with pages := v.pages ++ [p] } :=
  ⟨h.queueKey, h.queueBump, h.headBump, forall_concat h.page rfl ⟨hq, hs, hb⟩, h.job, h.jobCount⟩

theorem Placed.addJob (h : Placed Q v) {q : Queue K} {j : Job K}
    (ha : q.authority = v.queue.authority) (hn : q.name = v.queue.name)
    (hbump : q.bump = v.queue.bump) (hc : q.jobCount = v.queue.jobCount + 1) (hq : j.queue = Q)
    (hid : j.jobId = v.jobs.length) (hb : j.bump = bumpOf (.job Q v.jobs.length)) :
    Placed Q { v with queue := q, jobs := v.jobs ++ [j] } := by
  refine ⟨by rw [ha, hn]; exact h.queueKey, by rw [ha, hn, hbump]; exact h.queueBump, h.headBump,
    h.page, forall_concat h.job rfl ⟨hq, hid, hb⟩, ?_⟩
  rw [hc, h.jobCount, List.length_append, List.length_singleton]

end

/-! ### Writing one account of the queue -/

section
variable [DecidableEq K]

theorem write_address (L : Ledger K) (s s' : Seeds K) (data : Account K) :
    write L (address s) data (address s') = if s' = s then some data else L (address s') := by
  by_cases h : s' = s
  · rw [if_pos h, h, write_self]
  · rw [if_neg h, write_of_ne fun he => h (address_injective he)]

variable {L : Ledger K} {Q : K} {v : QueueView K}

theorem Shows.writeQueue (hv : Shows L Q v) (hQ : QueueKey Q) (q : Queue K) :
    Shows (write L Q (.queue q)) Q { v with queue := q } := by
  obtain ⟨a, n, rfl⟩ := hQ
  refine ⟨write_self .., ?_, fun s => ?_, fun i => ?_⟩
  · rw [write_address, if_neg (by simp)]
    exact hv.headAt
  · rw [write_address, if_neg (by simp)]
    exact hv.pageAt s
  · rw [write_address, if_neg (by simp)]
    exact hv.jobAt i

theorem Shows.writeHead (hv : Shows L Q v) (hQ : QueueKey Q) (h : QueueHead K) :
    Shows (write L (address (.queueHead Q)) (.queueHead h)) Q { v with head := h } := by
  obtain ⟨a, n, rfl⟩ := hQ
  refine ⟨?_, write_self .., fun s => ?_, fun i => ?_⟩
  · rw [write_address, if_neg (by simp)]
    exact hv.queueAt
  · rw [write_address, if_neg (by simp)]
    exact hv.pageAt s
  · rw [write_address, if_neg (by simp)]
    exact hv.jobAt i

/-- Writing page `s` replaces the entry, or appends it when `s` is the next
sequence number; `ps` is the list that results. -/
theorem Shows.writePage (hv : Shows L Q v) (hQ : QueueKey Q) {s : Nat} {p : JobIndex K}
    {ps : List (JobIndex K)} (hps : ∀ t, ps[t]? = if t = s then some p else v.pages[t]?) :
    Shows (write L (address (.index Q s)) (.jobIndex p)) Q { v with pages := ps } := by
  obtain ⟨a, n, rfl⟩ := hQ
  refine ⟨?_, ?_, fun t => ?_, fun i => ?_⟩
  · rw [write_address, if_neg (by simp)]
    exact hv.queueAt
  · rw [write_address, if_neg (by simp)]
    exact hv.headAt
  · rw [write_address, hps t, hv.pageAt t]
    by_cases ht : t = s <;> simp [ht]
  · rw [write_address, if_neg (by simp)]
    exact hv.jobAt i

theorem Shows.writeJob (hv : Shows L Q v) (hQ : QueueKey Q) {i : Nat} {j : Job K}
    {js : List (Job K)} (hjs : ∀ t, js[t]? = if t = i then some j else v.jobs[t]?) :
    Shows (write L (address (.job Q i)) (.job j)) Q { v with jobs := js } := by
  obtain ⟨a, n, rfl⟩ := hQ
  refine ⟨?_, ?_, fun s => ?_, fun t => ?_⟩
  · rw [write_address, if_neg (by simp)]
    exact hv.queueAt
  · rw [write_address, if_neg (by simp)]
    exact hv.headAt
  · rw [write_address, if_neg (by simp)]
    exact hv.pageAt s
  · rw [write_address, hjs t, hv.jobAt t]
    by_cases ht : t = i <;> simp [ht]

end

/-! ### Instructions with the canonical addresses -/

def initializeAt (authority : K) (queueName : String) (maxRetries : Nat) : Instruction K :=
  .initializeQueue ⟨address (.queue authority queueName),
    address (.queueHead (address (.queue authority queueName))),
    address (.index (address (.queue authority queueName)) 0), authority⟩ queueName maxRetries

def growAt (Q authority : K) (tail : Nat) : Instruction K :=
  .growIndex ⟨Q, address (.queueHead Q), address (.index Q tail), address (.index Q (tail + 1)),
    authority⟩ (tail + 1)

def advanceAt (Q : K) (head : Nat) : Instruction K :=
  .advanceHead ⟨address (.queueHead Q), address (.index Q head)⟩

def enqueueAt (Q payer : K) (id tail : Nat) (payload : Bytes) (jobType : String) (priority : Nat)
    (executeAfter : Int64) : Instruction K :=
  .enqueueJob ⟨Q, address (.job Q id), address (.queueHead Q), address (.index Q tail), payer⟩
    payload jobType priority executeAfter

def claimAt (Q worker : K) (id seq : Nat) : Instruction K :=
  .claimJob ⟨address (.job Q id), worker, address (.index Q seq)⟩

def completeAt (Q worker : K) (id : Nat) (result : Option String) : Instruction K :=
  .completeJob ⟨Q, address (.job Q id), worker⟩ result

def failAt (Q worker : K) (id seq : Nat) (errorMessage : String) (retryAfterSecs : Int64) :
    Instruction K :=
  .failJob ⟨Q, address (.job Q id), worker, address (.index Q seq)⟩ errorMessage retryAfterSecs

def cancelAt (Q authority : K) (id seq : Nat) : Instruction K :=
  .cancelJob ⟨Q, address (.job Q id), authority, address (.index Q seq)⟩

/-! ### The queue as a machine -/

def initial (clock : Int64) (authority Q : K) (queueName : String) (maxRetries : Nat) : QueueView K where
  queue := ⟨authority, queueName, 0, 0, 0, 0, maxRetries, false, clock,
    bumpOf (.queue authority queueName)⟩
  head := ⟨authority, 0, 0, 0, bumpOf (.queueHead Q)⟩
  pages := [⟨Q, 0, 0, [], bumpOf (.index Q 0)⟩]
  jobs := []

inductive QueueStep (Q : K) (clock : Int64) :
    Instruction K → QueueView K → QueueView K → List (Event K) → Prop where
  | growIndex {v : QueueView K} {tail : JobIndex K}
      (hpage : v.pages[v.head.tailIndexSeq]? = some tail)
      (hfree : v.pages.length = v.head.tailIndexSeq + 1)
      (hlimit : v.head.tailIndexSeq + 1 ≤ u64Max)
      (hfull : maxIndexEntries ≤ tail.jobIds.length) :
      QueueStep Q clock
        (.growIndex ⟨Q, address (.queueHead Q), address (.index Q v.head.tailIndexSeq),
          address (.index Q (v.head.tailIndexSeq + 1)), v.queue.authority⟩
          (v.head.tailIndexSeq + 1))
        v
        { v with
          head := { v.head with tailIndexSeq := v.head.tailIndexSeq + 1 }
          pages := v.pages.set v.head.tailIndexSeq
              { tail with nextSeq := v.head.tailIndexSeq + 1 } ++
            [⟨Q, v.head.tailIndexSeq + 1, 0, [], bumpOf (.index Q (v.head.tailIndexSeq + 1))⟩] }
        []
  | advanceHead {v : QueueView K} {page : JobIndex K}
      (hpage : v.pages[v.head.headIndexSeq]? = some page) (hempty : page.jobIds = [])
      (hnext : page.nextSeq ≠ 0 ∨ v.head.headIndexSeq ≠ v.head.tailIndexSeq) :
      QueueStep Q clock
        (.advanceHead ⟨address (.queueHead Q), address (.index Q v.head.headIndexSeq)⟩)
        v { v with head := { v.head with headIndexSeq := page.nextSeq } } []
  | enqueueJob {v : QueueView K} {tail : JobIndex K} (payer : K) (payload : Bytes)
      (jobType : String) (priority : Nat) (executeAfter : Int64)
      (hpage : v.pages[v.head.tailIndexSeq]? = some tail) (hpayload : payload.length ≤ 512)
      (htype : 0 < jobType.utf8ByteSize ∧ jobType.utf8ByteSize ≤ 32) (hpriority : priority ≤ 2)
      (hopen : v.queue.paused = false) (hroom : tail.jobIds.length < maxIndexEntries)
      (hjobs : v.queue.jobCount + 1 ≤ u64Max) (hpending : v.queue.pendingCount + 1 ≤ u64Max)
      (htotal : v.head.totalJobs + 1 ≤ u64Max) :
      QueueStep Q clock
        (.enqueueJob ⟨Q, address (.job Q v.queue.jobCount), address (.queueHead Q),
          address (.index Q v.head.tailIndexSeq), payer⟩ payload jobType priority executeAfter)
        v
        { queue := { v.queue with
            jobCount := v.queue.jobCount + 1
            pendingCount := v.queue.pendingCount + 1 }
          head := { v.head with totalJobs := v.head.totalJobs + 1 }
          pages := v.pages.set v.head.tailIndexSeq
            { tail with jobIds := tail.jobIds ++ [v.queue.jobCount] }
          jobs := v.jobs ++ [enqueued clock Q (bumpOf (.job Q v.queue.jobCount)) v.queue payload
            jobType priority executeAfter] }
        [.jobEnqueued Q v.queue.jobCount jobType priority
          (if executeAfter = 0 then clock else executeAfter) clock]
  | claimJob {v : QueueView K} {i s : Nat} {j : Job K} {p p' : JobIndex K} (worker : K)
      (hjob : v.jobs[i]? = some j) (hpage : v.pages[s]? = some p) (hstatus : j.status = .pending)
      (hready : j.executeAfter ≤ clock) (hremove : p.removeJob j.jobId = .ok p') :
      QueueStep Q clock (.claimJob ⟨address (.job Q i), worker, address (.index Q s)⟩)
        v { v with pages := v.pages.set s p', jobs := v.jobs.set i (locked clock worker j) }
        [.jobClaimed j.queue j.jobId worker (locked clock worker j).attempts clock]
  | completeJob {v : QueueView K} {i : Nat} {j : Job K} (worker : K) (result : Option String)
      (hjob : v.jobs[i]? = some j) (hstatus : j.status = .processing)
      (hworker : j.worker = some worker) (hresult : ResultFits result)
      (hcount : v.queue.processedCount + 1 ≤ u64Max) :
      QueueStep Q clock (.completeJob ⟨Q, address (.job Q i), worker⟩ result)
        v
        { v with
          queue := { v.queue with
            pendingCount := v.queue.pendingCount - 1
            processedCount := v.queue.processedCount + 1 }
          jobs := v.jobs.set i (finished clock result j) }
        [.jobCompleted Q j.jobId worker result clock]
  | retryJob {v : QueueView K} {i s : Nat} {j : Job K} {p : JobIndex K} (worker : K)
      (errorMessage : String) (retryAfterSecs : Int64) (hjob : v.jobs[i]? = some j)
      (hpage : v.pages[s]? = some p) (hretry : j.attempts < j.maxRetries)
      (hmay : MayFail worker j errorMessage) (hroom : p.jobIds.length < maxIndexEntries) :
      QueueStep Q clock
        (.failJob ⟨Q, address (.job Q i), worker, address (.index Q s)⟩ errorMessage retryAfterSecs)
        v
        { v with
          pages := v.pages.set s { p with jobIds := p.jobIds ++ [j.jobId] }
          jobs := v.jobs.set i (retried clock errorMessage retryAfterSecs j) }
        [.jobRetrying Q j.jobId j.attempts (clock + backoff j.attempts retryAfterSecs) errorMessage]
  | deadLetter {v : QueueView K} {i s : Nat} {j : Job K} {p : JobIndex K} (worker : K)
      (errorMessage : String) (retryAfterSecs : Int64) (hjob : v.jobs[i]? = some j)
      (hpage : v.pages[s]? = some p) (hdead : ¬j.attempts < j.maxRetries)
      (hmay : MayFail worker j errorMessage) (hcount : v.queue.failedCount + 1 ≤ u64Max) :
      QueueStep Q clock
        (.failJob ⟨Q, address (.job Q i), worker, address (.index Q s)⟩ errorMessage retryAfterSecs)
        v
        { v with
          queue := { v.queue with
            pendingCount := v.queue.pendingCount - 1
            failedCount := v.queue.failedCount + 1 }
          jobs := v.jobs.set i (deadLettered clock errorMessage j) }
        [.jobFailed Q j.jobId j.attempts errorMessage clock]
  | cancelJob {v : QueueView K} {i s : Nat} {j : Job K} {p p' : JobIndex K}
      (hjob : v.jobs[i]? = some j) (hpage : v.pages[s]? = some p)
      (hstatus : j.status = .pending ∨ j.status = .processing)
      (hremove : p.removeJob j.jobId = .ok p') :
      QueueStep Q clock
        (.cancelJob ⟨Q, address (.job Q i), v.queue.authority, address (.index Q s)⟩)
        v
        { v with
          queue := { v.queue with pendingCount := v.queue.pendingCount - 1 }
          pages := v.pages.set s p'
          jobs := v.jobs.set i (cancelled clock j) }
        [.jobCancelled Q j.jobId v.queue.authority clock]
  | setQueuePaused {v : QueueView K} (paused : Bool) :
      QueueStep Q clock (.setQueuePaused ⟨Q, v.queue.authority⟩ paused)
        v { v with queue := { v.queue with paused := paused } }
        [.queuePauseChanged Q paused v.queue.authority]

theorem QueueStep.placed {Q : K} {clock : Int64} {ix : Instruction K} {v v' : QueueView K}
    {evs : List (Event K)} (hv : Placed Q v) (h : QueueStep Q clock ix v v' evs) : Placed Q v' := by
  cases h with
  | @growIndex v tail hpage hfree hlimit hfull =>
    have hset := hv.setPage { tail with nextSeq := v.head.tailIndexSeq + 1 } hpage rfl rfl rfl
    have hhead := hset.withHead { v.head with tailIndexSeq := v.head.tailIndexSeq + 1 } rfl
    apply hhead.addPage rfl
    · simp only [List.length_set, hfree]
    · simp only [List.length_set, hfree]
  | advanceHead hpage hempty hnext => exact hv.withHead _ rfl
  | @enqueueJob v tail payer payload jobType priority executeAfter hpage =>
    have hset := hv.setPage { tail with jobIds := tail.jobIds ++ [v.queue.jobCount] } hpage rfl rfl rfl
    have hhead := hset.withHead { v.head with totalJobs := v.head.totalJobs + 1 } rfl
    have hbump : bumpOf (.job Q v.queue.jobCount) = bumpOf (.job Q v.jobs.length) := by
      rw [hv.jobCount]
    exact hhead.addJob rfl rfl rfl rfl rfl hv.jobCount hbump
  | @claimJob v i s j p p' worker hjob hpage hstatus hready hremove =>
    obtain ⟨hq, hs, _, hb⟩ := removeJob_fields hremove
    exact (hv.setPage p' hpage hq hs hb).setJob (locked clock worker j) hjob rfl rfl rfl
  | @completeJob v i j worker result hjob =>
    exact (hv.setJob (finished clock result j) hjob rfl rfl rfl).withQueue _ rfl rfl rfl rfl
  | @retryJob v i s j p worker errorMessage retryAfterSecs hjob hpage =>
    have hset := hv.setPage { p with jobIds := p.jobIds ++ [j.jobId] } hpage rfl rfl rfl
    exact hset.setJob (retried clock errorMessage retryAfterSecs j) hjob rfl rfl rfl
  | @deadLetter v i s j p worker errorMessage retryAfterSecs hjob =>
    exact (hv.setJob (deadLettered clock errorMessage j) hjob rfl rfl rfl).withQueue _ rfl rfl rfl rfl
  | @cancelJob v i s j p p' hjob hpage hstatus hremove =>
    obtain ⟨hq, hs, _, hb⟩ := removeJob_fields hremove
    have hset := (hv.setPage p' hpage hq hs hb).setJob (cancelled clock j) hjob rfl rfl rfl
    exact hset.withQueue _ rfl rfl rfl rfl
  | setQueuePaused paused => exact hv.withQueue _ rfl rfl rfl rfl

theorem initial_placed (clock : Int64) (authority : K) (queueName : String) (maxRetries : Nat) :
    Placed (address (.queue authority queueName))
      (initial clock authority (address (.queue authority queueName)) queueName maxRetries) where
  queueKey := rfl
  queueBump := rfl
  headBump := rfl
  page s p h := by
    cases s with
    | zero =>
      cases h
      exact ⟨rfl, rfl, rfl⟩
    | succ s => simp [initial] at h
  job i j h := by simp [initial] at h
  jobCount := rfl

end DecQueue.View
