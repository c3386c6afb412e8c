import DecQueue.AuditRecord
import DecQueue.Conservation
import DecQueue.Discovery
import DecQueue.RetryRoom

/-! # The queue on a dashboard (app/src/solana.ts, client/index.ts)

`fetchQueueSnapshot` reads the queue, derives the address of every job it has
counted and fetches the records in batches of fifty; `getAllJobs` reads them
one by one. Every request is answered from the ledger of its own moment, so
what is shown need not be the state of any single ledger. The code that
decodes text and parses JSON belongs to the platform. -/

namespace DecQueue.Snapshot
open Kit.Fallible Kit.ComparisonSort Kit.Transition State Address Program DecqueueCore Utf16 Records

/-! ### What is shown -/

structure QueueView (K : Type) where
  publicKey : K
  name : JsString
  authority : K
  totalJobs : Nat
  pendingJobs : Nat
  completedJobs : Nat
  failedJobs : Nat
  maxRetries : Nat
  paused : Bool
  createdAt : Date
  deriving DecidableEq

structure JobView (K V : Type) where
  publicKey : K
  jobId : Nat
  jobType : JsString
  payload : V
  payloadText : JsString
  status : JobStatus
  priority : Nat
  createdAt : Date
  executeAfter : Date
  attempts : Nat
  maxRetries : Nat
  worker : Option K
  startedAt : Option Date
  completedAt : Option Date
  result : Option JsString
  errorMessage : Option JsString
  deriving DecidableEq

structure QueueSnapshot (K V : Type) where
  queue : QueueView K
  jobs : List (JobView K V)
  slot : Nat
  fetchedAt : Int
  deriving DecidableEq

/-- `TextDecoder.decode`, `JSON.parse`, and two of its values. -/
structure Platform (V : Type) where
  decode : Bytes → JsString
  parse : JsString → Except String V
  emptyObject : V
  ofString : JsString → V

section
variable {K V : Type}

/-- Text that is no JSON is shown as it is. -/
def parsePayload (P : Platform V) (payload : Bytes) : V × JsString :=
  let text := P.decode payload
  if text = [] then (P.emptyObject, [])
  else
    match P.parse text with
    | .ok parsed => (parsed, text)
    | .error _ => (P.ofString text, text)

def normalizeJob (P : Platform V) (jobPublicKey : K) (rawJob : Job K) :
    Except ClientError (JobView K V) := do
  let (parsed, text) := parsePayload P rawJob.payload
  let jobId ← toNumber rawJob.jobId
  let createdAt ← dateOfSeconds rawJob.createdAt
  let executeAfter ← dateOfSeconds rawJob.executeAfter
  let startedAt ← rawJob.startedAt.mapM dateOfSeconds
  let completedAt ← rawJob.completedAt.mapM dateOfSeconds
  pure { publicKey := jobPublicKey, jobId := jobId, jobType := utf16 rawJob.jobType,
         payload := parsed, payloadText := text, status := rawJob.status,
         priority := rawJob.priority, createdAt := createdAt, executeAfter := executeAfter,
         attempts := rawJob.attempts, maxRetries := rawJob.maxRetries, worker := rawJob.worker,
         startedAt := startedAt, completedAt := completedAt, result := rawJob.result.map utf16,
         errorMessage := rawJob.errorMessage.map utf16 }

/-! ### Fetching -/

def chunk {α : Type} (items : List α) (size : Nat) : List (List α) :=
  (List.range ((items.length + size - 1) / size)).map fun index =>
    (items.drop (index * size)).take size

/-- `fetchMultiple` gives `null` for an account that does not exist. -/
def fetchMultiple (L : Ledger K) (keys : List K) : Except ClientError (List (Option (Job K))) :=
  keys.mapM fun k =>
    match L k with
    | none => .ok none
    | some (.job rawJob) => .ok (some rawJob)
    | some _ => .error (.fetchFailed (.anchor .accountDiscriminatorMismatch))

def fetchBatch (P : Platform V) (L : Ledger K) (keyChunk : List K) :
    Except ClientError (List (JobView K V)) := do
  let batch ← fetchMultiple L keyChunk
  let found := (keyChunk.zip batch).filterMap fun entry => entry.2.map (Prod.mk entry.1)
  found.mapM fun entry => normalizeJob P entry.1 entry.2

/-- Batch number `b` is answered from the ledger `batchAt b`. -/
def fetchBatches (P : Platform V) (batchAt : Nat → Ledger K) :
    Nat → List (List K) → Except ClientError (List (JobView K V))
  | _, [] => pure []
  | b, keyChunk :: rest => do
    let jobs ← fetchBatch P (batchAt b) keyChunk
    let more ← fetchBatches P batchAt (b + 1) rest
    pure (jobs ++ more)

def statusOrder : JobStatus → Int
  | .processing => 0
  | .pending => 1
  | .failed => 2
  | .completed => 3
  | .cancelled => 4

/-- The comparator. With an invalid date it returns NaN, which `sort` reads as zero. -/
def compareViews (left right : JobView K V) : Int :=
  if left.status ≠ right.status then statusOrder left.status - statusOrder right.status
  else if left.priority ≠ right.priority then (right.priority : Int) - left.priority
  else
    match left.createdAt, right.createdAt with
    | some t, some u => u - t
    | _, _ => 0

/-- `Array.from` with a length. -/
def arrayFrom (length : Nat) : Except ClientError (List Nat) :=
  if length < 2 ^ 32 then .ok (List.range length) else .error (.thrown "Invalid array length")

variable [AddressDerivation K]

def fetchQueueSnapshot (S : Sorter (JobView K V)) (P : Platform V) (L : Ledger K)
    (batchAt : Nat → Ledger K) (slot : Nat) (fetchedAt : Int) (queuePublicKey : K) :
    Except ClientError (QueueSnapshot K V) := do
  let rawQueue ← fetchQueue L queuePublicKey
  let totalJobs ← toNumber rawQueue.jobCount
  let indices ← arrayFrom totalJobs
  let jobKeys := indices.map fun index => address (.job queuePublicKey index)
  let jobs ← fetchBatches P batchAt 0 (chunk jobKeys 50)
  let pendingJobs ← toNumber rawQueue.pendingCount
  let completedJobs ← toNumber rawQueue.processedCount
  let failedJobs ← toNumber rawQueue.failedCount
  let createdAt ← dateOfSeconds rawQueue.createdAt
  pure { queue := { publicKey := queuePublicKey, name := utf16 rawQueue.name,
                    authority := rawQueue.authority, totalJobs := totalJobs,
                    pendingJobs := pendingJobs, completedJobs := completedJobs,
                    failedJobs := failedJobs, maxRetries := rawQueue.maxRetries,
                    paused := rawQueue.paused, createdAt := createdAt }
         jobs := S.sort compareViews jobs, slot := slot, fetchedAt := fetchedAt }

/-- Job `id` is read from the ledger `readAt id`; what cannot be read is
skipped, and so is what no array can hold. -/
def getAllJobs (parse : Bytes → Except String V) (L : Ledger K) (readAt : Nat → Ledger K)
    (queuePda : K) : Except ClientError (List (JobRecord K V)) := do
  let queueData ← fetchQueue L queuePda
  let totalJobs ← toNumber queueData.jobCount
  let jobs := (List.range totalJobs).filterMap fun id =>
    (getJob parse (readAt id) (address (.job queuePda id))).toOption
  pure (jobs.take (2 ^ 32 - 1))

end

/-! ### Splitting into batches -/

section
variable {α : Type}

theorem chunk_nil (size : Nat) : chunk ([] : List α) size = [] := by
  have hzero : (0 + size - 1) / size = 0 := by
    cases size with
    | zero => exact Nat.div_zero _
    | succ size => exact Nat.div_eq_of_lt (by omega)
  simp only [chunk, List.length_nil, hzero, List.range_zero, List.map_nil]

theorem chunk_cons {items : List α} {size : Nat} (hsize : 0 < size) (hitems : items ≠ []) :
    chunk items size = items.take size :: chunk (items.drop size) size := by
  have hlength := List.length_pos_iff.mpr hitems
  have hcount : (items.length + size - 1) / size =
      ((items.length - size) + size - 1) / size + 1 := by
    by_cases hle : size ≤ items.length
    · rw [← Nat.add_div_right _ hsize]
      congr 1
      omega
    · have h1 : (items.length + size - 1) / size = 1 :=
        Nat.div_eq_of_lt_le (by omega) (by omega)
      have h0 : (items.length - size + size - 1) / size = 0 := Nat.div_eq_of_lt (by omega)
      rw [h1, h0]
  simp only [chunk, List.length_drop, hcount, List.range_succ_eq_map, List.map_cons, List.map_map,
    Nat.zero_mul, List.drop_zero]
  congr 1
  apply List.map_congr_left
  intro index _
  simp only [Function.comp, List.drop_drop, Nat.succ_mul, Nat.add_comm]

end

/-! ### Reading batch by batch -/

section
variable {K V : Type} [AddressDerivation K] {P : Platform V}

/-- The card of one job, read on its own. -/
def viewOf (P : Platform V) (L : Ledger K) (Q : K) (id : Nat) : Except ClientError (JobView K V) := do
  let rawJob ← fetchJob L (address (.job Q id))
  normalizeJob P (address (.job Q id)) rawJob

/-- Every job of the list has an account. -/
def Stored (L : Ledger K) (Q : K) (ids : List Nat) : Prop :=
  ∀ id ∈ ids, ∃ job, L (address (.job Q id)) = some (.job job)

theorem Stored.batch {L : Ledger K} {Q : K} {ids : List Nat} (h : Stored L Q ids) :
    fetchBatch P L (ids.map fun id => address (.job Q id)) = ids.mapM (viewOf P L Q) := by
  have hall : ∀ ids : List Nat, Stored L Q ids → ∃ jobs,
      fetchMultiple L (ids.map fun id => address (.job Q id)) = .ok (jobs.map some) ∧
        List.Forall₂ (fun id job => fetchJob L (address (.job Q id)) = .ok job) ids jobs := by
    intro ids h
    induction ids with
    | nil => exact ⟨[], rfl, .nil⟩
    | cons id ids ih =>
      obtain ⟨⟨job, hjob⟩, hrest⟩ := List.forall_mem_cons.mp h
      obtain ⟨jobs, hfetch, hread⟩ := ih hrest
      refine ⟨job :: jobs, ?_, .cons ?_ hread⟩
      · simp only [fetchMultiple] at hfetch
        simp only [fetchMultiple, List.map_cons, List.mapM_cons, hjob, hfetch]
        rfl
      · simp only [fetchJob, (loadJob_ok_iff L _ job).mpr hjob]
  obtain ⟨jobs, hfetch, hread⟩ := hall ids h
  simp only [fetchBatch, hfetch]
  clear h hfetch
  show ((((ids.map fun id => address (.job Q id)).zip (jobs.map some)).filterMap fun entry =>
    entry.2.map (Prod.mk entry.1)).mapM fun entry => normalizeJob P entry.1 entry.2) = _
  induction hread with
  | nil => rfl
  | @cons id job ids jobs hjob hrest ih =>
    simp only [List.map_cons, List.zip_cons_cons, List.filterMap_cons, Option.map_some, List.mapM_cons,
      ih, viewOf, hjob]
    rfl

/-- A batch of fifty keys begins where the number of the batch says. -/
theorem fetchBatches_eq {batchAt : Nat → Ledger K} {Q : K} (n : Nat) :
    ∀ b, (∀ c ≥ b, Stored (batchAt c) Q (List.range' (50 * b) n)) →
      fetchBatches P batchAt b
          (chunk ((List.range' (50 * b) n).map fun id => address (.job Q id)) 50) =
        (List.range' (50 * b) n).mapM fun id => viewOf P (batchAt (id / 50)) Q id := by
  induction n using Nat.strongRecOn with
  | ind n ih =>
    intro b hstored
    rcases Nat.eq_zero_or_pos n with rfl | hn
    · simp only [List.range'_zero, List.map_nil, chunk_nil, fetchBatches, List.mapM_nil]
    · have hsplit : List.range' (50 * b) n =
          List.range' (50 * b) (min 50 n) ++ List.range' (50 * (b + 1)) (n - 50) := by
        by_cases hle : 50 ≤ n
        · rw [Nat.min_eq_left hle, Nat.mul_add, Nat.mul_one, List.range'_append_1]
          congr 1
          omega
        · rw [Nat.min_eq_right (by omega), show n - 50 = 0 by omega, List.range'_zero, List.append_nil]
      have hnonempty : (List.range' (50 * b) n).map (fun id => address (.job Q id)) ≠ [] := by
        intro he
        have hlen := congrArg List.length he
        simp only [List.length_map, List.length_range', List.length_nil] at hlen
        omega
      have hfirst : Stored (batchAt b) Q (List.range' (50 * b) (min 50 n)) := fun id hid =>
        hstored b le_rfl id (hsplit ▸ List.mem_append_left _ hid)
      have hrest := ih (n - 50) (by omega) (b + 1) fun c hc id hid =>
        hstored c (Nat.le_of_succ_le hc) id (hsplit ▸ List.mem_append_right _ hid)
      have hbatch : ∀ id ∈ List.range' (50 * b) (min 50 n),
          viewOf P (batchAt (id / 50)) Q id = viewOf P (batchAt b) Q id := by
        intro id hid
        rw [List.mem_range'_1] at hid
        have hdiv : id / 50 = b := by omega
        rw [hdiv]
      have htake : (List.range' (50 * b) n).take 50 = List.range' (50 * b) (min 50 n) := by
        by_cases hle : 50 ≤ n
        · rw [List.take_range'_of_length_ge hle, Nat.min_eq_left hle]
        · rw [List.take_range'_of_length_le (by omega), Nat.min_eq_right (by omega)]
      have hdrop : (List.range' (50 * b) n).drop 50 = List.range' (50 * (b + 1)) (n - 50) := by
        rw [List.drop_range', Nat.mul_add]
      rw [chunk_cons (by decide) hnonempty, fetchBatches, ← List.map_take, ← List.map_drop, htake, hdrop,
        hfirst.batch, hrest, hsplit, List.mapM_append, mapM_congr hbatch]

end

/-! ### Which records can be shown -/

section
variable {K V : Type} {P : Platform V}

/-- A time the client can turn into a number. -/
def Safe (t : Int64) : Prop := t.toInt.natAbs < 2 ^ 53

instance (t : Int64) : Decidable (Safe t) := inferInstanceAs (Decidable (_ < _))

structure TimesSafe (job : Job K) : Prop where
  createdAt : Safe job.createdAt
  executeAfter : Safe job.executeAfter
  startedAt : ∀ t ∈ job.startedAt, Safe t
  completedAt : ∀ t ∈ job.completedAt, Safe t

theorem dateOfSeconds_ok_iff {t : Int64} {d : Date} :
    dateOfSeconds t = .ok d ↔ Safe t ∧ newDate (t.toInt * 1000) = d := by
  simp only [dateOfSeconds, bind_ok_iff, pure_ok_iff]
  by_cases h : Safe t
  · have hread : intToNumber t = .ok t.toInt := if_pos h
    simp only [hread, Except.ok.injEq, exists_eq_left', h, true_and]
  · have hread : intToNumber t = .error (.thrown "Number can only safely store up to 53 bits") := if_neg h
    simp only [hread, reduceCtorEq, false_and, exists_false, h]

theorem toNumber_ok_iff {n m : Nat} : toNumber n = .ok m ↔ n < 2 ^ 53 ∧ n = m := by
  by_cases h : n < 2 ^ 53
  · have hread : toNumber n = .ok n := if_pos h
    simp only [hread, Except.ok.injEq, h, true_and]
  · have hread : toNumber n = .error (.thrown "Number can only safely store up to 53 bits") := if_neg h
    simp only [hread, reduceCtorEq, h, false_and]

theorem arrayFrom_ok_iff {n : Nat} {indices : List Nat} :
    arrayFrom n = .ok indices ↔ n < 2 ^ 32 ∧ List.range n = indices := by
  by_cases h : n < 2 ^ 32
  · have hread : arrayFrom n = .ok (List.range n) := if_pos h
    simp only [hread, Except.ok.injEq, h, true_and]
  · have hread : arrayFrom n = .error (.thrown "Invalid array length") := if_neg h
    simp only [hread, reduceCtorEq, h, false_and]

theorem mapM_dateOfSeconds {t : Option Int64} :
    (∃ d, t.mapM dateOfSeconds = .ok d) ↔ ∀ s ∈ t, Safe s := by
  cases t with
  | none => simp [pure_ok_iff]
  | some s =>
    have hone : (∃ d, (some s).mapM dateOfSeconds = .ok d) ↔ ∃ d, dateOfSeconds s = .ok d := by
      simp only [Option.mapM_some, map_eq_pure_bind, bind_ok_iff, pure_ok_iff]
      constructor
      · intro hparts
        obtain ⟨_, d, hd, _⟩ := hparts
        exact ⟨d, hd⟩
      · intro hparts
        obtain ⟨d, hd⟩ := hparts
        exact ⟨_, d, hd, rfl⟩
    simp only [hone, dateOfSeconds_ok_iff, exists_and_left, exists_eq', and_true, Option.mem_some_iff,
      forall_eq']

/-- What of the record is on its card as it is. -/
structure ShowsJob (k : K) (job : Job K) (view : JobView K V) : Prop where
  publicKey : view.publicKey = k
  jobId : view.jobId = job.jobId
  status : view.status = job.status
  priority : view.priority = job.priority
  createdAt : view.createdAt = newDate (job.createdAt.toInt * 1000)

theorem showsJob_of_normalize {k : K} {job : Job K} {view : JobView K V}
    (h : normalizeJob P k job = .ok view) : ShowsJob k job view := by
  simp only [normalizeJob, bind_ok_iff, pure_ok_iff, dateOfSeconds_ok_iff, toNumber_ok_iff] at h
  obtain ⟨_, ⟨_, rfl⟩, _, ⟨_, rfl⟩, _, ⟨_, rfl⟩, _, _, _, _, rfl⟩ := h
  exact ⟨rfl, rfl, rfl, rfl, rfl⟩

theorem normalizeJob_ok_iff {k : K} {job : Job K} :
    (∃ view, normalizeJob P k job = .ok view) ↔ job.jobId < 2 ^ 53 ∧ TimesSafe job := by
  simp only [normalizeJob, bind_ok_iff, pure_ok_iff, dateOfSeconds_ok_iff, toNumber_ok_iff]
  constructor
  · rintro ⟨_, _, ⟨hid, rfl⟩, _, ⟨hcreated, rfl⟩, _, ⟨hafter, rfl⟩, s, hs, c, hc, rfl⟩
    exact ⟨hid, hcreated, hafter, mapM_dateOfSeconds.mp ⟨s, hs⟩, mapM_dateOfSeconds.mp ⟨c, hc⟩⟩
  · intro hparts
    obtain ⟨hid, hcreated, hafter, hstarted, hcompleted⟩ := hparts
    obtain ⟨s, hs⟩ := mapM_dateOfSeconds.mpr hstarted
    obtain ⟨c, hc⟩ := mapM_dateOfSeconds.mpr hcompleted
    exact ⟨_, _, ⟨hid, rfl⟩, _, ⟨hcreated, rfl⟩, _, ⟨hafter, rfl⟩, s, hs, c, hc, rfl⟩

end

/-! ### The order of the cards -/

section
variable {K V : Type} {views : List (JobView K V)} {a b : JobView K V}

def Precedes (a b : JobView K V) : Prop :=
  statusOrder a.status < statusOrder b.status ∨
    (a.status = b.status ∧ (b.priority < a.priority ∨
      (a.priority = b.priority ∧
        ∃ t u, a.createdAt = some t ∧ b.createdAt = some u ∧ u ≤ t)))

def statusKey (view : JobView K V) : Int := statusOrder view.status

def priorityKey (view : JobView K V) : Int := -view.priority

def ageKey (view : JobView K V) : Int := -(view.createdAt.getD 0)

theorem statusOrder_injective {s t : JobStatus} (h : statusOrder s = statusOrder t) : s = t := by
  cases s <;> cases t <;> first | rfl | cases h

theorem compareViews_eq (ha : a.createdAt.isSome = true) (hb : b.createdAt.isSome = true) :
    compareViews a b = thenBy (byKey statusKey) (thenBy (byKey priorityKey) (byKey ageKey)) a b := by
  obtain ⟨t, ht⟩ := Option.isSome_iff_exists.mp ha
  obtain ⟨u, hu⟩ := Option.isSome_iff_exists.mp hb
  have hstatus : statusOrder a.status - statusOrder b.status ≠ 0 ↔ a.status ≠ b.status :=
    not_congr (Int.sub_eq_zero.trans ⟨statusOrder_injective, fun h => by rw [h]⟩)
  have hpriority : -(a.priority : Int) - -(b.priority : Int) ≠ 0 ↔ a.priority ≠ b.priority := by omega
  simp only [compareViews, thenBy, byKey, statusKey, priorityKey, ageKey, ht, hu, Option.getD_some,
    hstatus, hpriority]
  split
  · rfl
  · split <;> omega

theorem compareViews_consistent (h : ∀ view ∈ views, view.createdAt.isSome = true) :
    Consistent compareViews views :=
  consistent_congr (fun a ha b hb => compareViews_eq (h a ha) (h b hb))
    ((consistent_byKey statusKey views).thenBy
      ((consistent_byKey priorityKey views).thenBy (consistent_byKey ageKey views)))

theorem precedes_of_compare (ha : a.createdAt.isSome = true) (hb : b.createdAt.isSome = true)
    (h : compareViews a b ≤ 0) : Precedes a b := by
  obtain ⟨t, ht⟩ := Option.isSome_iff_exists.mp ha
  obtain ⟨u, hu⟩ := Option.isSome_iff_exists.mp hb
  unfold compareViews at h
  split at h
  next hne =>
    have hkeys : statusOrder a.status ≠ statusOrder b.status := fun he => hne (statusOrder_injective he)
    exact .inl (by omega)
  next heq =>
    have hstatus : a.status = b.status := not_not.mp heq
    split at h
    next hne => exact .inr ⟨hstatus, .inl (by omega)⟩
    next hpriority =>
      simp only [ht, hu] at h
      exact .inr ⟨hstatus, .inr ⟨not_not.mp hpriority, t, u, ht, hu, by omega⟩⟩

end

/-! ### Reads at later moments -/

section
variable {K V : Type} [AddressDerivation K] [DecidableEq K] {P : Platform V} {L : Ledger K} {Q : K}
  {queue : Queue K} {batchAt : Nat → Ledger K}

/-- Every request is answered after the queue has been read. -/
def Later (L : Ledger K) (batchAt : Nat → Ledger K) : Prop :=
  ∀ b, ∃ txs, run step L txs = some (batchAt b)

theorem later_job {L' : Ledger K} (hL : Program.Reachable L) {txs : List (Tx K)}
    (hrun : run step L txs = some L') {k : K} {job : Job K} (hk : L k = some (.job job)) :
    ∃ job', L' k = some (.job job') ∧ AuditRecord.SameJob job job' := by
  obtain ⟨_, hk', hs⟩ := AuditRecord.account_run (Reachability.reachable_wellFormed hL) hrun hk
  cases hs with
  | job h => exact ⟨_, hk', h⟩

/-- The accounts of the counted jobs, at the moment the queue was read. -/
theorem job_of_count (hL : Program.Reachable L) (hQ : L Q = some (.queue queue)) {id : Nat}
    (hid : id < queue.jobCount) :
    ∃ job, L (address (.job Q id)) = some (.job job) ∧ job.jobId = id := by
  obtain ⟨v, hv, _, rfl⟩ := Invariants.reachable_queue hL hQ
  rw [hv.placed.jobCount] at hid
  have hj : v.jobs[id]? = some v.jobs[id] := List.getElem?_eq_getElem hid
  exact ⟨v.jobs[id], hv.job hj, (hv.placed.job id _ hj).2.1⟩

theorem stored_later (hL : Program.Reachable L) (hQ : L Q = some (.queue queue))
    (hlater : Later L batchAt) (b : Nat) : Stored (batchAt b) Q (List.range queue.jobCount) := by
  intro id hid
  obtain ⟨job, hk, _⟩ := job_of_count hL hQ (List.mem_range.mp hid)
  obtain ⟨txs, hrun⟩ := hlater b
  obtain ⟨job', hk', _⟩ := later_job hL hrun hk
  exact ⟨job', hk'⟩

def cardOf (Q : K) (queue : Queue K) : QueueView K where
  publicKey := Q
  name := utf16 queue.name
  authority := queue.authority
  totalJobs := queue.jobCount
  pendingJobs := queue.pendingCount
  completedJobs := queue.processedCount
  failedJobs := queue.failedCount
  maxRetries := queue.maxRetries
  paused := queue.paused
  createdAt := newDate (queue.createdAt.toInt * 1000)

/-- The cards in the order they are read. -/
def Cards (P : Platform V) (batchAt : Nat → Ledger K) (Q : K) (n : Nat) (jobs : List (JobView K V)) :
    Prop :=
  List.Forall₂ (fun id view => viewOf P (batchAt (id / 50)) Q id = .ok view) (List.range n) jobs

theorem snapshot_iff (hL : Program.Reachable L) (hQ : L Q = some (.queue queue))
    (hlater : Later L batchAt) {S : Sorter (JobView K V)} {slot : Nat} {fetchedAt : Int}
    {snap : QueueSnapshot K V} :
    fetchQueueSnapshot S P L batchAt slot fetchedAt Q = .ok snap ↔
      queue.jobCount < 2 ^ 32 ∧ Safe queue.createdAt ∧ ∃ jobs, Cards P batchAt Q queue.jobCount jobs ∧
        snap = ⟨cardOf Q queue, S.sort compareViews jobs, slot, fetchedAt⟩ := by
  have hqueue : fetchQueue L Q = .ok queue := by
    simp only [fetchQueue, (loadQueue_ok_iff L Q queue).mpr hQ]
  have hbatches : fetchBatches P batchAt 0
      (chunk ((List.range queue.jobCount).map fun id => address (.job Q id)) 50) =
        (List.range queue.jobCount).mapM fun id => viewOf P (batchAt (id / 50)) Q id := by
    rw [List.range_eq_range']
    exact fetchBatches_eq queue.jobCount 0 fun c _ => by
      rw [Nat.mul_zero, ← List.range_eq_range']
      exact stored_later hL hQ hlater c
  -- the counters are no larger than the number of jobs
  obtain ⟨v, hv, hinv, rfl⟩ := Invariants.reachable_queue hL hQ
  have hsum := (Conservation.conserved_of_reachable hL hv).sum
  simp only [fetchQueueSnapshot, hqueue, bind_ok_iff, Except.ok.injEq, exists_eq_left', toNumber_ok_iff,
    arrayFrom_ok_iff, dateOfSeconds_ok_iff, pure_ok_iff]
  constructor
  · rintro ⟨_, ⟨_, rfl⟩, _, ⟨hcount, rfl⟩, jobs, hjobs, _, ⟨_, rfl⟩, _, ⟨_, rfl⟩, _, ⟨_, rfl⟩, _, ⟨hsafe, rfl⟩, rfl⟩
    rw [hbatches, mapM_ok_iff] at hjobs
    exact ⟨hcount, hsafe, jobs, hjobs, rfl⟩
  · rintro ⟨hcount, hsafe, jobs, hjobs, rfl⟩
    rw [Cards, ← mapM_ok_iff, ← hbatches] at hjobs
    exact ⟨_, ⟨by omega, rfl⟩, _, ⟨hcount, rfl⟩, jobs, hjobs, _, ⟨by omega, rfl⟩, _, ⟨by omega, rfl⟩, _, ⟨by omega, rfl⟩, _,
      ⟨hsafe, rfl⟩, rfl⟩

/-- A card next to the record it was made of and the one the queue counted. -/
structure CardOf (P : Platform V) (L : Ledger K) (batchAt : Nat → Ledger K) (Q : K) (id : Nat)
    (view : JobView K V) (job job' : Job K) : Prop where
  counted : L (address (.job Q id)) = some (.job job)
  read : batchAt (id / 50) (address (.job Q id)) = some (.job job')
  same : AuditRecord.SameJob job job'
  frozen : AuditRecord.terminal job.status = true → job' = job
  shown : normalizeJob P (address (.job Q id)) job' = .ok view
  jobId : view.jobId = id

theorem card_of_view (hL : Program.Reachable L) (hQ : L Q = some (.queue queue))
    (hlater : Later L batchAt) {id : Nat} (hid : id < queue.jobCount) {view : JobView K V}
    (h : viewOf P (batchAt (id / 50)) Q id = .ok view) :
    ∃ job job', CardOf P L batchAt Q id view job job' := by
  obtain ⟨job, hk, hjobId⟩ := job_of_count hL hQ hid
  obtain ⟨txs, hrun⟩ := hlater (id / 50)
  obtain ⟨job', hk', hsame⟩ := later_job hL hrun hk
  have hfetch : fetchJob (batchAt (id / 50)) (address (.job Q id)) = .ok job' := by
    simp only [fetchJob, (loadJob_ok_iff _ _ job').mpr hk']
  simp only [viewOf, hfetch, bind_ok_iff, Except.ok.injEq, exists_eq_left'] at h
  refine ⟨job, job', hk, hk', hsame, fun ht => ?_, h, ?_⟩
  · have hsafe := AuditRecord.terminal_run (Reachability.reachable_wellFormed hL) hrun hk ht
    cases hk'.symm.trans hsafe
    rfl
  · rw [(showsJob_of_normalize h).jobId, hsame.jobId, hjobId]

omit [DecidableEq K] in
theorem Cards.counted {n : Nat} {jobs : List (JobView K V)} (h : Cards P batchAt Q n jobs) :
    List.Forall₂ (fun id view => id < n ∧ viewOf P (batchAt (id / 50)) Q id = .ok view)
      (List.range n) jobs :=
  (List.forall₂_and_left _ _).mpr ⟨fun _ hid => List.mem_range.mp hid, h⟩

/-- The shown jobs of a status are at least those the counter had counted, for
a status that no job leaves. -/
theorem settled_le (hL : Program.Reachable L) (hlater : Later L batchAt) {v : View.QueueView K}
    (hv : Refinement.Hosts L Q v) {jobs : List (JobView K V)} {status : JobStatus}
    (hterminal : AuditRecord.terminal status = true)
    (hcards : Cards P batchAt Q v.queue.jobCount jobs) :
    Invariants.tally (· == status) v.jobs ≤ jobs.countP fun view => view.status == status := by
  rw [← RetryRoom.tally_range, ← hv.placed.jobCount]
  refine Kit.Lists.countP_le_of_forall₂ (R := fun id view => id < v.queue.jobCount ∧
    viewOf P (batchAt (id / 50)) Q id = .ok view) ?_
    hcards.counted
  intro id view ⟨hid, hview⟩ hcounted
  obtain ⟨job, job', hcard⟩ := card_of_view hL hv.view.queueAt hlater hid hview
  obtain ⟨j, hj, hs⟩ := Option.any_eq_true _ _ |>.mp hcounted
  cases (hv.job hj).symm.trans hcard.counted
  have hstatus := eq_of_beq hs
  have hsame := hcard.frozen (hstatus ▸ hterminal)
  rw [(showsJob_of_normalize hcard.shown).status, hsame, hstatus]
  exact beq_self_eq_true status

/-- A job shown as open was open when the queue was read. -/
theorem open_le (hL : Program.Reachable L) (hlater : Later L batchAt) {v : View.QueueView K}
    (hv : Refinement.Hosts L Q v) {jobs : List (JobView K V)}
    (hcards : Cards P batchAt Q v.queue.jobCount jobs) :
    (jobs.countP fun view => Invariants.active view.status) ≤ Invariants.tally Invariants.active v.jobs := by
  rw [← RetryRoom.tally_range, ← hv.placed.jobCount]
  refine Kit.Lists.countP_le_of_forall₂ (R := fun view id => id < v.queue.jobCount ∧
    viewOf P (batchAt (id / 50)) Q id = .ok view) ?_
    hcards.counted.flip
  intro view id ⟨hid, hview⟩ hopen
  obtain ⟨job, job', hcard⟩ := card_of_view hL hv.view.queueAt hlater hid hview
  rw [hv.placed.jobCount] at hid
  have hj : v.jobs[id]? = some v.jobs[id] := List.getElem?_eq_getElem hid
  cases (hv.job hj).symm.trans hcard.counted
  rw [hj, Option.any_some]
  rw [(showsJob_of_normalize hcard.shown).status] at hopen
  by_contra hclosed
  have hterminal : AuditRecord.terminal v.jobs[id].status = true := by
    cases hs : v.jobs[id].status <;> simp_all [Invariants.active, AuditRecord.terminal]
  rw [hcard.frozen hterminal] at hopen
  exact hclosed hopen

/-! ### What a snapshot says about the queue -/

structure Faithful (P : Platform V) (batchAt : Nat → Ledger K) (Q : K) (queue : Queue K)
    (snap : QueueSnapshot K V) : Prop where
  card : snap.queue = cardOf Q queue
  /-- each job counted by the queue is shown once, and no other -/
  ids : (snap.jobs.map JobView.jobId).Perm (List.range queue.jobCount)
  records : ∀ view ∈ snap.jobs, ∃ job,
    batchAt (view.jobId / 50) (address (.job Q view.jobId)) = some (.job job) ∧
      normalizeJob P (address (.job Q view.jobId)) job = .ok view
  completed : snap.queue.completedJobs ≤ snap.jobs.countP fun view => view.status == .completed
  failed : snap.queue.failedJobs ≤ snap.jobs.countP fun view => view.status == .failed
  pending : (snap.jobs.countP fun view => Invariants.active view.status) ≤ snap.queue.pendingJobs
  ordered : snap.jobs.Pairwise Precedes

theorem cards_ids (hL : Program.Reachable L) (hQ : L Q = some (.queue queue))
    (hlater : Later L batchAt) {jobs : List (JobView K V)}
    (hcards : Cards P batchAt Q queue.jobCount jobs) :
    jobs.map JobView.jobId = List.range queue.jobCount := by
  have hids : List.Forall₂ (fun view id => view.jobId = id) jobs (List.range queue.jobCount) := by
    refine hcards.counted.flip.imp fun view id h => ?_
    obtain ⟨_, _, hcard⟩ := card_of_view hL hQ hlater h.1 h.2
    exact hcard.jobId
  exact List.forall₂_eq_eq_eq ▸ List.forall₂_map_left_iff.mpr hids

/-- A snapshot need not show the queue as it ever was, but it shows each job
once, as it was when its batch was answered, and errs to one side only: jobs
may have settled since they were counted. -/
theorem snapshot_faithful (hL : Program.Reachable L) (hQ : L Q = some (.queue queue))
    (hlater : Later L batchAt) (S : Sorter (JobView K V)) (slot : Nat) (fetchedAt : Int)
    (hdates : ∀ id < queue.jobCount, ∀ job, L (address (.job Q id)) = some (.job job) →
      job.createdAt.toInt.natAbs ≤ 8640000000000)
    {snap : QueueSnapshot K V}
    (h : fetchQueueSnapshot S P L batchAt slot fetchedAt Q = .ok snap) :
    Faithful P batchAt Q queue snap := by
  obtain ⟨_, _, jobs, hcards, rfl⟩ := (snapshot_iff hL hQ hlater).mp h
  obtain ⟨v, hv, hinv, rfl⟩ := Invariants.reachable_queue hL hQ
  have hcard : ∀ view ∈ jobs, ∃ id job job', CardOf P L batchAt Q id view job job' ∧
      id < v.queue.jobCount := by
    intro view hview
    obtain ⟨id, _, hid, hread⟩ := Kit.Lists.exists_of_forall₂_mem hcards.counted hview
    obtain ⟨job, job', hc⟩ := card_of_view hL hQ hlater hid hread
    exact ⟨id, job, job', hc, hid⟩
  have hvalid : ∀ view ∈ jobs, view.createdAt.isSome = true := by
    intro view hview
    obtain ⟨id, job, job', hc, hid⟩ := hcard view hview
    have hrange := hdates id hid job hc.counted
    rw [(showsJob_of_normalize hc.shown).createdAt, hc.same.createdAt, newDate, if_pos (by omega)]
    rfl
  have hconsistent := compareViews_consistent hvalid
  have hperm := S.perm hconsistent
  refine ⟨rfl, ?_, fun view hview => ?_, ?_, ?_, ?_, ?_⟩
  · rw [← cards_ids hL hQ hlater hcards]
    exact hperm.map _
  · obtain ⟨id, job, job', hc, _⟩ := hcard view (hperm.mem_iff.mp hview)
    rw [hc.jobId]
    exact ⟨job', hc.read, hc.shown⟩
  · rw [hperm.countP_eq]
    show v.queue.processedCount ≤ _
    rw [hinv.counted.processed]
    exact settled_le hL hlater hv rfl hcards
  · rw [hperm.countP_eq]
    show v.queue.failedCount ≤ _
    rw [hinv.counted.failed]
    exact settled_le hL hlater hv rfl hcards
  · rw [hperm.countP_eq]
    show _ ≤ v.queue.pendingCount
    rw [hinv.counted.pending]
    exact open_le hL hlater hv hcards
  · refine (S.ordered hconsistent).imp_of_mem fun {a b} ha hb hab => ?_
    exact precedes_of_compare (hvalid a (hperm.mem_iff.mp ha)) (hvalid b (hperm.mem_iff.mp hb)) hab

/-! ### When a snapshot succeeds -/

omit [DecidableEq K] in
theorem viewOf_ok_iff {L' : Ledger K} {id : Nat} {job : Job K}
    (hk : L' (address (.job Q id)) = some (.job job)) :
    (∃ view, viewOf P L' Q id = .ok view) ↔ job.jobId < 2 ^ 53 ∧ TimesSafe job := by
  have hfetch : fetchJob L' (address (.job Q id)) = .ok job := by
    simp only [fetchJob, (loadJob_ok_iff _ _ job).mpr hk]
  simp only [viewOf, hfetch, bind_ok_iff, Except.ok.injEq, exists_eq_left', normalizeJob_ok_iff]

omit [DecidableEq K] in
theorem cards_exist_iff {n : Nat} :
    (∃ jobs, Cards P batchAt Q n jobs) ↔
      ∀ id < n, ∃ view, viewOf P (batchAt (id / 50)) Q id = .ok view := by
  constructor
  · intro ⟨jobs, hcards⟩ id hid
    obtain ⟨view, _, _, hview⟩ := Kit.Lists.exists_of_forall₂_mem hcards.counted.flip
      (List.mem_range.mpr hid)
    exact ⟨view, hview⟩
  · intro h
    have hall : ∀ ids : List Nat, (∀ id ∈ ids, id < n) →
        ∃ jobs, List.Forall₂ (fun id view => viewOf P (batchAt (id / 50)) Q id = .ok view) ids jobs := by
      intro ids hids
      induction ids with
      | nil => exact ⟨[], .nil⟩
      | cons id ids ih =>
        obtain ⟨hid, hrest⟩ := List.forall_mem_cons.mp hids
        obtain ⟨view, hview⟩ := h id hid
        obtain ⟨jobs, hjobs⟩ := ih hrest
        exact ⟨view :: jobs, .cons hview hjobs⟩
    exact hall _ fun id hid => List.mem_range.mp hid

theorem hasCards_iff (hL : Program.Reachable L) (hQ : L Q = some (.queue queue))
    (hlater : Later L batchAt) (S : Sorter (JobView K V)) (slot : Nat) (fetchedAt : Int) :
    (∃ snap, fetchQueueSnapshot S P L batchAt slot fetchedAt Q = .ok snap) ↔
      queue.jobCount < 2 ^ 32 ∧ Safe queue.createdAt ∧ ∃ jobs, Cards P batchAt Q queue.jobCount jobs := by
  constructor
  · intro ⟨snap, h⟩
    obtain ⟨hcount, hsafe, jobs, hjobs, _⟩ := (snapshot_iff hL hQ hlater).mp h
    exact ⟨hcount, hsafe, jobs, hjobs⟩
  · intro ⟨hcount, hsafe, jobs, hjobs⟩
    exact ⟨_, (snapshot_iff hL hQ hlater).mpr ⟨hcount, hsafe, jobs, hjobs, rfl⟩⟩

theorem view_exists_iff (hL : Program.Reachable L) (hQ : L Q = some (.queue queue))
    (hlater : Later L batchAt) (hcount : queue.jobCount < 2 ^ 32) {id : Nat} (hid : id < queue.jobCount) :
    (∃ view, viewOf P (batchAt (id / 50)) Q id = .ok view) ↔
      ∀ job, batchAt (id / 50) (address (.job Q id)) = some (.job job) → TimesSafe job := by
  obtain ⟨job₀, hk₀, hid₀⟩ := job_of_count hL hQ hid
  obtain ⟨txs, hrun⟩ := hlater (id / 50)
  obtain ⟨job, hk, hsame⟩ := later_job hL hrun hk₀
  have hsmall : job.jobId < 2 ^ 53 := by
    rw [hsame.jobId, hid₀]
    omega
  rw [viewOf_ok_iff hk, hk]
  constructor
  · intro ⟨_, htimes⟩ job' he
    cases he
    exact htimes
  · intro h
    exact ⟨hsmall, h job rfl⟩

/-- Nothing but a number out of range makes a snapshot fail; the four counters
need no condition of their own. -/
theorem snapshot_succeeds_iff (hL : Program.Reachable L) (hQ : L Q = some (.queue queue))
    (hlater : Later L batchAt) (S : Sorter (JobView K V)) (slot : Nat) (fetchedAt : Int) :
    (∃ snap, fetchQueueSnapshot S P L batchAt slot fetchedAt Q = .ok snap) ↔
      queue.jobCount < 2 ^ 32 ∧ Safe queue.createdAt ∧
        ∀ id < queue.jobCount, ∀ job, batchAt (id / 50) (address (.job Q id)) = some (.job job) →
          TimesSafe job := by
  rw [hasCards_iff hL hQ hlater S slot fetchedAt, cards_exist_iff]
  refine and_congr_right fun hcount => and_congr_right fun _ => forall_congr' fun id =>
    forall_congr' fun hid => ?_
  exact view_exists_iff hL hQ hlater hcount hid

/-! ### A job far in the future -/

/-- The job waits for a time no safe clock reaches, or was cancelled while it did. -/
def Stranded (L : Ledger K) (k : K) : Prop :=
  ∃ job, L k = some (.job job) ∧ (job.status = .pending ∨ job.status = .cancelled) ∧
    2 ^ 53 ≤ job.executeAfter.toInt

omit [AddressDerivation K] [DecidableEq K] in
theorem not_le_of_far {t clock : Int64} (hfar : 2 ^ 53 ≤ t.toInt) (hclock : clock.toInt < 2 ^ 53) :
    ¬t ≤ clock := by
  rw [Int64.le_iff_toInt_le]
  omega

theorem stranded_run {L' : Ledger K} {k : K} (hL : Program.Reachable L) (h : Stranded L k)
    {txs : List (Tx K)} (hrun : run step L txs = some L')
    (hclock : ∀ tx ∈ txs, tx.clock.toInt < 2 ^ 53) : Stranded L' k := by
  refine (run_meets (P := fun M => Program.Reachable M ∧ Stranded M k)
    (C := fun _ tx => tx.clock.toInt < 2 ^ 53) ?_ ⟨hL, h⟩
    (meets_of_forall fun tx htx _ => hclock tx htx) hrun).2
  intro M tx M' ⟨hM, job, hk, hstatus, hfar⟩ hsmall hs
  obtain ⟨_, job', _, hk', hjob⟩ := JobLife.job_step (Reachability.reachable_wellFormed hM) hk hs
  refine ⟨hM.next hs, job', hk', ?_⟩
  generalize tx.ix = ix at hjob
  cases hjob with
  | other => exact ⟨hstatus, hfar⟩
  | claim worker page hpending hready => exact absurd hready (not_le_of_far hfar hsmall)
  | complete worker result hprocessing =>
    rcases hstatus with hs | hs <;> cases hs.symm.trans hprocessing
  | retry worker page errorMessage retryAfterSecs hmay =>
    rcases hstatus with hs | hs <;> cases hs.symm.trans hmay.1
  | deadLetter worker page errorMessage retryAfterSecs hmay =>
    rcases hstatus with hs | hs <;> cases hs.symm.trans hmay.1
  | cancel => exact ⟨.inr rfl, hfar⟩

/-- Anyone may enqueue, and `execute_after` is not checked: one job scheduled
for 2^53 or later keeps every snapshot of its queue from succeeding, as long
as the clock of the chain stays below. -/
theorem snapshot_blocked (hL : Program.Reachable L) {id : Nat} {job : Job K}
    (hk : L (address (.job Q id)) = some (.job job)) (hpending : job.status = .pending)
    (hfar : 2 ^ 53 ≤ job.executeAfter.toInt) {M : Ledger K} {txs : List (Tx K)}
    (hrun : run step L txs = some M) (hclock : ∀ tx ∈ txs, tx.clock.toInt < 2 ^ 53)
    (hlater : ∀ b, ∃ more, run step M more = some (batchAt b) ∧
      ∀ tx ∈ more, tx.clock.toInt < 2 ^ 53)
    (S : Sorter (JobView K V)) (slot : Nat) (fetchedAt : Int) :
    ¬∃ snap, fetchQueueSnapshot S P M batchAt slot fetchedAt Q = .ok snap := by
  intro hsnap
  have hM := hL.extend hrun
  have hstranded := stranded_run hL ⟨job, hk, .inl hpending, hfar⟩ hrun hclock
  obtain ⟨job₁, hk₁, _, _⟩ := hstranded
  obtain ⟨v, hv, _, hkey, hj⟩ := Invariants.reachable_job hM hk₁
  obtain ⟨hq, hid⟩ := Seeds.job.inj (address_injective hkey)
  rw [← hq] at hv
  rw [← hid] at hj
  have hlt : id < v.queue.jobCount := by
    rw [hv.placed.jobCount]
    exact (List.getElem?_eq_some_iff.mp hj).1
  have hlaterM : Later M batchAt := fun b => (hlater b).imp fun _ h => h.1
  obtain ⟨hcount, _, hcards⟩ := (hasCards_iff hM hv.view.queueAt hlaterM S slot fetchedAt).mp hsnap
  have htimes := (view_exists_iff hM hv.view.queueAt hlaterM hcount hlt).mp
    (cards_exist_iff.mp hcards id hlt)
  obtain ⟨more, hmore, hclock'⟩ := hlater (id / 50)
  obtain ⟨job₂, hk₂, _, hfar₂⟩ := stranded_run hM ⟨job₁, hk₁, ‹_›, ‹_›⟩ hmore hclock'
  have hsafe := (htimes job₂ hk₂).executeAfter
  unfold Safe at hsafe
  omega

/-! ### Reading job by job -/

omit [AddressDerivation K] [DecidableEq K] in
theorem getJob_ok_iff {parse : Bytes → Except String V} {L' : Ledger K} {k : K} {job : Job K}
    (hk : L' k = some (.job job)) :
    (∃ record, getJob parse L' k = .ok record) ↔
      job.jobId < 2 ^ 53 ∧ (∃ value, parse job.payload = .ok value) ∧ TimesSafe job := by
  have hfetch : fetchJob L' k = .ok job := by
    simp only [fetchJob, (loadJob_ok_iff _ _ job).mpr hk]
  have hparse : ∀ value, Records.parsePayload parse job.payload = .ok value ↔
      parse job.payload = .ok value := by
    intro value
    unfold Records.parsePayload
    split
    next v hv => simp only [hv, Except.ok.injEq]
    next e he => simp only [he, reduceCtorEq]
  simp only [getJob, hfetch, bind_ok_iff, Except.ok.injEq, exists_eq_left', pure_ok_iff,
    dateOfSeconds_ok_iff, toNumber_ok_iff, hparse]
  constructor
  · rintro ⟨_, _, ⟨hid, rfl⟩, value, hvalue, _, ⟨hcreated, rfl⟩, _, ⟨hafter, rfl⟩, s, hs, c, hc, rfl⟩
    exact ⟨hid, ⟨value, hvalue⟩, hcreated, hafter, mapM_dateOfSeconds.mp ⟨s, hs⟩,
      mapM_dateOfSeconds.mp ⟨c, hc⟩⟩
  · intro hparts
    obtain ⟨hid, ⟨value, hvalue⟩, hcreated, hafter, hstarted, hcompleted⟩ := hparts
    obtain ⟨s, hs⟩ := mapM_dateOfSeconds.mpr hstarted
    obtain ⟨c, hc⟩ := mapM_dateOfSeconds.mpr hcompleted
    exact ⟨_, _, ⟨hid, rfl⟩, value, hvalue, _, ⟨hcreated, rfl⟩, _, ⟨hafter, rfl⟩, s, hs, c, hc, rfl⟩

/-- What `getAllJobs` keeps of one job. -/
def Readable (parse : Bytes → Except String V) (readAt : Nat → Ledger K) (Q : K) (id : Nat) : Prop :=
  ∃ job, readAt id (address (.job Q id)) = some (.job job) ∧
    (∃ value, parse job.payload = .ok value) ∧ TimesSafe job

omit [AddressDerivation K] [DecidableEq K] in
theorem getJob_jobId {parse : Bytes → Except String V} {L' : Ledger K} {k : K} {job : Job K}
    (hk : L' k = some (.job job)) {record : JobRecord K V} (h : getJob parse L' k = .ok record) :
    record.jobId = job.jobId := by
  have hfetch : fetchJob L' k = .ok job := by
    simp only [fetchJob, (loadJob_ok_iff _ _ job).mpr hk]
  simp only [getJob, hfetch, bind_ok_iff, Except.ok.injEq, exists_eq_left', pure_ok_iff,
    toNumber_ok_iff] at h
  obtain ⟨_, ⟨_, rfl⟩, _, _, _, _, _, _, _, _, _, _, rfl⟩ := h
  rfl

theorem record_read (parse : Bytes → Except String V) {readAt : Nat → Ledger K}
    (hL : Program.Reachable L) (hQ : L Q = some (.queue queue)) (hlater : Later L readAt)
    (hcount : queue.jobCount < 2 ^ 32) {id : Nat} (hid : id < queue.jobCount) :
    (∀ record, getJob parse (readAt id) (address (.job Q id)) = .ok record → record.jobId = id) ∧
      ((∃ record, getJob parse (readAt id) (address (.job Q id)) = .ok record) ↔
        Readable parse readAt Q id) := by
  obtain ⟨job₀, hk₀, hid₀⟩ := job_of_count hL hQ hid
  obtain ⟨txs, hrun⟩ := hlater id
  obtain ⟨job, hk, hsame⟩ := later_job hL hrun hk₀
  have hjobId : job.jobId = id := by rw [hsame.jobId, hid₀]
  refine ⟨fun record hrecord => (getJob_jobId hk hrecord).trans hjobId, ?_⟩
  rw [getJob_ok_iff hk, hjobId]
  constructor
  · intro ⟨_, hvalue, htimes⟩
    exact ⟨job, hk, hvalue, htimes⟩
  · intro ⟨job', hk', hvalue, htimes⟩
    cases hk'.symm.trans hk
    exact ⟨by omega, hvalue, htimes⟩

/-- Reading one by one leaves out what it cannot read and goes on: one record
with a time out of range, or whose payload is no JSON, is only missed. -/
theorem all_jobs {parse : Bytes → Except String V} {readAt : Nat → Ledger K}
    (hL : Program.Reachable L) (hQ : L Q = some (.queue queue)) (hlater : Later L readAt)
    (hcount : queue.jobCount < 2 ^ 32) :
    ∃ records, getAllJobs parse L readAt Q = .ok records ∧
      (records.map JobRecord.jobId).Pairwise (· < ·) ∧
      (∀ id, id ∈ records.map JobRecord.jobId ↔ id < queue.jobCount ∧ Readable parse readAt Q id) ∧
      ∀ record ∈ records,
        getJob parse (readAt record.jobId) (address (.job Q record.jobId)) = .ok record := by
  have hqueue : fetchQueue L Q = .ok queue := by
    simp only [fetchQueue, (loadQueue_ok_iff L Q queue).mpr hQ]
  have hnumber : toNumber queue.jobCount = .ok queue.jobCount := toNumber_ok_iff.mpr ⟨by omega, rfl⟩
  have hmember : ∀ record, record ∈ ((List.range queue.jobCount).filterMap fun id =>
      (getJob parse (readAt id) (address (.job Q id))).toOption) ↔
        record.jobId < queue.jobCount ∧
          getJob parse (readAt record.jobId) (address (.job Q record.jobId)) = .ok record := by
    intro record
    simp only [List.mem_filterMap, List.mem_range, toOption_eq_some_iff]
    constructor
    · intro hparts
      obtain ⟨id, hid, hrecord⟩ := hparts
      have he := (record_read parse hL hQ hlater hcount hid).1 record hrecord
      rw [he]
      exact ⟨hid, hrecord⟩
    · intro hparts
      obtain ⟨hid, hrecord⟩ := hparts
      exact ⟨_, hid, hrecord⟩
  have hall : getAllJobs parse L readAt Q = .ok ((List.range queue.jobCount).filterMap fun id =>
      (getJob parse (readAt id) (address (.job Q id))).toOption) := by
    simp only [getAllJobs, hqueue, bind_ok_iff, Except.ok.injEq, exists_eq_left', hnumber, pure_ok_iff]
    refine List.take_of_length_le ((List.length_filterMap_le _ _).trans ?_)
    rw [List.length_range]
    omega
  refine ⟨_, hall, ?_, ?_, ?_⟩
  · rw [List.pairwise_map, List.pairwise_filterMap]
    refine List.pairwise_lt_range.imp_of_mem fun {i j} hi hj hlt => ?_
    intro record hrecord record' hrecord'
    rw [toOption_eq_some_iff] at hrecord hrecord'
    rw [(record_read parse hL hQ hlater hcount (List.mem_range.mp hi)).1 _ hrecord,
      (record_read parse hL hQ hlater hcount (List.mem_range.mp hj)).1 _ hrecord']
    exact hlt
  · intro id
    simp only [List.mem_map, hmember]
    constructor
    · rintro ⟨record, ⟨hid, hrecord⟩, rfl⟩
      exact ⟨hid, (record_read parse hL hQ hlater hcount hid).2.mp ⟨record, hrecord⟩⟩
    · intro hparts
      obtain ⟨hid, hreadable⟩ := hparts
      obtain ⟨hjobId, hiff⟩ := record_read parse hL hQ hlater hcount hid
      obtain ⟨record, hrecord⟩ := hiff.mpr hreadable
      have he := hjobId record hrecord
      refine ⟨record, ?_, he⟩
      rw [he]
      exact ⟨hid, hrecord⟩
  · intro record hrecord
    exact ((hmember record).mp hrecord).2

end

/-! ### A claim between two requests -/

section
open View Reachability Discovery

/-- On the payloads below: bytes of one unit each, and the empty object. -/
def demoPlatform : Platform (Option JsString) where
  decode := List.map UInt8.toUInt16
  parse text := if text = [0x7B, 0x7D] then .ok none else .error "Unexpected token"
  emptyObject := none
  ofString := some

theorem demoStart_reachable : Program.Reachable (ledgerAfter demoStart) :=
  ledgerAfter_reachable demoStart_accepted

theorem demoStart_queue : ledgerAfter demoStart demoQueue = some (.queue demoAccount) := by decide

/-- The queue is read before the claim, the jobs after it. -/
theorem demo_later : Later (ledgerAfter demoStart) fun _ => ledgerAfter demoRun :=
  fun _ => ⟨_, ledgerAfter_extend demoRun_accepted⟩

theorem demo_times : ∀ id < 2, ∀ job,
    ledgerAfter demoRun (address (.job demoQueue id)) = some (.job job) → TimesSafe job := by
  intro id hid job hk
  match id, hid with
  | 0, _ =>
    cases demo_claimed.symm.trans hk
    refine ⟨by decide, by decide, fun t ht => ?_, fun t ht => absurd ht (Option.not_mem_none t)⟩
    cases ht
    decide
  | 1, _ =>
    cases demo_pending.symm.trans hk
    exact ⟨by decide, by decide, fun t ht => absurd ht (Option.not_mem_none t),
      fun t ht => absurd ht (Option.not_mem_none t)⟩

theorem snapshot_succeeds_iff_demo :
    (∃ snap, fetchQueueSnapshot (mergeSorter _) demoPlatform (ledgerAfter demoStart)
      (fun _ => ledgerAfter demoRun) 7 0 demoQueue = .ok snap) :=
  (snapshot_succeeds_iff demoStart_reachable demoStart_queue demo_later (mergeSorter _) 7 0).mpr
    ⟨by decide, by decide, demo_times⟩

theorem snapshot_faithful_demo : ∃ snap, fetchQueueSnapshot (mergeSorter _) demoPlatform
    (ledgerAfter demoStart) (fun _ => ledgerAfter demoRun) 7 0 demoQueue = .ok snap ∧
      Faithful demoPlatform (fun _ => ledgerAfter demoRun) demoQueue demoAccount snap := by
  have hcards : ∃ jobs, Cards demoPlatform (fun _ => ledgerAfter demoRun) demoQueue 2 jobs :=
    cards_exist_iff.mpr fun id hid => (view_exists_iff demoStart_reachable demoStart_queue demo_later
      (by decide) hid).mpr (demo_times id hid)
  obtain ⟨snap, h⟩ := (hasCards_iff demoStart_reachable demoStart_queue demo_later
    (mergeSorter _) 7 0).mpr ⟨by decide, by decide, hcards⟩
  refine ⟨snap, h, snapshot_faithful demoStart_reachable demoStart_queue demo_later _ _ _ ?_ h⟩
  intro id hid job hk
  have hzero : ledgerAfter demoStart (address (.job demoQueue 0)) =
      some (.job { demoPending with jobId := 0, createdAt := 1, executeAfter := 1 }) := by decide
  have hone : ledgerAfter demoStart (address (.job demoQueue 1)) = some (.job demoPending) := by decide
  match id, hid with
  | 0, _ =>
    cases hzero.symm.trans hk
    decide
  | 1, _ =>
    cases hone.symm.trans hk
    decide

/-- The second job may run from 2^53 on. -/
def farRun : List (Tx Key) :=
  readyRun ++ [⟨2, enqueueAt demoQueue (.wallet 5) 1 0 [] "email" 1 9007199254740992⟩]

theorem farRun_accepted : (run step genesis farRun).isSome = true := by decide

def farJob : Job Key := { demoPending with executeAfter := 9007199254740992 }

theorem farRun_job : ledgerAfter farRun (address (.job demoQueue 1)) = some (.job farJob) := by decide

theorem snapshot_blocked_demo : ¬∃ snap, fetchQueueSnapshot (mergeSorter _) demoPlatform
    (ledgerAfter farRun) (fun _ => ledgerAfter farRun) 7 0 demoQueue = .ok snap :=
  snapshot_blocked (ledgerAfter_reachable farRun_accepted) farRun_job rfl (by decide) rfl
    (List.forall_mem_nil _) (fun _ => ⟨[], rfl, List.forall_mem_nil _⟩) (mergeSorter _) 7 0

/-- The second payload is empty, which is no JSON. -/
theorem all_jobs_demo : ∃ records,
    getAllJobs parseEmpty (ledgerAfter farRun) (fun _ => ledgerAfter farRun) demoQueue = .ok records ∧
      (records.map JobRecord.jobId).Pairwise (· < ·) ∧
      (∀ id, id ∈ records.map JobRecord.jobId ↔
        id < 2 ∧ Readable parseEmpty (fun _ => ledgerAfter farRun) demoQueue id) ∧
      ∀ record ∈ records, getJob parseEmpty (ledgerAfter farRun)
        (address (.job demoQueue record.jobId)) = .ok record :=
  all_jobs (ledgerAfter_reachable farRun_accepted)
    (show ledgerAfter farRun demoQueue = some (.queue demoAccount) by decide) (fun _ => ⟨[], rfl⟩)
    (by decide)

end

end DecQueue.Snapshot
