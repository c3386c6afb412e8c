import DecQueue.JobLife
import DecQueue.RetryRoom

/-! # The invariants of the fuzz harness (trident-tests/fuzz_0/test_fuzz.rs)

The harness reads the accounts of a queue and asserts two invariants after the
transactions of its flows. The first walks the index pages twice, the second
compares the worker of a job with the one that claimed it. A failed assertion
is the result `error`; the walks are loops, so they take fuel, and `none` says
that it did not suffice. -/

namespace DecQueue.FuzzOracles
open Kit.Transition Kit.Lists State Handlers Outcomes Address Program View Refinement Reachability
  Invariants JobLife RetryRoom

variable {K : Type} [AddressDerivation K]

/-! ### Account readers -/

def readQueueHead (L : Ledger K) (Q : K) : Option (QueueHead K) :=
  match L (address (.queueHead Q)) with
  | some (.queueHead head) => some head
  | _ => none

def readIndexPage (L : Ledger K) (Q : K) (seq : Nat) : Option (JobIndex K) :=
  match L (address (.index Q seq)) with
  | some (.jobIndex page) => some page
  | _ => none

def readJob (L : Ledger K) (Q : K) (jobId : Nat) : Option (Job K) :=
  match L (address (.job Q jobId)) with
  | some (.job job) => some job
  | _ => none

/-! ### Index pages against the queue head -/

inductive IndexViolation where
  | cycle (seq : Nat)
  | noSuccessor (seq : Nat)
  | tooManyIds (idsInPages totalJobs : Nat)
  | duplicateId (id : Nat)
  deriving DecidableEq, Repr

def countIds (L : Ledger K) (Q : K) (tailIndexSeq : Nat) :
    Nat → Nat → List Nat → Nat → Option (Except IndexViolation Nat)
  | 0, _, _, _ => none
  | fuel + 1, seq, visited, idsInPages =>
    if seq ∈ visited then some (.error (.cycle seq))
    else
      match readIndexPage L Q seq with
      | none => some (.ok idsInPages)
      | some page =>
        if seq = tailIndexSeq then some (.ok (idsInPages + page.jobIds.length))
        else if page.nextSeq = 0 then some (.error (.noSuccessor seq))
        else countIds L Q tailIndexSeq fuel page.nextSeq (seq :: visited)
          (idsInPages + page.jobIds.length)

def addIds : List Nat → List Nat → Except IndexViolation (List Nat)
  | allIds, [] => .ok allIds
  | allIds, id :: ids =>
    if id ∈ allIds then .error (.duplicateId id) else addIds (allIds ++ [id]) ids

/-- The second walk has neither the cycle check nor the one on `next_seq`. -/
def collectIds (L : Ledger K) (Q : K) (tailIndexSeq : Nat) :
    Nat → Nat → List Nat → Option (Except IndexViolation (List Nat))
  | 0, _, _ => none
  | fuel + 1, seq, allIds =>
    match readIndexPage L Q seq with
    | none => some (.ok allIds)
    | some page =>
      match addIds allIds page.jobIds with
      | .error e => some (.error e)
      | .ok allIds =>
        if seq = tailIndexSeq then some (.ok allIds)
        else collectIds L Q tailIndexSeq fuel page.nextSeq allIds

def invariantIndexTotalJobsConsistency (fuel : Nat) (L : Ledger K) (Q : K) :
    Option (Except IndexViolation Unit) :=
  match readQueueHead L Q with
  | none => some (.ok ())
  | some head =>
    match countIds L Q head.tailIndexSeq fuel head.headIndexSeq [] 0 with
    | none => none
    | some (.error e) => some (.error e)
    | some (.ok idsInPages) =>
      if idsInPages ≤ head.totalJobs then
        (collectIds L Q head.tailIndexSeq fuel head.headIndexSeq []).map fun r => r.map fun _ => ()
      else some (.error (.tooManyIds idsInPages head.totalJobs))

section
variable {L : Ledger K} {Q : K} {v : QueueView K}

theorem readIndexPage_hosts (hv : Hosts L Q v) (s : Nat) : readIndexPage L Q s = v.pages[s]? := by
  unfold readIndexPage
  rw [hv.view.pageAt]
  cases v.pages[s]? <;> rfl

/-- A queue head at the address for `Q` is that of `Q`. -/
theorem hosts_of_readQueueHead (hL : WellFormed L) {head : QueueHead K}
    (h : readQueueHead L Q = some head) : ∃ v, Hosts L Q v ∧ v.head = head := by
  unfold readQueueHead at h
  split at h
  next head' hk =>
    cases h
    obtain ⟨Q', v, hv, hkey, rfl⟩ := hL.head hk
    cases address_injective hkey
    exact ⟨v, hv, rfl⟩
  next => cases h

end

/-! ### What the two walks test -/

/-- The page numbers and pages a reader meets from `seq` on: it follows `next_seq`
and stops at the tail or at the first page that does not exist. -/
inductive Trail (L : Ledger K) (Q : K) (tailIndexSeq : Nat) :
    Nat → List Nat → List (JobIndex K) → Prop where
  | missing {seq : Nat} (hpage : readIndexPage L Q seq = none) : Trail L Q tailIndexSeq seq [seq] []
  | tail {page : JobIndex K} (hpage : readIndexPage L Q tailIndexSeq = some page) :
      Trail L Q tailIndexSeq tailIndexSeq [tailIndexSeq] [page]
  | next {seq : Nat} {page : JobIndex K} {seqs : List Nat} {pages : List (JobIndex K)}
      (hpage : readIndexPage L Q seq = some page) (hseq : seq ≠ tailIndexSeq)
      (hnext : page.nextSeq ≠ 0) (hrest : Trail L Q tailIndexSeq page.nextSeq seqs pages) :
      Trail L Q tailIndexSeq seq (seq :: seqs) (page :: pages)

section
variable {L : Ledger K} {Q : K} {tailIndexSeq seq : Nat} {seqs : List Nat} {pages : List (JobIndex K)}

omit [AddressDerivation K] in
theorem stored_cons (page : JobIndex K) (pages : List (JobIndex K)) :
    stored (page :: pages) = page.jobIds ++ stored pages := List.flatMap_cons

theorem addIds_ok_iff {allIds ids r : List Nat} (h : allIds.Nodup) :
    addIds allIds ids = .ok r ↔ allIds ++ ids = r ∧ r.Nodup := by
  induction ids generalizing allIds with
  | nil =>
    rw [addIds, List.append_nil, Except.ok.injEq]
    exact ⟨fun he => ⟨he, he ▸ h⟩, fun he => he.1⟩
  | cons id ids ih =>
    have hsplit : allIds ++ id :: ids = allIds ++ [id] ++ ids := by simp
    rw [addIds]
    by_cases hmem : id ∈ allIds
    · rw [if_pos hmem]
      simp only [reduceCtorEq, false_iff]
      rintro ⟨rfl, hnodup⟩
      exact (List.nodup_append.mp hnodup).2.2 id hmem id (List.mem_cons_self ..) rfl
    · have hnext : (allIds ++ [id]).Nodup :=
        List.nodup_append.mpr ⟨h, List.nodup_singleton id, fun a ha b hb he => by
          rw [List.mem_singleton.mp hb] at he
          exact hmem (he ▸ ha)⟩
      rw [if_neg hmem, ih hnext, hsplit]

theorem trail_of_countIds {fuel : Nat} {visited : List Nat} {idsInPages n : Nat}
    (h : countIds L Q tailIndexSeq fuel seq visited idsInPages = some (.ok n)) :
    ∃ seqs pages, Trail L Q tailIndexSeq seq seqs pages ∧ seqs.Nodup ∧ (∀ s ∈ seqs, s ∉ visited) ∧
      n = idsInPages + (stored pages).length ∧ seqs.length ≤ fuel := by
  induction fuel generalizing seq visited idsInPages with
  | zero => cases h
  | succ fuel ih =>
    rw [countIds] at h
    by_cases hvisited : seq ∈ visited
    · rw [if_pos hvisited] at h
      cases h
    · rw [if_neg hvisited] at h
      split at h
      next hpage =>
        cases h
        refine ⟨[seq], [], .missing hpage, List.nodup_singleton seq, fun s hs => ?_, rfl,
          Nat.le_add_left 1 fuel⟩
        rw [List.mem_singleton.mp hs]
        exact hvisited
      next page hpage =>
        by_cases htail : seq = tailIndexSeq
        · rw [if_pos htail] at h
          cases h
          subst htail
          refine ⟨[seq], [page], .tail hpage, List.nodup_singleton seq, fun s hs => ?_, ?_,
            Nat.le_add_left 1 fuel⟩
          · rw [List.mem_singleton.mp hs]
            exact hvisited
          · simp [stored]
        · rw [if_neg htail] at h
          by_cases hnext : page.nextSeq = 0
          · rw [if_pos hnext] at h
            cases h
          · rw [if_neg hnext] at h
            obtain ⟨seqs, pages, htrail, hnodup, hfresh, hn, hlen⟩ := ih h
            refine ⟨seq :: seqs, page :: pages, .next hpage htail hnext htrail,
              List.nodup_cons.mpr ⟨fun hmem => hfresh seq hmem (List.mem_cons_self ..), hnodup⟩,
              List.forall_mem_cons.mpr ⟨hvisited, fun s hs hmem =>
                hfresh s hs (List.mem_cons_of_mem seq hmem)⟩, ?_, Nat.succ_le_succ hlen⟩
            rw [hn, stored_cons, List.length_append]
            omega

theorem Trail.seq_mem (h : Trail L Q tailIndexSeq seq seqs pages) : seq ∈ seqs := by
  cases h with
  | missing | tail | next => exact List.mem_cons_self ..

theorem Trail.countIds (h : Trail L Q tailIndexSeq seq seqs pages) (hnodup : seqs.Nodup)
    {fuel : Nat} (hfuel : seqs.length ≤ fuel) {visited : List Nat}
    (hfresh : ∀ s ∈ seqs, s ∉ visited) (idsInPages : Nat) :
    FuzzOracles.countIds L Q tailIndexSeq fuel seq visited idsInPages =
      some (.ok (idsInPages + (stored pages).length)) := by
  have hseq := hfresh seq h.seq_mem
  induction h generalizing fuel visited idsInPages with
  | missing hpage =>
    obtain ⟨fuel, rfl⟩ := Nat.exists_eq_add_of_le' hfuel
    simp only [List.length_singleton, FuzzOracles.countIds, if_neg hseq, hpage]
    rfl
  | @tail page hpage =>
    obtain ⟨fuel, rfl⟩ := Nat.exists_eq_add_of_le' hfuel
    simp only [List.length_singleton, FuzzOracles.countIds, if_neg hseq, hpage, if_true]
    simp [stored]
  | @next seq page seqs pages hpage htail hnext hrest ih =>
    obtain ⟨fuel, rfl⟩ := Nat.exists_eq_add_of_le' hfuel
    obtain ⟨hnot, hrestNodup⟩ := List.nodup_cons.mp hnodup
    have hrestFresh : ∀ s ∈ seqs, s ∉ seq :: visited := by
      intro s hs hmem
      rcases List.mem_cons.mp hmem with rfl | hmem
      · exact hnot hs
      · exact hfresh s (List.mem_cons_of_mem seq hs) hmem
    have hwalk := ih hrestNodup (Nat.le_add_left seqs.length fuel) hrestFresh
      (idsInPages + page.jobIds.length) (hrestFresh _ hrest.seq_mem)
    rw [List.length_cons, ← Nat.add_assoc]
    simp only [FuzzOracles.countIds, if_neg hseq, hpage, if_neg htail, if_neg hnext]
    rw [hwalk, stored_cons, List.length_append]
    congr 2
    omega

/-- The second walk takes the same way as the first and ends where it ends. -/
theorem Trail.collectIds (h : Trail L Q tailIndexSeq seq seqs pages) {fuel : Nat}
    (hfuel : seqs.length ≤ fuel) {allIds r : List Nat} (hnodup : allIds.Nodup) :
    FuzzOracles.collectIds L Q tailIndexSeq fuel seq allIds = some (.ok r) ↔
      allIds ++ stored pages = r ∧ r.Nodup := by
  induction h generalizing fuel allIds with
  | missing hpage =>
    obtain ⟨fuel, rfl⟩ := Nat.exists_eq_add_of_le' hfuel
    simp only [List.length_singleton, FuzzOracles.collectIds, hpage, Option.some.injEq, Except.ok.injEq,
      stored, List.flatMap_nil, List.append_nil]
    exact ⟨fun he => ⟨he, he ▸ hnodup⟩, fun he => he.1⟩
  | @tail page hpage =>
    obtain ⟨fuel, rfl⟩ := Nat.exists_eq_add_of_le' hfuel
    rw [stored_cons, stored, List.flatMap_nil, List.append_nil, ← addIds_ok_iff hnodup]
    simp only [List.length_singleton, FuzzOracles.collectIds, hpage, if_true]
    split
    next e he => simp [he]
    next ids he => simp [he]
  | @next seq page seqs pages hpage htail hnext hrest ih =>
    obtain ⟨fuel, rfl⟩ := Nat.exists_eq_add_of_le' hfuel
    rw [List.length_cons, ← Nat.add_assoc, stored_cons, ← List.append_assoc]
    simp only [FuzzOracles.collectIds, hpage, if_neg htail]
    split
    next e he =>
      simp only [Option.some.injEq, reduceCtorEq, false_iff]
      rintro ⟨rfl, hr⟩
      have hids := (addIds_ok_iff hnodup).mpr ⟨rfl, (List.nodup_append.mp hr).1⟩
      rw [he] at hids
      cases hids
    next ids he =>
      obtain ⟨rfl, hids⟩ := (addIds_ok_iff hnodup).mp he
      exact ih (Nat.le_add_left seqs.length fuel) hids

/-- What the first invariant asserts, on any ledger: the trail from the head
meets no page number twice, and the ids on it are distinct and no more than
`total_jobs`. That it comes to the tail is not asserted. -/
structure IndexConsistent (L : Ledger K) (Q : K) (head : QueueHead K) (seqs : List Nat)
    (pages : List (JobIndex K)) : Prop where
  trail : Trail L Q head.tailIndexSeq head.headIndexSeq seqs pages
  acyclic : seqs.Nodup
  distinct : (stored pages).Nodup
  bounded : (stored pages).length ≤ head.totalJobs

theorem IndexConsistent.passes {head : QueueHead K} (h : IndexConsistent L Q head seqs pages)
    (hhead : readQueueHead L Q = some head) {fuel : Nat} (hfuel : seqs.length ≤ fuel) :
    invariantIndexTotalJobsConsistency fuel L Q = some (.ok ()) := by
  have hcount := h.trail.countIds h.acyclic hfuel (fun s _ => List.not_mem_nil) 0
  have hcollect := (h.trail.collectIds hfuel List.nodup_nil).mpr ⟨List.nil_append _, h.distinct⟩
  simp only [invariantIndexTotalJobsConsistency, hhead, hcount, Nat.zero_add, if_pos h.bounded,
    hcollect, Option.map_some]
  rfl

theorem consistent_of_passes {head : QueueHead K} {fuel : Nat} (hhead : readQueueHead L Q = some head)
    (h : invariantIndexTotalJobsConsistency fuel L Q = some (.ok ())) :
    ∃ seqs pages, IndexConsistent L Q head seqs pages := by
  simp only [invariantIndexTotalJobsConsistency, hhead] at h
  split at h
  next => cases h
  next => cases h
  next n hcount =>
    obtain ⟨seqs, pages, htrail, hnodup, _, hn, hfuel⟩ := trail_of_countIds hcount
    rw [Nat.zero_add] at hn
    by_cases hle : n ≤ head.totalJobs
    · rw [if_pos hle, Option.map_eq_some_iff] at h
      obtain ⟨r, hr, hok⟩ := h
      obtain ⟨ids, rfl⟩ : ∃ ids, r = .ok ids := by
        cases r with
        | error e => cases hok
        | ok ids => exact ⟨ids, rfl⟩
      obtain ⟨he, hids⟩ := (htrail.collectIds hfuel List.nodup_nil).mp hr
      rw [List.nil_append] at he
      exact ⟨seqs, pages, htrail, hnodup, he ▸ hids, hn ▸ hle⟩
    · rw [if_neg hle] at h
      cases h

end

/-- Passing says exactly that: the assertions leave nothing out of it and ask
nothing beyond it. -/
theorem index_invariant_iff {L : Ledger K} {Q : K} {head : QueueHead K}
    (hhead : readQueueHead L Q = some head) :
    (∃ fuel, invariantIndexTotalJobsConsistency fuel L Q = some (.ok ())) ↔
      ∃ seqs pages, IndexConsistent L Q head seqs pages := by
  constructor
  · intro ⟨fuel, h⟩
    exact consistent_of_passes hhead h
  · intro ⟨seqs, pages, h⟩
    exact ⟨seqs.length, h.passes hhead le_rfl⟩

def rolledOver : Ledger Key := fun k =>
  if k = address (.queueHead demoQueue) then some (.queueHead ⟨.wallet 0, 0, 1, 3, 255⟩)
  else if k = address (.index demoQueue 0) then some (.jobIndex ⟨demoQueue, 0, 1, [4], 255⟩)
  else if k = address (.index demoQueue 1) then some (.jobIndex ⟨demoQueue, 1, 0, [4], 255⟩)
  else none

theorem index_invariant_iff_demo :
    (∃ fuel, invariantIndexTotalJobsConsistency fuel rolledOver demoQueue = some (.ok ())) ↔
      ∃ seqs pages, IndexConsistent rolledOver demoQueue ⟨.wallet 0, 0, 1, 3, 255⟩ seqs pages :=
  index_invariant_iff (by decide)

/-- An id on two pages is reported. -/
example : invariantIndexTotalJobsConsistency 3 rolledOver demoQueue =
    some (.error (.duplicateId 4)) := by decide

/-- A tail that is missing is not. -/
example : invariantIndexTotalJobsConsistency 3
    (fun k => if k = address (.index demoQueue 1) then none else rolledOver k) demoQueue =
      some (.ok ()) := by decide

/-! ### The first invariant on reachable ledgers -/

section
variable {L : Ledger K} {Q : K} {v : QueueView K}

omit [AddressDerivation K] in
theorem drop_cons {s : Nat} {pages : List (JobIndex K)} {p : JobIndex K} (hp : pages[s]? = some p) :
    pages.drop s = p :: pages.drop (s + 1) := by
  obtain ⟨hs, rfl⟩ := List.getElem?_eq_some_iff.mp hp
  exact List.drop_eq_getElem_cons hs

theorem trail_hosts (hv : Hosts L Q v) (hinv : Inv v) (n : Nat) :
    ∀ seq, seq + n = v.head.tailIndexSeq →
      Trail L Q v.head.tailIndexSeq seq (List.range' seq (n + 1)) (v.pages.drop seq) := by
  have hlength := hinv.linked.length
  induction n with
  | zero =>
    intro seq hseq
    have he : seq = v.head.tailIndexSeq := hseq
    subst he
    obtain ⟨page, hpage⟩ := hinv.linked.page le_rfl
    rw [drop_cons hpage, List.drop_eq_nil_of_le (Nat.le_of_eq hlength)]
    exact .tail ((readIndexPage_hosts hv _).trans hpage)
  | succ n ih =>
    intro seq hseq
    obtain ⟨page, hpage⟩ := hinv.linked.page (s := seq) (by omega)
    have hread := (readIndexPage_hosts hv seq).trans hpage
    have hnext : page.nextSeq = seq + 1 := (hinv.linked.next seq page hpage).trans (if_pos (by omega))
    rw [drop_cons hpage, List.range'_succ]
    exact .next hread (by omega) (by omega) (hnext ▸ ih (seq + 1) (by omega))

omit [AddressDerivation K] in
theorem stored_nodup (hinv : Inv v) : (stored v.pages).Nodup := by
  rw [List.nodup_iff_count_le_one]
  intro id
  have hid := hinv.indexed id
  unfold occurrences at hid
  rw [hid]
  split <;> omega

omit [AddressDerivation K] in
theorem stored_drop (pages : List (JobIndex K)) (s : Nat) :
    (stored (pages.drop s)).Sublist (stored pages) := by
  have hsplit : stored pages = stored (pages.take s) ++ stored (pages.drop s) := by
    simp only [stored, ← List.flatMap_append, List.take_append_drop]
  rw [hsplit]
  exact List.sublist_append_right ..

theorem consistent_hosts (hv : Hosts L Q v) (hinv : Inv v) :
    IndexConsistent L Q v.head
      (List.range' v.head.headIndexSeq (v.head.tailIndexSeq - v.head.headIndexSeq + 1))
      (v.pages.drop v.head.headIndexSeq) := by
  have horder := hinv.linked.order
  refine ⟨trail_hosts hv hinv _ _ (by omega), List.nodup_range',
    (stored_nodup hinv).sublist (stored_drop ..), ?_⟩
  calc (stored (v.pages.drop v.head.headIndexSeq)).length
      ≤ (stored v.pages).length := (stored_drop ..).length_le
    _ = tally (· == .pending) v.jobs := by
        rw [← stored_length hinv.indexed, stored, List.length_flatMap]
    _ ≤ v.jobs.length := tally_le ..
    _ = v.head.totalJobs := hinv.counted.total.symm

variable [DecidableEq K]

/-- No run of the program, whatever accounts its transactions name, brings a
queue to where the first invariant fails, and both walks end. -/
theorem index_invariant_passes (hL : Reachable L) (Q : K) {fuel : Nat}
    (hfuel : ∀ head, readQueueHead L Q = some head →
      head.tailIndexSeq - head.headIndexSeq < fuel) :
    invariantIndexTotalJobsConsistency fuel L Q = some (.ok ()) := by
  cases hhead : readQueueHead L Q with
  | none => simp only [invariantIndexTotalJobsConsistency, hhead]
  | some head =>
    obtain ⟨v, hv, rfl⟩ := hosts_of_readQueueHead (reachable_wellFormed hL) hhead
    have hlt := hfuel _ hhead
    exact (consistent_hosts hv (reachable_inv hL hv)).passes hhead (by rw [List.length_range']; omega)

theorem index_invariant_passes_demo :
    invariantIndexTotalJobsConsistency 1 (ledgerAfter demoRun) demoQueue = some (.ok ()) :=
  index_invariant_passes demo_reachable demoQueue (by decide)

end

/-! ### The worker of a job -/

inductive WorkerViolation where
  | workerChanged | completedByOther | notCleared
  deriving DecidableEq, Repr

def invariantWorkerImmutability [DecidableEq K] (L : Ledger K) (Q : K) (jobId : Nat)
    (expectedClaimer : K) : Except WorkerViolation Unit :=
  match readJob L Q jobId with
  | none => .ok ()
  | some job =>
    match job.status with
    | .processing =>
        if job.worker = some expectedClaimer then .ok () else .error .workerChanged
    | .completed =>
        if job.worker = some expectedClaimer then .ok () else .error .completedByOther
    | .pending => if job.worker = none then .ok () else .error .notCleared
    | .failed | .cancelled => .ok ()

section
variable [DecidableEq K]

def claimerOf (k : K) (tx : Tx K) : Option K :=
  match tx.ix with
  | .claimJob ctx => if ctx.job = k then some ctx.worker else none
  | _ => none

/-- The signer of the last accepted `claim_job` for the account `k`. -/
def lastClaimer (k : K) (txs : List (Tx K)) : Option K := txs.reverse.findSome? (claimerOf k)

omit [AddressDerivation K] in
theorem lastClaimer_snoc (k : K) (txs : List (Tx K)) (tx : Tx K) :
    lastClaimer k (txs ++ [tx]) = (claimerOf k tx).or (lastClaimer k txs) := by
  rw [lastClaimer, List.reverse_append, List.reverse_singleton, List.singleton_append,
    List.findSome?_cons]
  cases claimerOf k tx <;> rfl

omit [AddressDerivation K] in
theorem claimerOf_other {k : K} {tx : Tx K} (h : worksOn tx.ix ≠ some k) : claimerOf k tx = none := by
  obtain ⟨clock, ix⟩ := tx
  cases ix with
  | claimJob ctx => exact if_neg fun he => h (congrArg some he)
  | _ => rfl

/-- What the record of a job says about its worker against the history. -/
def WorkerFits (last : Option K) (job : Job K) : Prop :=
  match job.status with
  | .pending => job.worker = none
  | .processing | .completed | .failed => job.worker = last
  | .cancelled => True

def ClaimsTraced (k : K) (L : Ledger K) (txs : List (Tx K)) : Prop :=
  ∀ job, L k = some (.job job) → WorkerFits (lastClaimer k txs) job

variable {L L' : Ledger K} {txs : List (Tx K)} {tx : Tx K} {k : K}

omit [AddressDerivation K] in
theorem workerFits_step {clock : Int64} {authority : K} {j j' : Job K}
    (hfits : WorkerFits (lastClaimer k txs) j)
    (h : JobStep k clock authority tx.ix j j') : WorkerFits (lastClaimer k (txs ++ [tx])) j' := by
  obtain ⟨now, ix⟩ := tx
  rw [lastClaimer_snoc]
  dsimp only at h
  cases h with
  | other hne =>
    rw [claimerOf_other hne, Option.none_or]
    exact hfits
  | claim worker page =>
    simp only [claimerOf, if_true, Option.some_or]
    rfl
  | complete worker result hstatus hworker =>
    simp only [WorkerFits, hstatus] at hfits
    exact hfits
  | retry => rfl
  | deadLetter worker page errorMessage retryAfterSecs hmay =>
    simp only [WorkerFits, hmay.1] at hfits
    exact hfits
  | cancel => trivial

theorem claimsTraced_step (hL : WellFormed L) (ht : ClaimsTraced k L txs) (h : step L tx = some L') :
    ClaimsTraced k L' (txs ++ [tx]) := by
  intro job hk
  rcases job_origin hL h hk with ⟨j, hj⟩ | ⟨_, ctx, payload, jobType, priority, executeAfter, queue, _, _, _,
      bump, rfl⟩
  · obtain ⟨queue, j', _, hk', hs⟩ := job_step hL hj h
    cases hk.symm.trans hk'
    exact workerFits_step (ht j hj) hs
  · rfl

theorem claimsTraced_run (hrun : run step genesis txs = some L) : ClaimsTraced k L txs := by
  refine run_history (P := fun L txs => ClaimsTraced k L txs) ?_ ?_ hrun
  · intro job hk
    cases hk
  · intro L txs tx L' hr ht hs
    exact claimsTraced_step (reachable_wellFormed ⟨txs, hr⟩) ht hs

/-- After any run the second invariant holds for `expectedClaimer` exactly when
the job is not locked or done, or the last claim accepted for it was signed by
that key. A retried job always has its worker cleared. -/
theorem worker_invariant_iff (hrun : run step genesis txs = some L) (Q : K) (jobId : Nat)
    (expectedClaimer : K) :
    invariantWorkerImmutability L Q jobId expectedClaimer = .ok () ↔
      ∀ job, readJob L Q jobId = some job → job.status = .processing ∨ job.status = .completed →
        lastClaimer (address (.job Q jobId)) txs = some expectedClaimer := by
  unfold invariantWorkerImmutability
  cases hjob : readJob L Q jobId with
  | none => simp
  | some job =>
    have hk : L (address (.job Q jobId)) = some (.job job) := by
      unfold readJob at hjob
      split at hjob
      next job' hk =>
        cases hjob
        exact hk
      next => cases hjob
    have hfits := claimsTraced_run hrun job hk
    unfold WorkerFits at hfits
    cases hs : job.status with
    | pending => simp_all
    | processing => simp_all
    | completed => simp_all
    | failed => simp_all
    | cancelled => simp_all

theorem worker_invariant_iff_demo :
    invariantWorkerImmutability (ledgerAfter demoRun) demoQueue 0 (.wallet 1) = .ok () ↔
      ∀ job, readJob (ledgerAfter demoRun) demoQueue 0 = some job →
        job.status = .processing ∨ job.status = .completed →
          lastClaimer (address (.job demoQueue 0)) demoRun = some (.wallet 1) :=
  worker_invariant_iff (ledgerAfter_run demoRun_accepted) demoQueue 0 (.wallet 1)

end

end DecQueue.FuzzOracles
