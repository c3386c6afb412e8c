import DecQueue.Conservation
import DecQueue.JobLife
import DecQueue.Kit.Independence

/-! # Instructions on different jobs

Claims, completions, cancellations and final failures of different jobs of one
queue share its counters and may share its pages. Whether one is accepted
depends on its own job and on whether the page it names holds the id of that
job, so their order makes no difference: the same ones are accepted, and what
they leave differs at most in the order of ids on a page. -/

namespace DecQueue.Commute
open Kit.Transition Kit.Independence Kit.Lists State Handlers Outcomes Address Program View
  Refinement Reachability Invariants Conservation JobLife

variable {K : Type}

/-- If the instruction is a `fail_job`, the attempts of the job are used up. -/
def Exhausted (ix : Instruction K) (job : Job K) : Prop :=
  ∀ ctx errorMessage retryAfterSecs, ix = .failJob ctx errorMessage retryAfterSecs →
    job.maxRetries ≤ job.attempts

/-- The instruction works on a job of `Q` and is not a retry. -/
def Settles (L : Ledger K) (Q : K) (ix : Instruction K) : Prop :=
  ∃ k job, worksOn ix = some k ∧ L k = some (.job job) ∧ job.queue = Q ∧ Exhausted ix job

structure Independent (L : Ledger K) (Q : K) (ixs : List (Instruction K)) : Prop where
  distinct : (ixs.map worksOn).Nodup
  settles : ∀ ix ∈ ixs, Settles L Q ix

/-- The accounts are equal but for the order of the ids of a page. -/
def SameUpToOrder (a b : Option (Account K)) : Prop :=
  a = b ∨ ∃ p q : JobIndex K, a = some (.jobIndex p) ∧ b = some (.jobIndex q) ∧
    { p with jobIds := [] } = { q with jobIds := [] } ∧ p.jobIds.Perm q.jobIds

/-! ### What decides acceptance -/

/-- For instructions on job `i` the two views are alike. -/
structure Alike (i : Nat) (v w : QueueView K) : Prop where
  authority : w.queue.authority = v.queue.authority
  job : w.jobs[i]? = v.jobs[i]?
  page : ∀ s : Nat, (w.pages[s]?.map fun p => decide (i ∈ p.jobIds)) =
    v.pages[s]?.map fun p => decide (i ∈ p.jobIds)

section
variable {i : Nat} {v w : QueueView K}

theorem Alike.symm (h : Alike i v w) : Alike i w v :=
  ⟨h.authority.symm, h.job.symm, fun s => (h.page s).symm⟩

theorem Alike.page_of (h : Alike i v w) {s : Nat} {p : JobIndex K} (hp : v.pages[s]? = some p) :
    ∃ q, w.pages[s]? = some q ∧ (i ∈ q.jobIds ↔ i ∈ p.jobIds) := by
  have hs := h.page s
  rw [hp, Option.map_some, Option.map_eq_some_iff] at hs
  obtain ⟨q, hq, hmem⟩ := hs
  exact ⟨q, hq, decide_eq_decide.mp hmem⟩

theorem page_alike {pages : List (JobIndex K)} {t : Nat} {p p' : JobIndex K}
    (hp : pages[t]? = some p) (hmem : i ∈ p'.jobIds ↔ i ∈ p.jobIds) (s : Nat) :
    ((pages.set t p')[s]?.map fun p => decide (i ∈ p.jobIds)) =
      pages[s]?.map fun p => decide (i ∈ p.jobIds) := by
  rw [getElem?_set_of_some p' hp]
  split
  next hs => rw [hs, hp, Option.map_some, Option.map_some, decide_eq_decide.mpr hmem]
  next => rfl

theorem job_alike {jobs : List (Job K)} {t : Nat} {j j' : Job K} (hj : jobs[t]? = some j)
    (hne : i ≠ t) : (jobs.set t j')[i]? = jobs[i]? := by
  rw [getElem?_set_of_some j' hj, if_neg hne]

theorem mem_removeJob {p p' : JobIndex K} {a : Nat} (h : p.removeJob a = .ok p') (hne : i ≠ a) :
    i ∈ p'.jobIds ↔ i ∈ p.jobIds := by
  rw [(removeJob_perm h).mem_iff, List.mem_cons]
  simp [hne]

end

section
variable [AddressDerivation K] {Q : K} {clock : Int64} {ix : Instruction K} {v w v' : QueueView K}
  {evs : List (Event K)} {i t : Nat}

theorem alike_step (hq : Placed Q v) (hstep : QueueStep Q clock ix v v' evs)
    (hk : worksOn ix = some (address (.job Q t))) (hne : i ≠ t) : Alike i v v' := by
  have hindex : ∀ {u : Nat}, some (address (.job Q u)) = some (address (.job Q t)) → u = t :=
    fun he => (Seeds.job.inj (address_injective (Option.some.inj he))).2
  cases hstep with
  | growIndex | advanceHead | enqueueJob | setQueuePaused => cases hk
  | @claimJob v u s j p p' worker hjob hpage hstatus hready hremove =>
    cases hindex hk
    have hid := (hq.job _ j hjob).2.1
    exact ⟨rfl, job_alike hjob hne, page_alike hpage (mem_removeJob hremove (hid ▸ hne))⟩
  | completeJob worker result hjob =>
    cases hindex hk
    exact ⟨rfl, job_alike hjob hne, fun _ => rfl⟩
  | @retryJob v u s j p worker errorMessage retryAfterSecs hjob hpage =>
    cases hindex hk
    have hid := (hq.job _ j hjob).2.1
    refine ⟨rfl, job_alike hjob hne, page_alike hpage ?_⟩
    simp [hid, hne]
  | deadLetter worker errorMessage retryAfterSecs hjob =>
    cases hindex hk
    exact ⟨rfl, job_alike hjob hne, fun _ => rfl⟩
  | @cancelJob v u s j p p' hjob hpage hstatus hremove =>
    cases hindex hk
    have hid := (hq.job _ j hjob).2.1
    exact ⟨rfl, job_alike hjob hne, page_alike hpage (mem_removeJob hremove (hid ▸ hne))⟩

theorem queueStep_of_alike [DecidableEq K] {M : Ledger K} (hM : Reachable M) (hw : Hosts M Q w)
    (h : Alike i v w) (hq : Placed Q v) (hstep : QueueStep Q clock ix v v' evs)
    (hk : worksOn ix = some (address (.job Q i)))
    (hdead : ∀ j, v.jobs[i]? = some j → Exhausted ix j) :
    ∃ w' evs', QueueStep Q clock ix w w' evs' := by
  have hindex : ∀ {u : Nat}, some (address (.job Q u)) = some (address (.job Q i)) → u = i :=
    fun he => (Seeds.job.inj (address_injective (Option.some.inj he))).2
  -- the counters below their limits, as on any reachable ledger
  have hroom : ∀ {j}, w.jobs[i]? = some j → j.status = .processing →
      w.queue.processedCount + 1 ≤ u64Max ∧ w.queue.failedCount + 1 ≤ u64Max := by
    intro j hj hs
    have hown := (hw.placed.job i j hj).1
    exact processing_room hM (hw.job hj) (hown ▸ hw.view.queueAt) hs
  cases hstep with
  | growIndex | advanceHead | enqueueJob | setQueuePaused => cases hk
  | @claimJob v u s j p p' worker hjob hpage hstatus hready hremove =>
    cases hindex hk
    have hid := (hq.job _ j hjob).2.1
    obtain ⟨q, hq', hmem⟩ := h.page_of hpage
    obtain ⟨q', hremove'⟩ := removeJob_of_mem (hid ▸ hmem.mpr (hid ▸ mem_of_removeJob hremove))
    exact ⟨_, _, .claimJob worker (h.job.trans hjob) hq' hstatus hready hremove'⟩
  | @completeJob v u j worker result hjob hstatus hworker hresult =>
    cases hindex hk
    have hjob' := h.job.trans hjob
    exact ⟨_, _, .completeJob worker result hjob' hstatus hworker hresult (hroom hjob' hstatus).1⟩
  | @retryJob v u s j p worker errorMessage retryAfterSecs hjob hpage hretry =>
    cases hindex hk
    exact absurd hretry (Nat.not_lt.mpr (hdead j hjob _ _ _ rfl))
  | @deadLetter v u s j p worker errorMessage retryAfterSecs hjob hpage hexhausted hmay =>
    cases hindex hk
    have hjob' := h.job.trans hjob
    obtain ⟨q, hq', _⟩ := h.page_of hpage
    exact ⟨_, _, .deadLetter worker errorMessage retryAfterSecs hjob' hq' hexhausted hmay
      (hroom hjob' hmay.1).2⟩
  | @cancelJob v u s j p p' hjob hpage hstatus hremove =>
    cases hindex hk
    have hid := (hq.job _ j hjob).2.1
    obtain ⟨q, hq', hmem⟩ := h.page_of hpage
    obtain ⟨q', hremove'⟩ := removeJob_of_mem (hid ▸ hmem.mpr (hid ▸ mem_of_removeJob hremove))
    rw [← h.authority]
    exact ⟨_, _, .cancelJob (h.job.trans hjob) hq' hstatus hremove'⟩

end

/-! ### Acceptance on the ledger -/

section
variable [DecidableEq K] [AddressDerivation K] {L L' : Ledger K} {Q : K} {clock : Int64}
  {ix jx : Instruction K} {ixs : List (Instruction K)} {v : QueueView K}

def stepAt (clock : Int64) (L : Ledger K) (ix : Instruction K) : Option (Ledger K) :=
  step L ⟨clock, ix⟩

theorem stepAt_inv (hL : WellFormed L) (hv : Hosts L Q v) (hix : Settles L Q ix)
    (h : stepAt clock L ix = some L') :
    ∃ v' evs, QueueStep Q clock ix v v' evs ∧ Hosts L' Q v' ∧ Frame Q L L' := by
  obtain ⟨k, job, hk, hj, rfl, _⟩ := hix
  obtain ⟨evs, heff⟩ := effect_of_step hL h
  cases heff with
  | create => cases hk
  | @act Q' w w' ix evs hw hstep hnew =>
    obtain ⟨t, r, rfl, hr⟩ := worksOn_step hstep hk
    cases hj.symm.trans (hw.job hr)
    cases (hw.placed.job t job hr).1
    cases hv.unique hw
    exact ⟨w', evs, hstep, ⟨hnew.view, hstep.placed hw.placed⟩, hnew.frame⟩

theorem stepAt_isSome (hL : WellFormed L) (hv : Hosts L Q v) (hix : Settles L Q ix) :
    (stepAt clock L ix).isSome = true ↔ ∃ v' evs, QueueStep Q clock ix v v' evs := by
  rw [Option.isSome_iff_exists]
  constructor
  · rintro ⟨L', h⟩
    obtain ⟨v', evs, hstep, _⟩ := stepAt_inv hL hv hix h
    exact ⟨v', evs, hstep⟩
  · rintro ⟨v', evs, hstep⟩
    obtain ⟨L', h, _⟩ := step_of_queueStep hv hstep
    exact ⟨L', h⟩

def jobAfter (clock : Int64) : Instruction K → Job K → Job K
  | .claimJob ctx, job => locked clock ctx.worker job
  | .completeJob _ result, job => finished clock result job
  | .failJob _ errorMessage retryAfterSecs, job =>
      if job.attempts < job.maxRetries then retried clock errorMessage retryAfterSecs job
      else deadLettered clock errorMessage job
  | .cancelJob _, job => cancelled clock job
  | .initializeQueue _ _ _, job | .growIndex _ _, job | .advanceHead _, job
  | .enqueueJob _ _ _ _ _, job | .setQueuePaused _ _, job => job

omit [AddressDerivation K] [DecidableEq K] in
theorem jobStep_after {k authority : K} {j j' : Job K} (h : JobStep k clock authority ix j j')
    (hk : worksOn ix = some k) : j' = jobAfter clock ix j := by
  cases h with
  | other hne => exact absurd hk hne
  | claim | complete | cancel => rfl
  | retry worker page errorMessage retryAfterSecs hmay hretry => exact (if_pos hretry).symm
  | deadLetter worker page errorMessage retryAfterSecs hmay hdead => exact (if_neg hdead).symm

def recordAt (L : Ledger K) (k : Option K) : Option (Job K) :=
  k.bind fun k => match L k with
    | some (.job job) => some job
    | _ => none

omit [AddressDerivation K] [DecidableEq K] in
theorem recordAt_iff {L : Ledger K} {k : K} {j : Job K} :
    recordAt L (some k) = some j ↔ L k = some (.job j) := by
  unfold recordAt
  rw [Option.bind_some]
  split <;> simp_all

theorem recordAt_other (hL : WellFormed L) {k : Option K} (hwork : (worksOn ix).isSome = true)
    (hk : k ≠ worksOn ix) (h : stepAt clock L ix = some L') : recordAt L' k = recordAt L k := by
  cases k with
  | none => rfl
  | some k =>
    cases hj : recordAt L (some k) with
    | some j =>
      obtain ⟨_, j', _, hj', hstep⟩ := job_step hL (recordAt_iff.mp hj) h
      rw [recordAt_iff, hj', jobStep_other hstep hk.symm]
    | none =>
      rw [Option.eq_none_iff_forall_not_mem]
      intro j' hj'
      rcases job_origin hL h (recordAt_iff.mp hj') with ⟨j, hold⟩ | ⟨_, ctx, _, _, _, _, _, hix, _⟩
      · rw [recordAt_iff.mpr hold] at hj
        cases hj
      · change ix = _ at hix
        rw [hix] at hwork
        cases hwork

omit [AddressDerivation K] [DecidableEq K] in
theorem Settles.works (h : Settles L Q ix) : (worksOn ix).isSome = true := by
  obtain ⟨k, _, hk, _⟩ := h
  rw [hk]
  rfl

theorem Settles.keep (hL : WellFormed L) (hix : Settles L Q ix) (hjx : Settles L Q jx)
    (hne : worksOn jx ≠ worksOn ix) (h : stepAt clock L ix = some L') : Settles L' Q jx := by
  obtain ⟨k, job, hk, hj, hown, hdead⟩ := hjx
  rw [hk] at hne
  have hkeep := recordAt_other hL hix.works hne h
  rw [recordAt_iff.mpr hj, recordAt_iff] at hkeep
  exact ⟨k, job, hk, hkeep, hown, hdead⟩

theorem Independent.next (hL : WellFormed L) (hi : Independent L Q (ix :: ixs))
    (h : stepAt clock L ix = some L') : Independent L' Q ixs := by
  have hn := hi.distinct
  rw [List.map_cons, List.nodup_cons] at hn
  refine ⟨hn.2, fun jx hjx => ?_⟩
  have hix := hi.settles ix (List.mem_cons_self ..)
  refine hix.keep hL (hi.settles jx (List.mem_cons_of_mem ix hjx)) (fun he => ?_) h
  exact hn.1 (he ▸ List.mem_map_of_mem hjx)

omit [DecidableEq K] in
theorem Settles.index (hL : WellFormed L) (h : Settles L Q ix) :
    ∃ v i j, Hosts L Q v ∧ worksOn ix = some (address (.job Q i)) ∧ v.jobs[i]? = some j ∧
      Exhausted ix j := by
  obtain ⟨k, job, hk, hj, rfl, hdead⟩ := h
  obtain ⟨v, i, hv, rfl, hjob⟩ := hL.job hj
  exact ⟨v, i, job, hv, hk, hjob, hdead⟩

theorem accepted_other (hL : Reachable L) (hix : Settles L Q ix) (hjx : Settles L Q jx)
    (hne : worksOn jx ≠ worksOn ix) (h : stepAt clock L ix = some L') :
    (stepAt clock L' jx).isSome = (stepAt clock L jx).isSome := by
  have hwf := reachable_wellFormed hL
  have hL' : Reachable L' := hL.next h
  have hjx' := hix.keep hwf hjx hne h
  obtain ⟨v, t, _, hv, ht, _⟩ := hix.index hwf
  obtain ⟨w, i, j, hw, hi, hj, hdead⟩ := hjx.index hwf
  cases hv.unique hw
  obtain ⟨v', evs, hstep, hv', _⟩ := stepAt_inv hwf hv hix h
  have hit : i ≠ t := by
    rintro rfl
    exact hne (hi.trans ht.symm)
  have halike := alike_step hv.placed hstep ht hit
  have hex : ∀ r, v.jobs[i]? = some r → Exhausted jx r := by
    intro r hr
    cases hj.symm.trans hr
    exact hdead
  rw [Bool.eq_iff_iff, stepAt_isSome (reachable_wellFormed hL') hv' hjx', stepAt_isSome hwf hv hjx]
  constructor
  · rintro ⟨w', evs', hstep'⟩
    exact queueStep_of_alike hL hv halike.symm hv'.placed hstep' hi fun r hr =>
      hex r (halike.job.symm.trans hr)
  · rintro ⟨w', evs', hstep'⟩
    exact queueStep_of_alike hL' hv' halike hv.placed hstep' hi hex

end

/-! ### What a settled queue keeps -/

def blank (page : JobIndex K) : JobIndex K := { page with jobIds := [] }

def statics (queue : Queue K) : Queue K :=
  { queue with pendingCount := 0, processedCount := 0, failedCount := 0 }

theorem eq_of_statics {q r : Queue K} (h : statics q = statics r)
    (hp : q.pendingCount = r.pendingCount) (hc : q.processedCount = r.processedCount)
    (hf : q.failedCount = r.failedCount) : q = r := by
  cases q
  cases r
  simp_all [statics]

/-- Pages lose ids and counters move, the rest stays. -/
structure Settled (v w : QueueView K) : Prop where
  queue : statics w.queue = statics v.queue
  head : w.head = v.head
  page : ∀ s : Nat, w.pages[s]?.map blank = v.pages[s]?.map blank
  ids : ∀ (s : Nat) p q, v.pages[s]? = some p → w.pages[s]? = some q → q.jobIds ⊆ p.jobIds

section
variable {u v w : QueueView K}

theorem Settled.refl (v : QueueView K) : Settled v v := by
  refine ⟨rfl, rfl, fun _ => rfl, fun s p q hp hq => ?_⟩
  cases hp.symm.trans hq
  exact List.Subset.refl _

theorem Settled.page_of (h : Settled v w) {s : Nat} {q : JobIndex K} (hq : w.pages[s]? = some q) :
    ∃ p, v.pages[s]? = some p ∧ blank p = blank q ∧ q.jobIds ⊆ p.jobIds := by
  have hs := (h.page s).symm
  rw [hq, Option.map_some, Option.map_eq_some_iff] at hs
  obtain ⟨p, hp, he⟩ := hs
  exact ⟨p, hp, he, h.ids s p q hp hq⟩

theorem Settled.trans (h : Settled u v) (h' : Settled v w) : Settled u w := by
  refine ⟨h'.queue.trans h.queue, h'.head.trans h.head, fun s => (h'.page s).trans (h.page s), ?_⟩
  intro s p r hp hr
  obtain ⟨q, hq, _, hsub⟩ := h'.page_of hr
  exact List.Subset.trans hsub (h.ids s p q hp hq)

theorem page_settled {pages : List (JobIndex K)} {t : Nat} {p p' : JobIndex K} {a : Nat}
    (hp : pages[t]? = some p) (h : p.removeJob a = .ok p') :
    (∀ s : Nat, (pages.set t p')[s]?.map blank = pages[s]?.map blank) ∧
      ∀ (s : Nat) q r, pages[s]? = some q → (pages.set t p')[s]? = some r → r.jobIds ⊆ q.jobIds := by
  have hblank : blank p' = blank p := by
    obtain ⟨hq, hs, hn, hb⟩ := removeJob_fields h
    simp only [blank, hq, hs, hn, hb]
  constructor
  · intro s
    rw [getElem?_set_of_some p' hp]
    split
    next hs => rw [hs, hp, Option.map_some, Option.map_some, hblank]
    next => rfl
  · intro s q r hq hr
    rw [getElem?_set_of_some p' hp] at hr
    split at hr
    next hs =>
      subst hs
      cases hr
      cases hp.symm.trans hq
      exact fun id hid => (removeJob_perm h).mem_iff.mpr (List.mem_cons_of_mem a hid)
    next =>
      cases hq.symm.trans hr
      exact List.Subset.refl _

theorem settled_step [AddressDerivation K] {Q : K} {clock : Int64} {ix : Instruction K} {i : Nat}
    {j : Job K} {evs : List (Event K)} (hstep : QueueStep Q clock ix v w evs)
    (hk : worksOn ix = some (address (.job Q i))) (hj : v.jobs[i]? = some j)
    (hdead : Exhausted ix j) : Settled v w := by
  have hsame := Settled.refl v
  cases hstep with
  | growIndex | advanceHead | enqueueJob | setQueuePaused => cases hk
  | claimJob worker hjob hpage hstatus hready hremove =>
    obtain ⟨hs, hids⟩ := page_settled hpage hremove
    exact ⟨rfl, rfl, hs, hids⟩
  | completeJob | deadLetter => exact ⟨rfl, rfl, hsame.page, hsame.ids⟩
  | retryJob worker errorMessage retryAfterSecs hjob hpage hretry =>
    cases address_injective (Option.some.inj hk)
    cases hj.symm.trans hjob
    exact absurd hretry (Nat.not_lt.mpr (hdead _ _ _ rfl))
  | cancelJob hjob hpage hstatus hremove =>
    obtain ⟨hs, hids⟩ := page_settled hpage hremove
    exact ⟨rfl, rfl, hs, hids⟩

/-- A page keeps of its ids those whose jobs are still pending. -/
theorem Settled.mem_iff (h : Settled v w) (hv : Inv v) (hw : Inv w) {s : Nat} {p q : JobIndex K}
    (hp : v.pages[s]? = some p) (hq : w.pages[s]? = some q) (id : Nat) :
    id ∈ q.jobIds ↔ id ∈ p.jobIds ∧ pendingAt w.jobs id = true := by
  constructor
  · exact fun hid => ⟨h.ids s p q hp hq hid, hw.indexed.pending_of_mem hq hid⟩
  · rintro ⟨hid, hpending⟩
    obtain ⟨t, r, hr, hid'⟩ := hw.indexed.page_of_pending hpending
    obtain ⟨p', hp', _, hsub⟩ := h.page_of hr
    cases hv.indexed.unique hp hp' hid (hsub hid')
    cases hq.symm.trans hr
    exact hid'

theorem ids_nodup (h : Inv v) {s : Nat} {p : JobIndex K} (hp : v.pages[s]? = some p) :
    p.jobIds.Nodup := by
  rw [List.nodup_iff_count_le_one]
  intro id
  have hid := h.indexed id
  have hset := occurrences_set hp (blank p) id
  simp only [blank, List.count_nil] at hset
  split at hid <;> omega

/-- The jobs decide everything else. -/
theorem Settled.agree (hv : Settled u v) (hw : Settled u w) (hu : Inv u) (hiv : Inv v) (hiw : Inv w)
    (hjobs : v.jobs = w.jobs) :
    v.queue = w.queue ∧ v.head = w.head ∧
      ∀ s : Nat, SameUpToOrder (v.pages[s]?.map .jobIndex) (w.pages[s]?.map .jobIndex) := by
  refine ⟨?_, hv.head.trans hw.head.symm, fun s => ?_⟩
  · apply eq_of_statics (hv.queue.trans hw.queue.symm)
    · rw [hiv.counted.pending, hiw.counted.pending, hjobs]
    · rw [hiv.counted.processed, hiw.counted.processed, hjobs]
    · rw [hiv.counted.failed, hiw.counted.failed, hjobs]
  · have hs := (hv.page s).trans (hw.page s).symm
    cases hp : v.pages[s]? with
    | none =>
      rw [hp, Option.map_none, eq_comm, Option.map_eq_none_iff] at hs
      rw [hs]
      exact .inl rfl
    | some p =>
      rw [hp, Option.map_some, eq_comm, Option.map_eq_some_iff] at hs
      obtain ⟨q, hq, he⟩ := hs
      obtain ⟨r, hr, _⟩ := hv.page_of hp
      rw [hq]
      refine .inr ⟨p, q, rfl, rfl, he.symm, ?_⟩
      rw [List.perm_ext_iff_of_nodup (ids_nodup hiv hp) (ids_nodup hiw hq)]
      intro id
      rw [hv.mem_iff hu hiv hr hp, hw.mem_iff hu hiw hr hq, hjobs]

end

/-! ### Any order -/

section
variable [DecidableEq K] [AddressDerivation K] {L L' : Ledger K} {Q : K} {clock : Int64}
  {ix jx : Instruction K} {ixs : List (Instruction K)} {v : QueueView K}

/-- What holds of a state in which the instructions `ixs` are still to come. -/
def Ready (Q : K) (L : Ledger K) (ixs : List (Instruction K)) : Prop :=
  Reachable L ∧ Independent L Q ixs

theorem Ready.next (h : Ready Q L (ix :: ixs)) (hstep : stepAt clock L ix = some L') :
    Ready Q L' ixs :=
  ⟨h.1.next hstep, h.2.next (reachable_wellFormed h.1) hstep⟩

theorem acts (clock : Int64) (Q : K) : ActsAt (stepAt clock) (Ready Q) worksOn recordAt
    fun ix => Option.map (jobAfter clock ix) where
  next _ _ _ _ h hstep := h.next hstep
  here L ix ixs L' h hstep := by
    obtain ⟨k, job, hk, hj, _⟩ := h.2.settles ix (List.mem_cons_self ..)
    obtain ⟨_, j', _, hj', hjob⟩ := job_step (reachable_wellFormed h.1) hj hstep
    rw [hk, recordAt_iff.mpr hj, Option.map_some, recordAt_iff, hj', jobStep_after hjob hk]
  frame L ix ixs L' h hstep k hk :=
    recordAt_other (reachable_wellFormed h.1) (h.2.settles ix (List.mem_cons_self ..)).works hk hstep

theorem accepted_eq_filter (h : Ready Q L ixs) :
    (attempt (stepAt clock) L ixs).2 = ixs.filter fun ix => (stepAt clock L ix).isSome := by
  refine attempt_eq_filter (G := Ready Q) ?_ ?_ h
  · rintro M ix ixs ⟨hM, hi⟩
    exact ⟨hM, (List.nodup_cons.mp hi.distinct).2, fun jx hjx =>
      hi.settles jx (List.mem_cons_of_mem ix hjx)⟩
  · intro M ix ixs M' hr hstep
    refine ⟨hr.next hstep, fun jx hjx => ?_⟩
    have hn := hr.2.distinct
    rw [List.map_cons, List.nodup_cons] at hn
    exact accepted_other hr.1 (hr.2.settles ix (List.mem_cons_self ..))
      (hr.2.settles jx (List.mem_cons_of_mem ix hjx))
      (fun he => hn.1 (he ▸ List.mem_map_of_mem hjx)) hstep

theorem settled_run (h : Ready Q L ixs) (hv : Hosts L Q v)
    (hrun : run (stepAt clock) L ixs = some L') :
    ∃ w, Hosts L' Q w ∧ Reachable L' ∧ Settled v w ∧ Frame Q L L' := by
  induction ixs generalizing L v with
  | nil =>
    cases hrun
    exact ⟨v, hv, h.1, Settled.refl v, fun _ _ => rfl⟩
  | cons ix ixs ih =>
    obtain ⟨M, hM, hrest⟩ := run_cons.mp hrun
    have hwf := reachable_wellFormed h.1
    have hix := h.2.settles ix (List.mem_cons_self ..)
    obtain ⟨u, evs, hstep, hu, hframe⟩ := stepAt_inv hwf hv hix hM
    obtain ⟨v', i, j, hv', hi, hj, hdead⟩ := hix.index hwf
    cases hv.unique hv'
    obtain ⟨w, hw, hL', hsettled, hframe'⟩ := ih (h.next hM) hu hrest
    exact ⟨w, hw, hL', (settled_step hstep hi hj hdead).trans hsettled,
      fun k hk => (hframe' k hk).trans (hframe k hk)⟩

omit [DecidableEq K] in
theorem jobs_eq {M M' : Ledger K} {v w : QueueView K} (hv : Hosts M Q v) (hw : Hosts M' Q w)
    (h : ∀ k, recordAt M k = recordAt M' k) : v.jobs = w.jobs := by
  have hrecord : ∀ {N u}, Hosts N Q u → ∀ i, recordAt N (some (address (.job Q i))) = u.jobs[i]? := by
    intro N u hu i
    cases hj : u.jobs[i]? with
    | some j => exact recordAt_iff.mpr (hu.job hj)
    | none => simp only [recordAt, Option.bind_some, hu.view.jobAt, hj, Option.map_none]
  apply List.ext_getElem?
  intro i
  rw [← hrecord hv, ← hrecord hw, h]

omit [AddressDerivation K] [DecidableEq K] in
theorem Independent.perm (h : Independent L Q ixs) {ixs' : List (Instruction K)}
    (hp : ixs.Perm ixs') : Independent L Q ixs' :=
  ⟨(hp.map worksOn).nodup_iff.mp h.distinct, fun ix hix => h.settles ix (hp.mem_iff.mpr hix)⟩

omit [AddressDerivation K] [DecidableEq K] in
theorem Independent.filter (h : Independent L Q ixs) (p : Instruction K → Bool) :
    Independent L Q (ixs.filter p) :=
  ⟨h.distinct.sublist (List.filter_sublist.map worksOn), fun ix hix =>
    h.settles ix (List.mem_filter.mp hix).1⟩

/-- Independent instructions of one block: in any two orders the same ones are
accepted, and the ledgers differ at most in the order of ids on a page. -/
theorem independent_commute (hL : Reachable L) (hi : Independent L Q ixs)
    {ixs' : List (Instruction K)} (hperm : ixs.Perm ixs') (clock : Int64) :
    (attempt (stepAt clock) L ixs).2.Perm (attempt (stepAt clock) L ixs').2 ∧
      ∀ k, SameUpToOrder ((attempt (stepAt clock) L ixs).1 k)
        ((attempt (stepAt clock) L ixs').1 k) := by
  have hacc : (attempt (stepAt clock) L ixs).2 = ixs.filter fun ix => (stepAt clock L ix).isSome :=
    accepted_eq_filter ⟨hL, hi⟩
  have hacc' : (attempt (stepAt clock) L ixs').2 =
      ixs'.filter fun ix => (stepAt clock L ix).isSome :=
    accepted_eq_filter ⟨hL, hi.perm hperm⟩
  have hp : (attempt (stepAt clock) L ixs).2.Perm (attempt (stepAt clock) L ixs').2 := by
    rw [hacc, hacc']
    exact hperm.filter _
  have hA : Ready Q L (attempt (stepAt clock) L ixs).2 := ⟨hL, hacc ▸ hi.filter _⟩
  have hA' : Ready Q L (attempt (stepAt clock) L ixs').2 := ⟨hL, hacc' ▸ (hi.perm hperm).filter _⟩
  refine ⟨hp, fun k => ?_⟩
  have hrun := attempt_run (stepAt clock) L ixs
  have hrun' := attempt_run (stepAt clock) L ixs'
  cases ixs with
  | nil =>
    cases hperm.nil_eq
    exact .inl rfl
  | cons ix rest =>
    obtain ⟨u, _, _, hu, _⟩ := (hi.settles ix (List.mem_cons_self ..)).index (reachable_wellFormed hL)
    obtain ⟨v, hv, hM, hsettled, hframe⟩ := settled_run hA hu hrun
    obtain ⟨w, hw, hM', hsettled', hframe'⟩ := settled_run hA' hu hrun'
    have hjobs := jobs_eq hv hw ((acts clock Q).run_perm hA hA' hA.2.distinct hp hrun hrun')
    obtain ⟨hqueue, hhead, hpages⟩ := hsettled.agree hsettled' (reachable_inv hL hu)
      (reachable_inv hM hv) (reachable_inv hM' hw) hjobs
    by_cases hk : Slot Q k
    · rcases hk with rfl | rfl | ⟨s, rfl⟩ | ⟨i, rfl⟩
      · exact .inl (by rw [hv.view.queueAt, hw.view.queueAt, hqueue])
      · exact .inl (by rw [hv.view.headAt, hw.view.headAt, hhead])
      · rw [hv.view.pageAt, hw.view.pageAt]
        exact hpages s
      · exact .inl (by rw [hv.view.jobAt, hw.view.jobAt, hjobs])
    · exact .inl ((hframe k hk).trans (hframe' k hk).symm)

end

/-- The first job is completed and the second cancelled. -/
def demoBlock : List (Instruction Key) :=
  [completeAt demoQueue (.wallet 1) 0 none, cancelAt demoQueue (.wallet 0) 1 0]

theorem demoBlock_independent : Independent (ledgerAfter demoRun) demoQueue demoBlock where
  distinct := by decide
  settles ix hix := by
    simp only [demoBlock, List.mem_cons, List.not_mem_nil, or_false] at hix
    rcases hix with rfl | rfl
    · exact ⟨_, _, rfl, demo_claimed, rfl, nofun⟩
    · exact ⟨_, _, rfl, demo_pending, rfl, nofun⟩

theorem independent_commute_demo :
    (attempt (stepAt 4) (ledgerAfter demoRun) demoBlock).2.Perm
        (attempt (stepAt 4) (ledgerAfter demoRun) demoBlock.reverse).2 ∧
      ∀ k, SameUpToOrder ((attempt (stepAt 4) (ledgerAfter demoRun) demoBlock).1 k)
        ((attempt (stepAt 4) (ledgerAfter demoRun) demoBlock.reverse).1 k) :=
  independent_commute demo_reachable demoBlock_independent (List.reverse_perm demoBlock).symm 4

end DecQueue.Commute
