import DecQueue.View

/-! # The ledger refines its queues

Every account on a reachable ledger belongs to exactly one queue, and an
accepted instruction is either the creation of a queue or one step of one
queue, with all other accounts untouched. The caller's choice of accounts
disappears here: what passes the context checks are the canonical addresses of
a single queue. -/

namespace DecQueue.Refinement
open Kit.Fallible Kit.Lists State Handlers Outcomes Address Program View

variable {K : Type} [AddressDerivation K]

/-! ### Ownership of addresses -/

def Slot (Q k : K) : Prop :=
  k = Q ∨ k = address (.queueHead Q) ∨ (∃ s, k = address (.index Q s)) ∨ ∃ i, k = address (.job Q i)

theorem Slot.unique {Q Q' k : K} (hQ : QueueKey Q) (hQ' : QueueKey Q') (h : Slot Q k)
    (h' : Slot Q' k) : Q = Q' := by
  obtain ⟨a, n, rfl⟩ := hQ
  obtain ⟨a', n', rfl⟩ := hQ'
  rcases h with rfl | rfl | ⟨s, rfl⟩ | ⟨i, rfl⟩ <;>
    rcases h' with h' | h' | ⟨s', h'⟩ | ⟨i', h'⟩ <;>
    simp_all [address_inj]

/-- The queue `Q` is on the ledger, and `v` is what the ledger holds for it. -/
structure Hosts (L : Ledger K) (Q : K) (v : QueueView K) : Prop where
  view : Shows L Q v
  placed : Placed Q v

def WellFormed (L : Ledger K) : Prop := ∀ k data, L k = some data → ∃ Q v, Hosts L Q v ∧ Slot Q k

/-- Accounts outside the queue are left alone. -/
def Frame (Q : K) (L L' : Ledger K) : Prop := ∀ k, ¬Slot Q k → L' k = L k

section
variable {L L' : Ledger K} {Q Q' : K} {v w : QueueView K}

theorem Hosts.unique (hv : Hosts L Q v) (hw : Hosts L Q w) : v = w := hv.view.unique hw.view

theorem Hosts.isKey (hv : Hosts L Q v) : QueueKey Q := hv.placed.isKey

theorem Hosts.page (hv : Hosts L Q v) {s : Nat} {p : JobIndex K} (h : v.pages[s]? = some p) :
    L (address (.index Q s)) = some (.jobIndex p) := by
  rw [hv.view.pageAt, h, Option.map_some]

theorem Hosts.job (hv : Hosts L Q v) {i : Nat} {j : Job K} (h : v.jobs[i]? = some j) :
    L (address (.job Q i)) = some (.job j) := by
  rw [hv.view.jobAt, h, Option.map_some]

theorem Hosts.account (hv : Hosts L Q v) {k : K} {data : Account K} (hs : Slot Q k)
    (h : L k = some data) :
    (k = Q ∧ data = .queue v.queue) ∨ (k = address (.queueHead Q) ∧ data = .queueHead v.head) ∨
      (∃ s p, k = address (.index Q s) ∧ v.pages[s]? = some p ∧ data = .jobIndex p) ∨
      ∃ i j, k = address (.job Q i) ∧ v.jobs[i]? = some j ∧ data = .job j := by
  rcases hs with rfl | rfl | ⟨s, rfl⟩ | ⟨i, rfl⟩
  · exact .inl ⟨rfl, Option.some.inj (h.symm.trans hv.view.queueAt)⟩
  · exact .inr (.inl ⟨rfl, Option.some.inj (h.symm.trans hv.view.headAt)⟩)
  · rw [hv.view.pageAt, Option.map_eq_some_iff] at h
    obtain ⟨p, hp, rfl⟩ := h
    exact .inr (.inr (.inl ⟨s, p, rfl, hp, rfl⟩))
  · rw [hv.view.jobAt, Option.map_eq_some_iff] at h
    obtain ⟨j, hj, rfl⟩ := h
    exact .inr (.inr (.inr ⟨i, j, rfl, hj, rfl⟩))

theorem shows_congr (hv : Shows L Q v) (hsame : ∀ k, Slot Q k → L' k = L k) : Shows L' Q v where
  queueAt := (hsame _ (.inl rfl)).trans hv.queueAt
  headAt := (hsame _ (.inr (.inl rfl))).trans hv.headAt
  pageAt s := (hsame _ (.inr (.inr (.inl ⟨s, rfl⟩)))).trans (hv.pageAt s)
  jobAt i := (hsame _ (.inr (.inr (.inr ⟨i, rfl⟩)))).trans (hv.jobAt i)

theorem Hosts.frame (hv : Hosts L Q v) (hQ' : QueueKey Q') (hne : Q ≠ Q') (hf : Frame Q' L L') :
    Hosts L' Q v :=
  ⟨shows_congr hv.view fun k hk => hf k fun hk' => hne (hk.unique hv.isKey hQ' hk'), hv.placed⟩

/-! ### Where an account of each type can be -/

theorem WellFormed.queue (hL : WellFormed L) {k : K} {q : Queue K} (h : L k = some (.queue q)) :
    ∃ v, Hosts L k v ∧ v.queue = q := by
  obtain ⟨Q, v, hv, hs⟩ := hL k _ h
  rcases hv.account hs h with ⟨rfl, hq⟩ | ⟨_, hq⟩ | ⟨_, _, _, _, hq⟩ | ⟨_, _, _, _, hq⟩ <;> cases hq
  exact ⟨v, hv, rfl⟩

theorem WellFormed.head (hL : WellFormed L) {k : K} {h : QueueHead K}
    (hk : L k = some (.queueHead h)) : ∃ Q v, Hosts L Q v ∧ k = address (.queueHead Q) ∧ v.head = h := by
  obtain ⟨Q, v, hv, hs⟩ := hL k _ hk
  rcases hv.account hs hk with ⟨_, hq⟩ | ⟨hk', hq⟩ | ⟨_, _, _, _, hq⟩ | ⟨_, _, _, _, hq⟩ <;> cases hq
  exact ⟨Q, v, hv, hk', rfl⟩

theorem WellFormed.page (hL : WellFormed L) {k : K} {p : JobIndex K}
    (h : L k = some (.jobIndex p)) :
    ∃ v s, Hosts L p.queue v ∧ k = address (.index p.queue s) ∧ v.pages[s]? = some p := by
  obtain ⟨Q, v, hv, hs⟩ := hL k _ h
  rcases hv.account hs h with ⟨_, hq⟩ | ⟨_, hq⟩ | ⟨s, _, hk, hp, hq⟩ | ⟨_, _, _, _, hq⟩ <;> cases hq
  have hQ := (hv.placed.page s _ hp).1
  subst hQ
  exact ⟨v, s, hv, hk, hp⟩

theorem WellFormed.job (hL : WellFormed L) {k : K} {j : Job K} (h : L k = some (.job j)) :
    ∃ v i, Hosts L j.queue v ∧ k = address (.job j.queue i) ∧ v.jobs[i]? = some j := by
  obtain ⟨Q, v, hv, hs⟩ := hL k _ h
  rcases hv.account hs h with ⟨_, hq⟩ | ⟨_, hq⟩ | ⟨_, _, _, _, hq⟩ | ⟨i, _, hk, hj, hq⟩ <;> cases hq
  have hQ := (hv.placed.job i _ hj).1
  subst hQ
  exact ⟨v, i, hv, hk, hj⟩

/-- Where there is no queue account, none of its other accounts exist. -/
theorem WellFormed.vacant (hL : WellFormed L) (hQ : QueueKey Q) (hnone : L Q = none) {k : K}
    (hk : Slot Q k) : L k = none := by
  rw [Option.eq_none_iff_forall_not_mem]
  intro data hdata
  obtain ⟨Q', v, hv, hk'⟩ := hL k data hdata
  have he := hk.unique hQ hv.isKey hk'
  subst he
  rw [hv.view.queueAt] at hnone
  cases hnone

end

/-! ### A step of a queue is an accepted instruction -/

section
variable [DecidableEq K]

/-- `L'` differs from `L` at addresses of `Q` only and shows the view `v`. -/
structure Updates (L : Ledger K) (Q : K) (L' : Ledger K) (v : QueueView K) : Prop where
  view : Shows L' Q v
  frame : Frame Q L L'

variable {L L' : Ledger K} {Q : K} {v : QueueView K}

omit [DecidableEq K] in
theorem Updates.refl (hv : Shows L Q v) : Updates L Q L v := ⟨hv, fun _ _ => rfl⟩

theorem Frame.write {k : K} (h : Frame Q L L') (hk : Slot Q k) (data : Account K) :
    Frame Q L (write L' k data) := by
  intro k' hk'
  have hne : k' ≠ k := by
    rintro rfl
    exact hk' hk
  exact (write_of_ne hne L' data).trans (h k' hk')

theorem Updates.writeQueue (h : Updates L Q L' v) (hQ : QueueKey Q) (q : Queue K) :
    Updates L Q (write L' Q (.queue q)) { v with queue := q } :=
  ⟨h.view.writeQueue hQ q, h.frame.write (.inl rfl) _⟩

theorem Updates.writeHead (h : Updates L Q L' v) (hQ : QueueKey Q) (hd : QueueHead K) :
    Updates L Q (write L' (address (.queueHead Q)) (.queueHead hd)) { v with head := hd } :=
  ⟨h.view.writeHead hQ hd, h.frame.write (.inr (.inl rfl)) _⟩

theorem Updates.writePage (h : Updates L Q L' v) (hQ : QueueKey Q) {s : Nat} {p : JobIndex K}
    {ps : List (JobIndex K)} (hps : ∀ t, ps[t]? = if t = s then some p else v.pages[t]?) :
    Updates L Q (write L' (address (.index Q s)) (.jobIndex p)) { v with pages := ps } :=
  ⟨h.view.writePage hQ hps, h.frame.write (.inr (.inr (.inl ⟨s, rfl⟩))) _⟩

theorem Updates.writeJob (h : Updates L Q L' v) (hQ : QueueKey Q) {i : Nat} {j : Job K}
    {js : List (Job K)} (hjs : ∀ t, js[t]? = if t = i then some j else v.jobs[t]?) :
    Updates L Q (write L' (address (.job Q i)) (.job j)) { v with jobs := js } :=
  ⟨h.view.writeJob hQ hjs, h.frame.write (.inr (.inr (.inr ⟨i, rfl⟩))) _⟩

/-- Every step the queue can take is accepted by the program and has on the
ledger the effect it has on the view. -/
theorem exec_of_queueStep {clock : Int64} {ix : Instruction K} {v' : QueueView K}
    {evs : List (Event K)} (hv : Hosts L Q v) (h : QueueStep Q clock ix v v' evs) :
    ∃ L', exec clock L ix = .ok (L', evs) ∧ Updates L Q L' v' := by
  have hQ := hv.isKey
  have hrefl := Updates.refl hv.view
  have hhead := hv.placed.headBump ▸ create_bumpOf (.queueHead Q)
  cases h with
  | @growIndex v tail hpage hfree hlimit hfull =>
    have hnew : L (address (.index Q (v.head.tailIndexSeq + 1))) = none := by
      rw [hv.view.pageAt, List.getElem?_eq_none (by omega), Option.map_none]
    have hseed := (hv.placed.page _ _ hpage).2.2 ▸ create_bumpOf (.index Q v.head.tailIndexSeq)
    have hw := ((hrefl.writeHead hQ { v.head with tailIndexSeq := v.head.tailIndexSeq + 1 }).writePage
      hQ (getElem?_set_of_some { tail with nextSeq := v.head.tailIndexSeq + 1 } hpage)).writePage hQ
      (getElem?_concat (List.length_set.trans hfree)
        ⟨Q, v.head.tailIndexSeq + 1, 0, [], bumpOf (.index Q (v.head.tailIndexSeq + 1))⟩)
    refine ⟨_, ?_, hw⟩
    simp only [exec, execGrowIndex, bind_ok_iff, loadQueue_ok_iff, loadQueueHead_ok_iff,
      loadJobIndex_ok_iff, checkInit_ok_iff, checkSeeds_ok_iff, lift_ok_iff, growIndex_ok_iff]
    exact ⟨_, hv.view.queueAt, _, hv.view.headAt, _, hv.page hpage, (), ⟨trivial, hnew⟩, (), hhead, (),
      hseed, _, ⟨rfl, hlimit, rfl, hfull, rfl⟩, rfl⟩
  | @advanceHead v page hpage hempty hnext =>
    have hseed := (hv.placed.page _ _ hpage).2.2 ▸ create_bumpOf (.index Q v.head.headIndexSeq)
    have hback : page.queue = Q := (hv.placed.page _ _ hpage).1
    refine ⟨_, ?_, hrefl.writeHead hQ { v.head with headIndexSeq := page.nextSeq }⟩
    simp only [exec, execAdvanceHead, bind_ok_iff, loadQueueHead_ok_iff, loadJobIndex_ok_iff,
      checkSeeds_ok_iff, lift_ok_iff, advanceHead_ok_iff]
    refine ⟨_, hv.view.headAt, _, hv.page hpage, (), ?_, (), ?_, _, ⟨hempty, hnext, rfl⟩, rfl⟩
    · rw [hback, hhead]
    · rw [hback, hseed]
  | @enqueueJob v tail payer payload jobType priority executeAfter hpage hpayload htype hpriority
      hopen hroom hjobs hpending htotal =>
    have hnew : L (address (.job Q v.queue.jobCount)) = none := by
      rw [hv.view.jobAt, hv.placed.jobCount, List.getElem?_eq_none le_rfl, Option.map_none]
    have hseed := (hv.placed.page _ _ hpage).2.2 ▸ create_bumpOf (.index Q v.head.tailIndexSeq)
    have hw := (((hrefl.writeQueue hQ { v.queue with
        jobCount := v.queue.jobCount + 1
        pendingCount := v.queue.pendingCount + 1 }).writeJob hQ (getElem?_concat hv.placed.jobCount.symm
      (enqueued clock Q (bumpOf (.job Q v.queue.jobCount)) v.queue payload jobType priority
        executeAfter))).writeHead hQ { v.head with totalJobs := v.head.totalJobs + 1 }).writePage hQ
      (getElem?_set_of_some { tail with jobIds := tail.jobIds ++ [v.queue.jobCount] } hpage)
    refine ⟨_, ?_, hw⟩
    simp only [exec, execEnqueueJob, bind_ok_iff, loadQueue_ok_iff, loadQueueHead_ok_iff,
      loadJobIndex_ok_iff, checkInit_ok_iff, checkSeeds_ok_iff, lift_ok_iff, enqueueJob_ok_iff]
    exact ⟨_, hv.view.queueAt, _, hv.view.headAt, _, hv.page hpage, (), ⟨rfl, hnew⟩, (), hhead, (),
      hseed, _, ⟨hpayload, htype, hpriority, hopen, hroom, hjobs, hpending, htotal, rfl⟩, rfl⟩
  | @claimJob v i s j p p' worker hjob hpage hstatus hready hremove =>
    have hback : p.queue = j.queue :=
      (hv.placed.page _ _ hpage).1.trans (hv.placed.job _ _ hjob).1.symm
    have hw := (hrefl.writeJob hQ (getElem?_set_of_some (locked clock worker j) hjob)).writePage hQ
      (getElem?_set_of_some p' hpage)
    refine ⟨_, ?_, hw⟩
    simp only [exec, execClaimJob, bind_ok_iff, loadJob_ok_iff, loadJobIndex_ok_iff, require_ok_iff,
      lift_ok_iff, claimJob_ok_iff]
    exact ⟨_, hv.job hjob, _, hv.page hpage, (), hback, _, ⟨hstatus, hready, _, hremove, rfl⟩, rfl⟩
  | @completeJob v i j worker result hjob hstatus hworker hresult hcount =>
    have hown : j.queue = Q := (hv.placed.job _ _ hjob).1
    have hw := (hrefl.writeQueue hQ { v.queue with
        pendingCount := v.queue.pendingCount - 1
        processedCount := v.queue.processedCount + 1 }).writeJob hQ
      (getElem?_set_of_some (finished clock result j) hjob)
    refine ⟨_, ?_, hw⟩
    simp only [exec, execCompleteJob, bind_ok_iff, loadQueue_ok_iff, loadJob_ok_iff, require_ok_iff,
      lift_ok_iff, completeJob_ok_iff]
    exact ⟨_, hv.view.queueAt, _, hv.job hjob, (), hown, _,
      ⟨hstatus, hworker, hresult, hcount, rfl⟩, rfl⟩
  | @retryJob v i s j p worker errorMessage retryAfterSecs hjob hpage hretry hmay hroom =>
    have hown : j.queue = Q := (hv.placed.job _ _ hjob).1
    have hback : p.queue = j.queue := (hv.placed.page _ _ hpage).1.trans hown.symm
    have hw := ((hrefl.writeQueue hQ v.queue).writeJob hQ
      (getElem?_set_of_some (retried clock errorMessage retryAfterSecs j) hjob)).writePage hQ
      (getElem?_set_of_some { p with jobIds := p.jobIds ++ [j.jobId] } hpage)
    refine ⟨_, ?_, hw⟩
    simp only [exec, execFailJob, bind_ok_iff, loadQueue_ok_iff, loadJob_ok_iff,
      loadJobIndex_ok_iff, require_ok_iff, lift_ok_iff]
    exact ⟨_, hv.view.queueAt, _, hv.job hjob, _, hv.page hpage, (), hown, (), hback, _,
      (failJob_retry_iff _ _ _ _ _ _ _ _ hretry _).mpr ⟨hmay, hroom, rfl⟩, rfl⟩
  | @deadLetter v i s j p worker errorMessage retryAfterSecs hjob hpage hdead hmay hcount =>
    have hown : j.queue = Q := (hv.placed.job _ _ hjob).1
    have hback : p.queue = j.queue := (hv.placed.page _ _ hpage).1.trans hown.symm
    -- the page named for the retry is written back as it was
    have hsame : ∀ t, v.pages[t]? = if t = s then some p else v.pages[t]? := by
      intro t
      split
      next ht => rw [ht, hpage]
      next => rfl
    have hw := ((hrefl.writeQueue hQ { v.queue with
        pendingCount := v.queue.pendingCount - 1
        failedCount := v.queue.failedCount + 1 }).writeJob hQ
      (getElem?_set_of_some (deadLettered clock errorMessage j) hjob)).writePage hQ hsame
    refine ⟨_, ?_, hw⟩
    simp only [exec, execFailJob, bind_ok_iff, loadQueue_ok_iff, loadJob_ok_iff,
      loadJobIndex_ok_iff, require_ok_iff, lift_ok_iff]
    exact ⟨_, hv.view.queueAt, _, hv.job hjob, _, hv.page hpage, (), hown, (), hback, _,
      (failJob_dead_iff _ _ _ _ _ _ _ _ hdead _).mpr ⟨hmay, hcount, rfl⟩, rfl⟩
  | @cancelJob v i s j p p' hjob hpage hstatus hremove =>
    have hown : j.queue = Q := (hv.placed.job _ _ hjob).1
    have hback : p.queue = j.queue := (hv.placed.page _ _ hpage).1.trans hown.symm
    have hw := ((hrefl.writeQueue hQ
      { v.queue with pendingCount := v.queue.pendingCount - 1 }).writeJob hQ
      (getElem?_set_of_some (cancelled clock j) hjob)).writePage hQ (getElem?_set_of_some p' hpage)
    refine ⟨_, ?_, hw⟩
    simp only [exec, execCancelJob, bind_ok_iff, loadQueue_ok_iff, loadJob_ok_iff,
      loadJobIndex_ok_iff, require_ok_iff, lift_ok_iff, cancelJob_ok_iff]
    exact ⟨_, hv.view.queueAt, _, hv.job hjob, _, hv.page hpage, (), hown, (), hback, _,
      ⟨rfl, hstatus, _, hremove, rfl⟩, rfl⟩
  | setQueuePaused paused =>
    refine ⟨_, ?_, hrefl.writeQueue hQ { v.queue with paused := paused }⟩
    simp only [exec, execSetQueuePaused, bind_ok_iff, loadQueue_ok_iff, lift_ok_iff,
      setQueuePaused_ok_iff]
    exact ⟨_, hv.view.queueAt, _, ⟨rfl, rfl⟩, rfl⟩

/-! ### An accepted instruction is a step of a queue -/

omit [DecidableEq K] in
theorem WellFormed.headOfSeeds (hL : WellFormed L) (hv : Hosts L Q v) {k : K} {hd : QueueHead K}
    {b : Nat} (hk : L k = some (.queueHead hd))
    (hc : AddressDerivation.createProgramAddress (.queueHead Q) b = some k) :
    k = address (.queueHead Q) ∧ v.head = hd := by
  obtain ⟨Q', w, hw, rfl, rfl⟩ := hL.head hk
  have hs := seeds_of_create hc
  cases hs
  exact ⟨rfl, congrArg QueueView.head (hv.unique hw)⟩

omit [DecidableEq K] in
theorem WellFormed.pageOfSeeds (hL : WellFormed L) (hv : Hosts L Q v) {k : K} {p : JobIndex K}
    {s b : Nat} (hk : L k = some (.jobIndex p))
    (hc : AddressDerivation.createProgramAddress (.index Q s) b = some k) :
    k = address (.index Q s) ∧ v.pages[s]? = some p := by
  obtain ⟨w, t, hw, rfl, hp⟩ := hL.page hk
  have hs := seeds_of_create hc
  cases hs
  exact ⟨rfl, hv.unique hw ▸ hp⟩

omit [DecidableEq K] in
theorem WellFormed.jobAndPage (hL : WellFormed L) {k k' : K} {j : Job K} {p : JobIndex K}
    (hj : L k = some (.job j)) (hp : L k' = some (.jobIndex p)) (hq : p.queue = j.queue) :
    ∃ v i s, Hosts L j.queue v ∧ k = address (.job j.queue i) ∧ v.jobs[i]? = some j ∧
      k' = address (.index j.queue s) ∧ v.pages[s]? = some p := by
  obtain ⟨v, i, hv, hk, hji⟩ := hL.job hj
  obtain ⟨w, s, hw, hk', hps⟩ := hL.page hp
  rw [hq] at hw hk'
  exact ⟨v, i, s, hv, hk, hji, hk', hv.unique hw ▸ hps⟩

theorem queueStep_of_exec {clock : Int64} {ix : Instruction K} {evs : List (Event K)}
    (hL : WellFormed L) (h : exec clock L ix = .ok (L', evs)) :
    (∃ ctx queueName maxRetries, ix = .initializeQueue ctx queueName maxRetries) ∨
      ∃ Q v v', Hosts L Q v ∧ QueueStep Q clock ix v v' evs := by
  cases ix with
  | initializeQueue ctx queueName maxRetries => exact .inl ⟨ctx, queueName, maxRetries, rfl⟩
  | growIndex ctx newSeq =>
    obtain ⟨queue, queueHead, currentTailPage, newTailPage, authority⟩ := ctx
    simp only [exec, execGrowIndex, bind_ok_iff, loadQueue_ok_iff, loadQueueHead_ok_iff,
      loadJobIndex_ok_iff, checkInit_ok_iff, checkSeeds_ok_iff, lift_ok_iff, growIndex_ok_iff,
      pure_ok_iff] at h
    obtain ⟨q, hq, hd, hhd, tail, htail, _, ⟨rfl, hnew⟩, _, hsh, _, hsp, _,
      ⟨rfl, hlimit, rfl, hfull, rfl⟩, hout⟩ := h
    cases hout
    obtain ⟨v, hv, rfl⟩ := hL.queue hq
    obtain ⟨rfl, rfl⟩ := hL.headOfSeeds hv hhd hsh
    obtain ⟨rfl, hpage⟩ := hL.pageOfSeeds hv htail hsp
    have hfree : v.pages.length = v.head.tailIndexSeq + 1 := by
      rw [hv.view.pageAt, Option.map_eq_none_iff, List.getElem?_eq_none_iff] at hnew
      have hlt := (List.getElem?_eq_some_iff.mp hpage).1
      omega
    exact .inr ⟨_, v, _, hv, .growIndex hpage hfree hlimit hfull⟩
  | advanceHead ctx =>
    obtain ⟨queueHead, headPage⟩ := ctx
    simp only [exec, execAdvanceHead, bind_ok_iff, loadQueueHead_ok_iff, loadJobIndex_ok_iff,
      checkSeeds_ok_iff, lift_ok_iff, advanceHead_ok_iff, pure_ok_iff] at h
    obtain ⟨hd, hhd, page, hpg, _, hsh, _, hsp, _, ⟨hempty, hnext, rfl⟩, hout⟩ := h
    cases hout
    obtain ⟨v, s, hv, _, _⟩ := hL.page hpg
    obtain ⟨rfl, rfl⟩ := hL.headOfSeeds hv hhd hsh
    obtain ⟨rfl, hpage⟩ := hL.pageOfSeeds hv hpg hsp
    exact .inr ⟨_, v, _, hv, .advanceHead hpage hempty hnext⟩
  | enqueueJob ctx payload jobType priority executeAfter =>
    obtain ⟨queue, job, queueHead, tailIndexPage, payer⟩ := ctx
    simp only [exec, execEnqueueJob, bind_ok_iff, loadQueue_ok_iff, loadQueueHead_ok_iff,
      loadJobIndex_ok_iff, checkInit_ok_iff, checkSeeds_ok_iff, lift_ok_iff, enqueueJob_ok_iff,
      pure_ok_iff] at h
    obtain ⟨q, hq, hd, hhd, tail, htail, _, ⟨rfl, _⟩, _, hsh, _, hsp, _,
      ⟨hpayload, htype, hpriority, hopen, hroom, hjobs, hpending, htotal, rfl⟩, hout⟩ := h
    cases hout
    obtain ⟨v, hv, rfl⟩ := hL.queue hq
    obtain ⟨rfl, rfl⟩ := hL.headOfSeeds hv hhd hsh
    obtain ⟨rfl, hpage⟩ := hL.pageOfSeeds hv htail hsp
    exact .inr ⟨_, v, _, hv, .enqueueJob payer payload jobType priority executeAfter hpage hpayload
      htype hpriority hopen hroom hjobs hpending htotal⟩
  | claimJob ctx =>
    obtain ⟨job, worker, sourceIndexPage⟩ := ctx
    simp only [exec, execClaimJob, bind_ok_iff, loadJob_ok_iff, loadJobIndex_ok_iff, require_ok_iff,
      lift_ok_iff, claimJob_ok_iff, pure_ok_iff] at h
    obtain ⟨j, hj, p, hp, _, hq, _, ⟨hstatus, hready, p', hremove, rfl⟩, hout⟩ := h
    cases hout
    obtain ⟨v, i, s, hv, rfl, hjob, rfl, hpage⟩ := hL.jobAndPage hj hp hq
    exact .inr ⟨_, v, _, hv, .claimJob worker hjob hpage hstatus hready hremove⟩
  | completeJob ctx result =>
    obtain ⟨queue, job, worker⟩ := ctx
    simp only [exec, execCompleteJob, bind_ok_iff, loadQueue_ok_iff, loadJob_ok_iff, require_ok_iff,
      lift_ok_iff, completeJob_ok_iff, pure_ok_iff] at h
    obtain ⟨q, hq, j, hj, _, rfl, _, ⟨hstatus, hworker, hresult, hcount, rfl⟩, hout⟩ := h
    cases hout
    obtain ⟨v, i, hv, rfl, hjob⟩ := hL.job hj
    have hqueue := Option.some.inj (hv.view.queueAt.symm.trans hq)
    cases hqueue
    exact .inr ⟨_, v, _, hv, .completeJob worker result hjob hstatus hworker hresult hcount⟩
  | failJob ctx errorMessage retryAfterSecs =>
    obtain ⟨queue, job, worker, retryIndexPage⟩ := ctx
    simp only [exec, execFailJob, bind_ok_iff, loadQueue_ok_iff, loadJob_ok_iff,
      loadJobIndex_ok_iff, require_ok_iff, lift_ok_iff, pure_ok_iff] at h
    obtain ⟨q, hq, j, hj, p, hp, _, rfl, _, hback, r, hok, hout⟩ := h
    obtain ⟨v, i, s, hv, rfl, hjob, rfl, hpage⟩ := hL.jobAndPage hj hp hback
    have hqueue := Option.some.inj (hv.view.queueAt.symm.trans hq)
    cases hqueue
    by_cases hretry : j.attempts < j.maxRetries
    · obtain ⟨hmay, hroom, rfl⟩ := (failJob_retry_iff _ _ _ _ _ _ _ _ hretry _).mp hok
      cases hout
      exact .inr ⟨_, v, _, hv, .retryJob worker errorMessage retryAfterSecs hjob hpage hretry hmay hroom⟩
    · obtain ⟨hmay, hcount, rfl⟩ := (failJob_dead_iff _ _ _ _ _ _ _ _ hretry _).mp hok
      cases hout
      exact .inr ⟨_, v, _, hv, .deadLetter worker errorMessage retryAfterSecs hjob hpage hretry hmay hcount⟩
  | cancelJob ctx =>
    obtain ⟨queue, job, authority, sourceIndexPage⟩ := ctx
    simp only [exec, execCancelJob, bind_ok_iff, loadQueue_ok_iff, loadJob_ok_iff,
      loadJobIndex_ok_iff, require_ok_iff, lift_ok_iff, cancelJob_ok_iff, pure_ok_iff] at h
    obtain ⟨q, hq, j, hj, p, hp, _, rfl, _, hback, _, ⟨rfl, hstatus, p', hremove, rfl⟩, hout⟩ := h
    cases hout
    obtain ⟨v, i, s, hv, rfl, hjob, rfl, hpage⟩ := hL.jobAndPage hj hp hback
    have hqueue := Option.some.inj (hv.view.queueAt.symm.trans hq)
    cases hqueue
    exact .inr ⟨_, v, _, hv, .cancelJob hjob hpage hstatus hremove⟩
  | setQueuePaused ctx paused =>
    obtain ⟨queue, authority⟩ := ctx
    simp only [exec, execSetQueuePaused, bind_ok_iff, loadQueue_ok_iff, lift_ok_iff,
      setQueuePaused_ok_iff, pure_ok_iff] at h
    obtain ⟨q, hq, _, ⟨rfl, rfl⟩, hout⟩ := h
    cases hout
    obtain ⟨v, hv, rfl⟩ := hL.queue hq
    exact .inr ⟨_, v, _, hv, .setQueuePaused paused⟩

theorem hosts_of_exec {clock : Int64} {ix : Instruction K} {evs : List (Event K)}
    (hL : WellFormed L) (hix : ∀ ctx queueName maxRetries, ix ≠ .initializeQueue ctx queueName maxRetries)
    (h : exec clock L ix = .ok (L', evs)) :
    ∃ Q v v', Hosts L Q v ∧ QueueStep Q clock ix v v' evs := by
  obtain ⟨ctx, queueName, maxRetries, he⟩ | hstep := queueStep_of_exec hL h
  · exact absurd he (hix ctx queueName maxRetries)
  · exact hstep

end

end DecQueue.Refinement
