import DecQueue.DecqueueCore
import DecQueue.JobLife
import Mathlib.Data.List.Nodup

/-! # Racing producers

Any number of calls of `enqueueJobWithProgram` run next to each other and to
everybody else. A call reads `job_count`, derives the address of the job from
it and sends a transaction later; by then other jobs may have been added. The
address is checked against the live counter, so the transaction of a call that
has been overtaken is rejected. -/

namespace DecQueue.Producers
open Kit.Fallible Kit.Lists State Outcomes Address Program View Refinement Reachability JobLife
  DecqueueCore

variable {C K : Type}

/-! ### Calls and ledger -/

inductive Phase (K : Type) where
  | idle
  | submitting (args : EnqueueArgs K) (request : Submission K)
  | returned (args : EnqueueArgs K) (result : EnqueueJobResult K)
  | failed (args : EnqueueArgs K) (e : ClientError)

/-- An accepted `enqueue_job`: the id is the one told to the caller, if the
caller is one of the producers, and `job_count` otherwise. -/
structure Enqueued (C K : Type) where
  queue : K
  jobId : Nat
  call : Option C

structure World (C K : Type) where
  ledger : Ledger K
  calls : C → Phase K
  enqueued : List (Enqueued C K)

inductive WorldEvent (C K : Type) where
  /-- the call runs until its transaction is sent -/
  | fetch (c : C) (now : Nat) (args : EnqueueArgs K)
  /-- the transaction is executed, with the accounts that the Anchor client has filled in -/
  | submit (c : C) (clock : Int64) (queueHead tailIndexPage : K) (signature : String)
  | other (tx : Tx K)

def jobCountAt (L : Ledger K) (k : K) : Nat :=
  match L k with
  | some (.queue queue) => queue.jobCount
  | _ => 0

def enqueuedBy (L : Ledger K) : Instruction K → List (Enqueued C K)
  | .enqueueJob ctx _ _ _ _ => [⟨ctx.queue, jobCountAt L ctx.queue, none⟩]
  | .initializeQueue _ _ _ | .growIndex _ _ | .advanceHead _ | .claimJob _ | .completeJob _ _
  | .failJob _ _ _ | .cancelJob _ | .setQueuePaused _ _ => []

section
variable [DecidableEq C] [DecidableEq K] [AddressDerivation K]

def step (w : World C K) : WorldEvent C K → Option (World C K)
  | .fetch c now args =>
      match w.calls c with
      | .idle =>
          match prepare w.ledger now args with
          | .ok request => some { w with calls := Function.update w.calls c (.submitting args request) }
          | .error e => some { w with calls := Function.update w.calls c (.failed args e) }
      | _ => none
  | .submit c clock queueHead tailIndexPage signature =>
      match w.calls c with
      | .submitting args request =>
          match exec clock w.ledger (request.instruction queueHead tailIndexPage) with
          | .ok (L, _) =>
              some { ledger := L
                     calls := Function.update w.calls c (.returned args (request.result signature))
                     enqueued := w.enqueued ++ [⟨request.queuePda, request.jobId, some c⟩] }
          | .error e => some { w with calls := Function.update w.calls c (.failed args (.rpcFailed e)) }
      | _ => none
  | .other tx =>
      (Program.step w.ledger tx).map fun L =>
        { w with ledger := L, enqueued := w.enqueued ++ enqueuedBy w.ledger tx.ix }

end

def start : World C K := ⟨genesis, fun _ => .idle, []⟩

/-! ### The ids of accepted jobs -/

section
variable [DecidableEq K]

def idsOf (Q : K) (l : List (Enqueued C K)) : List Nat :=
  (l.filter fun e => e.queue = Q).map Enqueued.jobId

theorem idsOf_append (Q : K) (l m : List (Enqueued C K)) : idsOf Q (l ++ m) = idsOf Q l ++ idsOf Q m := by
  simp only [idsOf, List.filter_append, List.map_append]

variable [AddressDerivation K] {L L' : Ledger K} {Q : K} {clock : Int64} {ix : Instruction K}
  {v v' : QueueView K} {evs : List (Event K)}

theorem ids_step (hv : Hosts L Q v) (hstep : QueueStep Q clock ix v v' evs) :
    List.range v.queue.jobCount ++ idsOf Q (enqueuedBy (C := C) L ix) =
      List.range v'.queue.jobCount := by
  cases hstep with
  | enqueueJob =>
    have hcount : jobCountAt L Q = v.queue.jobCount := by simp only [jobCountAt, hv.view.queueAt]
    simp [idsOf, enqueuedBy, hcount, List.range_succ]
  | growIndex | advanceHead | claimJob | completeJob | retryJob | deadLetter | cancelJob
  | setQueuePaused => exact List.append_nil _

theorem ids_noStep (h : NoStep clock L Q ix evs) : idsOf Q (enqueuedBy (C := C) L ix) = [] := by
  cases h with
  | create => rfl
  | other hne _ hstep =>
    cases hstep with
    | enqueueJob => simp [idsOf, enqueuedBy, hne.symm]
    | growIndex | advanceHead | claimJob | completeJob | retryJob | deadLetter | cancelJob
    | setQueuePaused => rfl

/-- The ids of each queue are counted up without a gap. -/
structure Numbered (L : Ledger K) (l : List (Enqueued C K)) : Prop where
  hosted : ∀ Q v, Hosts L Q v → idsOf Q l = List.range v.queue.jobCount
  absent : ∀ Q, (∀ v, ¬Hosts L Q v) → idsOf Q l = []

theorem Numbered.extend {l new : List (Enqueued C K)} (hl : Numbered L l)
    (h : Effect clock L L' ix evs) (hnew : ∀ Q, idsOf Q new = idsOf Q (enqueuedBy (C := C) L ix)) :
    Numbered L' (l ++ new) := by
  constructor
  · intro Q v hv
    rw [idsOf_append, hnew Q]
    cases h.effectAt Q with
    | created _ _ _ _ hfree hv' hno =>
      cases hv.unique hv'
      rw [hl.absent Q hfree, ids_noStep hno]
      rfl
    | stepped hw hw' hstep =>
      cases hv.unique hw'
      rw [hl.hosted Q _ hw]
      exact ids_step hw hstep
    | untouched hsame hno =>
      rw [ids_noStep hno, List.append_nil]
      exact hl.hosted Q v ((hsame v).mp hv)
  · intro Q hQ
    rw [idsOf_append, hnew Q]
    cases h.effectAt Q with
    | created _ _ _ _ _ hv' => exact absurd hv' (hQ _)
    | stepped _ hw' => exact absurd hw' (hQ _)
    | untouched hsame hno =>
      rw [ids_noStep hno, List.append_nil]
      exact hl.absent Q fun v hv => hQ v ((hsame v).mpr hv)

/-! ### An accepted submission -/

/-- The Job account is new and holds what the producer asked for, under the id
that the producer is told: the text `JSON.stringify` gave for the payload, in
UTF-8, the trimmed job type, and the priority, 1 where none was given. -/
structure Created (args : EnqueueArgs K) (result : EnqueueJobResult K) (L L' : Ledger K) : Prop where
  vacant : L result.jobPda = none
  job : ∃ job encoded, L' result.jobPda = some (.job job) ∧ job.queue = args.queuePda ∧
    job.jobId = result.jobId ∧ args.payload = .ok (some encoded) ∧
    job.payload = (toUnicode encoded).toUTF8.data.toList ∧
    job.jobType = toUnicode (trim args.jobType) ∧
    args.priority.getD (.finite 1) = .finite job.priority
  kept : ∀ k job, L k = some (.job job) → L' k = some (.job job)

omit [DecidableEq K] in
theorem enqueue_inv {ctx : EnqueueJob K} {payload : Bytes} {jobType : String} {priority : Nat}
    {executeAfter : Int64}
    (h : QueueStep Q clock (.enqueueJob ctx payload jobType priority executeAfter) v v' evs) :
    ctx.queue = Q ∧ ctx.job = address (.job Q v.queue.jobCount) := by
  cases h
  exact ⟨rfl, rfl⟩

/-- The address of the job is derived from the id that was read, and checked
against the live counter: they are equal. -/
theorem submission_accepted {args : EnqueueArgs K} {request : Submission K}
    (hargs : Carries args request) (hL : WellFormed L) {queueHead tailIndexPage : K}
    (h : exec clock L (request.instruction queueHead tailIndexPage) = .ok (L', evs)) :
    request.jobId = jobCountAt L request.queuePda ∧ ∀ signature,
      Created args (request.result signature) L L' := by
  have hstep : Program.step L ⟨clock, request.instruction queueHead tailIndexPage⟩ = some L' :=
    (step_eq_some L L' _).mpr ⟨evs, h⟩
  obtain ⟨hvacant, queue, bump, hqueue, hjob⟩ := enqueue_creates hL hstep
  obtain ⟨Q, v, v', hv, hq⟩ := hosts_of_exec hL (by simp [Submission.instruction]) h
  obtain ⟨hQ, hkey⟩ := enqueue_inv hq
  change request.queuePda = Q at hQ
  change request.jobPda = _ at hkey
  rw [hargs.job, ← hargs.queue, hQ] at hkey
  have hid : request.jobId = v.queue.jobCount := (Seeds.job.inj (address_injective hkey)).2
  cases Account.queue.inj (Option.some.inj ((hQ ▸ hqueue).symm.trans hv.view.queueAt))
  obtain ⟨encoded, hencoded, hbytes⟩ := serializeJobPayload_ok_iff.mp hargs.payload
  refine ⟨?_, fun signature => ⟨hvacant, ⟨_, encoded, hjob, hargs.queue, hid.symm, hencoded, hbytes,
    hargs.jobType, (checkPriority_ok_iff.mp hargs.priority).1⟩, fun k job hk => ?_⟩⟩
  · simp only [jobCountAt, hQ, hv.view.queueAt, hid]
  · obtain ⟨_, j', _, hj', hs⟩ := job_step hL hk hstep
    rw [hj', jobStep_other hs (by simp [Submission.instruction, worksOn])]

end

/-! ### The invariant of a world -/

structure Inv [AddressDerivation K] [DecidableEq K] (w : World C K) : Prop where
  reachable : Reachable w.ledger
  numbered : Numbered w.ledger w.enqueued
  carries : ∀ c args request, w.calls c = .submitting args request → Carries args request
  returned : ∀ c args result, w.calls c = .returned args result →
    ⟨args.queuePda, result.jobId, some c⟩ ∈ w.enqueued
  called : ∀ e ∈ w.enqueued, ∀ c, e.call = some c → ∃ args result,
    w.calls c = .returned args result ∧ args.queuePda = e.queue ∧ result.jobId = e.jobId

section
variable [DecidableEq C] [DecidableEq K] [AddressDerivation K] {w w' : World C K}

omit [DecidableEq K] [AddressDerivation K] in
theorem update_inv {calls : C → Phase K} {c d : C} {phase p : Phase K}
    (h : Function.update calls c phase d = p) : (d = c ∧ phase = p) ∨ (d ≠ c ∧ calls d = p) := by
  by_cases he : d = c
  · subst he
    rw [Function.update_self] at h
    exact .inl ⟨rfl, h⟩
  · rw [Function.update_of_ne he] at h
    exact .inr ⟨he, h⟩

/-- A call that is not in `w.enqueued` changes its phase to one that needs no
entry there. -/
theorem Inv.setCall (h : Inv w) {c : C} (hc : ∀ args result, w.calls c ≠ .returned args result)
    (phase : Phase K) (hcarries : ∀ args request, phase = .submitting args request → Carries args request)
    (hphase : ∀ args result, phase ≠ .returned args result) :
    Inv { w with calls := Function.update w.calls c phase } := by
  refine ⟨h.reachable, h.numbered, ?_, ?_, ?_⟩
  · intro d args request hd
    rcases update_inv hd with ⟨_, he⟩ | ⟨_, hd⟩
    · exact hcarries args request he
    · exact h.carries d args request hd
  · intro d args result hd
    rcases update_inv hd with ⟨_, he⟩ | ⟨_, hd⟩
    · exact absurd he (hphase args result)
    · exact h.returned d args result hd
  · intro e he d hed
    obtain ⟨args, result, hd, hr⟩ := h.called e he d hed
    have hne : d ≠ c := by
      rintro rfl
      exact hc args result hd
    exact ⟨args, result, (Function.update_of_ne hne ..).trans hd, hr⟩

omit [DecidableEq C] in
theorem inv_start : Inv (start : World C K) := by
  refine ⟨Kit.Transition.Reachable.refl genesis, ⟨fun Q v hv => ?_, fun Q _ => rfl⟩, ?_, ?_, ?_⟩
  · cases hv.view.queueAt
  · intro c args request h
    cases h
  · intro c args result h
    cases h
  · intro e he
    cases he

theorem Inv.submit (h : Inv w) {c : C} {args : EnqueueArgs K} {request : Submission K}
    (hc : w.calls c = .submitting args request) {clock : Int64} {queueHead tailIndexPage : K}
    {L : Ledger K} {evs : List (Event K)}
    (hexec : exec clock w.ledger (request.instruction queueHead tailIndexPage) = .ok (L, evs))
    (signature : String) :
    Inv { ledger := L
          calls := Function.update w.calls c (.returned args (request.result signature))
          enqueued := w.enqueued ++ [⟨request.queuePda, request.jobId, some c⟩] } := by
  have hwf := reachable_wellFormed h.reachable
  have hcarries := h.carries c args request hc
  obtain ⟨hid, _⟩ := submission_accepted hcarries hwf hexec
  refine ⟨?_, ?_, ?_, ?_, ?_⟩
  · exact h.reachable.next ((step_eq_some w.ledger L ⟨clock, _⟩).mpr ⟨evs, hexec⟩)
  · refine h.numbered.extend (effect_of_exec hwf hexec) fun Q => ?_
    simp only [idsOf, enqueuedBy, Submission.instruction, hid, List.filter_cons, List.filter_nil]
    split <;> rfl
  · intro d args' request' hd
    rcases update_inv hd with ⟨_, he⟩ | ⟨_, hd⟩
    · cases he
    · exact h.carries d args' request' hd
  · intro d args' result hd
    rcases update_inv hd with ⟨rfl, he⟩ | ⟨_, hd⟩
    · cases he
      rw [← hcarries.queue]
      exact List.mem_append_right _ (List.mem_singleton_self _)
    · exact List.mem_append_left _ (h.returned d args' result hd)
  · intro e he d hed
    rcases List.mem_append.mp he with he | he
    · obtain ⟨args', result, hd, hr⟩ := h.called e he d hed
      have hne : d ≠ c := by
        rintro rfl
        cases hc.symm.trans hd
      exact ⟨args', result, (Function.update_of_ne hne ..).trans hd, hr⟩
    · cases List.mem_singleton.mp he
      cases hed
      exact ⟨args, request.result signature, Function.update_self .., hcarries.queue.symm, rfl⟩

omit [DecidableEq C] in
theorem Inv.other (h : Inv w) {tx : Tx K} {L : Ledger K} (hstep : Program.step w.ledger tx = some L) :
    Inv { w with ledger := L, enqueued := w.enqueued ++ enqueuedBy w.ledger tx.ix } := by
  have hwf := reachable_wellFormed h.reachable
  obtain ⟨evs, heff⟩ := effect_of_step hwf hstep
  refine ⟨h.reachable.next hstep, h.numbered.extend heff fun _ => rfl, h.carries, ?_, ?_⟩
  · exact fun c args result hc => List.mem_append_left _ (h.returned c args result hc)
  · intro e he c hec
    rcases List.mem_append.mp he with he | he
    · exact h.called e he c hec
    · cases hix : tx.ix with
      | enqueueJob =>
        rw [hix] at he
        cases List.mem_singleton.mp he
        cases hec
      | initializeQueue | growIndex | advanceHead | claimJob | completeJob | failJob | cancelJob
      | setQueuePaused =>
        rw [hix] at he
        cases he

/-- A submission is rejected, or it moves the ledger. -/
theorem submit_inv {c : C} {clock : Int64} {queueHead tailIndexPage : K} {signature : String}
    (h : Producers.step w (.submit c clock queueHead tailIndexPage signature) = some w') :
    ∃ args request, w.calls c = .submitting args request ∧
      ((∃ e, w' = { w with calls := Function.update w.calls c (.failed args e) }) ∨
        ∃ L evs, exec clock w.ledger (request.instruction queueHead tailIndexPage) = .ok (L, evs) ∧
          w' = { ledger := L
                 calls := Function.update w.calls c (.returned args (request.result signature))
                 enqueued := w.enqueued ++ [⟨request.queuePda, request.jobId, some c⟩] }) := by
  simp only [Producers.step] at h
  split at h
  next args request hc =>
    refine ⟨args, request, hc, ?_⟩
    split at h
    next L evs hexec => exact .inr ⟨L, evs, hexec, (Option.some.inj h).symm⟩
    next e he => exact .inl ⟨_, (Option.some.inj h).symm⟩
  next => cases h

theorem Inv.step {event : WorldEvent C K} (h : Inv w) (hstep : Producers.step w event = some w') :
    Inv w' := by
  cases event with
  | fetch c now args =>
    simp only [Producers.step] at hstep
    split at hstep
    next hidle =>
      have hc : ∀ args result, w.calls c ≠ .returned args result := by simp [hidle]
      split at hstep
      next request hrequest =>
        cases hstep
        refine h.setCall hc _ (fun args' request' he => ?_) (by simp)
        cases he
        exact carries_of_prepare hrequest
      next e he =>
        cases hstep
        exact h.setCall hc _ (by simp) (by simp)
    next => cases hstep
  | submit c clock queueHead tailIndexPage signature =>
    obtain ⟨args, request, hc, ⟨e, rfl⟩ | ⟨L, evs, hexec, rfl⟩⟩ := submit_inv hstep
    · exact h.setCall (by simp [hc]) _ (by simp) (by simp)
    · exact h.submit hc hexec signature
  | other tx =>
    obtain ⟨L, hL, rfl⟩ := Option.map_eq_some_iff.mp hstep
    exact h.other hL

theorem inv_run {events : List (WorldEvent C K)}
    (hrun : Kit.Transition.run Producers.step start events = some w) : Inv w :=
  Kit.Transition.run_invariant (P := Inv) (fun _ _ _ h hs => h.step hs) inv_start hrun

/-! ### The race -/

/-- The submission of call `c` leads from `w` to `w'`: it is rejected and the
ledger stays, or it creates the job of this producer. -/
def Outcome (c : C) (w w' : World C K) : Prop :=
  ∃ args request, w.calls c = .submitting args request ∧
    ((w'.ledger = w.ledger ∧ w'.enqueued = w.enqueued ∧ ∃ e, w'.calls c = .failed args e) ∨
      ∃ result, w'.calls c = .returned args result ∧ Created args result w.ledger w'.ledger)

theorem Inv.outcome (h : Inv w) {c : C} {clock : Int64} {queueHead tailIndexPage : K}
    {signature : String}
    (hstep : Producers.step w (.submit c clock queueHead tailIndexPage signature) = some w') :
    Outcome c w w' := by
  obtain ⟨args, request, hc, ⟨e, rfl⟩ | ⟨L, evs, hexec, rfl⟩⟩ := submit_inv hstep
  · exact ⟨args, request, hc, .inl ⟨rfl, rfl, e, Function.update_self c _ w.calls⟩⟩
  · have hcreated := (submission_accepted (h.carries c args request hc)
      (reachable_wellFormed h.reachable) hexec).2 signature
    exact ⟨args, request, hc, .inr ⟨_, Function.update_self c _ w.calls, hcreated⟩⟩

omit [DecidableEq C] in
theorem Inv.ids (h : Inv w) {Q : K} {queue : Queue K} (hQ : w.ledger Q = some (.queue queue)) :
    idsOf Q w.enqueued = List.range queue.jobCount := by
  obtain ⟨v, hv, rfl⟩ := (reachable_wellFormed h.reachable).queue hQ
  exact h.numbered.hosted Q v hv

omit [DecidableEq C] in
theorem Inv.unique (h : Inv w) {c d : C} {args args' : EnqueueArgs K} {r r' : EnqueueJobResult K}
    (hc : w.calls c = .returned args r) (hd : w.calls d = .returned args' r')
    (hQ : args.queuePda = args'.queuePda) (hid : r.jobId = r'.jobId) : c = d := by
  have hnodup : (idsOf args.queuePda w.enqueued).Nodup := by
    by_cases hv : ∃ v, Hosts w.ledger args.queuePda v
    · obtain ⟨v, hv⟩ := hv
      rw [h.numbered.hosted _ v hv]
      exact List.nodup_range
    · rw [h.numbered.absent _ (not_exists.mp hv)]
      exact List.nodup_nil
  have hmem : ∀ {e : Enqueued C K}, e ∈ w.enqueued → e.queue = args.queuePda →
      e ∈ w.enqueued.filter fun e => e.queue = args.queuePda :=
    fun he hq => List.mem_filter.mpr ⟨he, decide_eq_true hq⟩
  have he := List.inj_on_of_nodup_map hnodup (hmem (h.returned c args r hc) rfl)
    (hmem (h.returned d args' r' hd) hQ.symm) hid
  exact Option.some.inj (congrArg Enqueued.call he)

end

/-- In the run `events` that ends in `w`. -/
structure Racing [DecidableEq C] [DecidableEq K] [AddressDerivation K] (events : List (WorldEvent C K))
    (w : World C K) : Prop where
  outcome : ∀ pre c clock queueHead tailIndexPage signature w₁ w₂,
    pre ++ [WorldEvent.submit c clock queueHead tailIndexPage signature] <+: events →
      Kit.Transition.run step start pre = some w₁ →
      step w₁ (.submit c clock queueHead tailIndexPage signature) = some w₂ → Outcome c w₁ w₂
  unique : ∀ c d args args' r r', w.calls c = .returned args r → w.calls d = .returned args' r' →
    args.queuePda = args'.queuePda → r.jobId = r'.jobId → c = d
  recorded : ∀ c args r, w.calls c = .returned args r →
    ⟨args.queuePda, r.jobId, some c⟩ ∈ w.enqueued
  ids : ∀ Q queue, w.ledger Q = some (.queue queue) →
    idsOf Q w.enqueued = List.range queue.jobCount

theorem racing_producers [DecidableEq C] [DecidableEq K] [AddressDerivation K]
    {events : List (WorldEvent C K)} {w : World C K}
    (hrun : Kit.Transition.run step start events = some w) : Racing events w := by
  have h := inv_run hrun
  refine ⟨?_, ?_, h.returned, fun Q queue hQ => h.ids hQ⟩
  · intro pre c clock queueHead tailIndexPage signature w₁ w₂ _ hpre hstep
    exact (inv_run hpre).outcome hstep
  · intro c d args args' r r' hc hd hQ hid
    exact h.unique hc hd hQ hid

/-! ### Two producers that read the same counter -/

def demoFirst : EnqueueArgs Key := ⟨.wallet 5, demoQueue, [0x65], .ok (some [0x7B, 0x7D]), none, none⟩

def demoSecond : EnqueueArgs Key :=
  ⟨.wallet 6, demoQueue, [0x66], .ok (some [0x5B, 0x31, 0x5D]), some (.finite 2), none⟩

/-- The second is the faster one. -/
def demoRace : List (WorldEvent Nat Key) :=
  [.other ⟨0, initializeAt (.wallet 0) "jobs" 3⟩, .fetch 0 5000 demoFirst, .fetch 1 5000 demoSecond,
    .submit 1 6 (address (.queueHead demoQueue)) (address (.index demoQueue 0)) "a",
    .submit 0 6 (address (.queueHead demoQueue)) (address (.index demoQueue 0)) "b"]

theorem demoRace_accepted : (Kit.Transition.run step start demoRace).isSome = true := by decide

/-- Job 0 is that of the second producer; the first one is refused. -/
theorem racing_producers_demo : ∃ w, Kit.Transition.run step start demoRace = some w ∧
    Racing demoRace w ∧
    w.calls 1 = .returned demoSecond ⟨address (.job demoQueue 0), 0, "a", 3⟩ ∧
    (∃ e, w.calls 0 = .failed demoFirst e) ∧
    w.ledger (address (.job demoQueue 0)) = some (.job
      ⟨demoQueue, 0, "f", [0x5B, 0x31, 0x5D], .pending, 2, 6, 6, 0, 3, none, none, none, none, none, 255⟩) := by
  obtain ⟨w, hw⟩ := Option.isSome_iff_exists.mp demoRace_accepted
  refine ⟨w, hw, racing_producers hw, ?_⟩
  cases hw
  exact ⟨rfl, ⟨_, rfl⟩, by decide⟩

end DecQueue.Producers
