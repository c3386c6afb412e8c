import Mathlib.Data.List.Perm.Subperm
import Mathlib.Logic.Function.Basic
import DecQueue.Cancellation
import DecQueue.LateReports
import DecQueue.RetryBudget

/-! # Several workers on one ledger (client/worker.ts)

Any number of worker processes, each with its own key, its own loop, its own
attempts to send and its own late transactions, over the ledger and the block
height they share. An event belongs to one of them; transactions of everybody
else and new blocks can be seen through any. -/

namespace DecQueue.Workers
open Kit.Transition State Address Program View Refinement Reachability Invariants JobLife Lock
  RetryBudget Client LateReports

variable {C K : Type}

/-- The processes and their settings. Two of them with one key are not a crew:
with the same blockhash and fee they sign the same claim byte for byte, so that
it lands once and is confirmed to both. -/
structure Crew (C K : Type) where
  worker : C → Worker K
  ownKey : ∀ c d, (worker c).key = (worker d).key → c = d

instance : CoeFun (Crew C K) (fun _ => C → Worker K) := ⟨Crew.worker⟩

/-- What a worker process keeps to itself. -/
structure Local (K : Type) where
  phase : Phase K
  late : List (Late K)
  skipped : List K
  reported : List (Report K)

structure Fleet (C K : Type) where
  ledger : Ledger K
  blockHeight : Nat
  locals : C → Local K

def Fleet.world (s : Fleet C K) (c : C) : World K where
  ledger := s.ledger
  blockHeight := s.blockHeight
  phase := (s.locals c).phase
  late := (s.locals c).late
  skipped := (s.locals c).skipped
  reported := (s.locals c).reported

def start (L : Ledger K) : Fleet C K := ⟨L, 0, fun _ => ⟨.fetching [], [], [], []⟩⟩

section
variable [DecidableEq C]

def Fleet.put (s : Fleet C K) (c : C) (w : World K) : Fleet C K where
  ledger := w.ledger
  blockHeight := w.blockHeight
  locals := Function.update s.locals c ⟨w.phase, w.late, w.skipped, w.reported⟩

theorem put_same (s : Fleet C K) (c : C) (w : World K) :
    (s.put c w).locals c = ⟨w.phase, w.late, w.skipped, w.reported⟩ := Function.update_self ..

theorem put_other (s : Fleet C K) {c d : C} (w : World K) (h : d ≠ c) :
    (s.put c w).locals d = s.locals d := Function.update_of_ne h ..

variable [DecidableEq K] [AddressDerivation K] {W : Crew C K} {s s' : Fleet C K}
  {e : C × WorldEvent K}

def step (W : Crew C K) (s : Fleet C K) (e : C × WorldEvent K) : Option (Fleet C K) :=
  ((W e.1).step (s.world e.1) e.2).map (s.put e.1)

theorem step_inv (h : step W s e = some s') :
    ∃ w, WorldStep (W e.1) (s.world e.1) e.2 w ∧ s' = s.put e.1 w := by
  obtain ⟨w, hw, he⟩ := Option.map_eq_some_iff.mp h
  exact ⟨w, worldStep_of_step hw, he.symm⟩

end

/-! ### Executions -/

/-- The attempt a claim of the worker has been granted, while `send` has not returned. -/
def granted : Phase K → Option (K × Nat)
  | .sending call _ =>
      match call.request, call.progress with
      | .claim, .landed attempts => some (call.job.publicKey, attempts)
      | _, _ => none
  | _ => none

structure Execution (C K : Type) where
  worker : C
  job : K
  attempt : Nat
  deriving DecidableEq

def Execution.number (x : Execution C K) : K × Nat := (x.job, x.attempt)

/-- `executeJob` is called as soon as the claim is confirmed. -/
def begun (s : Fleet C K) (e : C × WorldEvent K) : List (Execution C K) :=
  match e.2 with
  | .confirmed => (granted (s.locals e.1).phase).toList.map fun a => ⟨e.1, a.1, a.2⟩
  | _ => []

theorem granted_sending {call : Call K} {jobs : List (JobRecord K)} {a : K × Nat} :
    granted (.sending call jobs) = some a ↔
      call.request = .claim ∧ call.job.publicKey = a.1 ∧ call.progress = .landed a.2 := by
  obtain ⟨job, request, attempt, progress⟩ := call
  obtain ⟨k, n⟩ := a
  cases request with
  | claim => cases progress <;> simp [granted]
  | complete | fail => simp [granted]

theorem mem_begun {s : Fleet C K} {e : C × WorldEvent K} {x : Execution C K} :
    x ∈ begun s e ↔ e.2 = .confirmed ∧ x.worker = e.1 ∧
      granted (s.locals e.1).phase = some x.number := by
  obtain ⟨c, e⟩ := e
  obtain ⟨d, k, n⟩ := x
  cases e with
  | confirmed =>
    simp only [begun, List.mem_map, Option.mem_toList, Execution.number, Execution.mk.injEq, true_and]
    constructor
    · intro ⟨a, ha, hc, hk, hn⟩
      exact ⟨hc.symm, by rw [ha, ← hk, ← hn]⟩
    · intro ⟨hc, ha⟩
      exact ⟨(k, n), ha, hc.symm, rfl, rfl⟩
  | chain | blocks | fetchJob | sortReady | nextJob | sign | land | landLate | attemptFailed
  | rejected | executed => simp [begun]

section
variable [DecidableEq K] [AddressDerivation K]

theorem attempts_le_step {L L' : Ledger K} {tx : Tx K} (hL : Reachable L) (h : Program.step L tx = some L')
    (k : K) : attemptsAt L k ≤ attemptsAt L' k := by
  by_cases hk : ∃ j, L k = some (.job j)
  · obtain ⟨j, hk⟩ := hk
    obtain ⟨_, _, hinv, _, hj⟩ := reachable_job hL hk
    obtain ⟨j', hk', hattempts⟩ := attempts_step (hinv.budget _ j hj) (reachable_wellFormed hL) hk h
    rw [attemptsAt_job hk, attemptsAt_job hk', hattempts]
    exact Nat.le_add_right ..
  · have hzero : attemptsAt L k = 0 := by
      unfold attemptsAt
      split
      next j hj => exact absurd ⟨j, hj⟩ hk
      next => rfl
    rw [hzero]
    exact Nat.zero_le _

/-- Each claim that takes effect has the next number. -/
theorem attempts_of_claim {L L' : Ledger K} {clock : Int64} {k worker page : K} (hL : Reachable L)
    (h : Program.step L ⟨clock, .claimJob ⟨k, worker, page⟩⟩ = some L') :
    attemptsAt L' k = attemptsAt L k + 1 := by
  have hwf := reachable_wellFormed hL
  obtain ⟨j, hk⟩ := exists_of_worksOn (k := k) hwf h rfl
  obtain ⟨_, _, hinv, _, hj⟩ := reachable_job hL hk
  obtain ⟨j', hk', hattempts⟩ := attempts_step (hinv.budget _ j hj) hwf hk h
  have hclaim : isClaimOf k ⟨clock, .claimJob ⟨k, worker, page⟩⟩ = true := decide_eq_true rfl
  rw [attemptsAt_job hk, attemptsAt_job hk', hattempts, hclaim, if_pos rfl]

variable {W : Worker K} {s s' : World K} {e : WorldEvent K}

theorem attempts_le (h : WorldStep W s e s') (hL : Reachable s.ledger) (k : K) :
    attemptsAt s.ledger k ≤ attemptsAt s'.ledger k := by
  obtain he | ⟨tx, hstep, _⟩ := h.ledger
  · rw [he]
  · exact attempts_le_step hL hstep k

theorem reachable_after (h : WorldStep W s e s') (hL : Reachable s.ledger) : Reachable s'.ledger := by
  obtain he | ⟨tx, hstep, _⟩ := h.ledger
  · exact he ▸ hL
  · exact hL.next hstep

/-- A number is granted by a claim that takes effect, and given up when the
worker is told. -/
theorem granted_after (h : WorldStep W s e s') (hL : Reachable s.ledger) {a : K × Nat}
    (ha : granted s'.phase = some a) :
    (granted s.phase = some a ∧ e ≠ .confirmed) ∨
      (attemptsAt s.ledger a.1 < a.2 ∧ attemptsAt s'.ledger a.1 = a.2) := by
  cases h with
  | chain | blocks | landLate | refuseLate => exact .inl ⟨ha, nofun⟩
  | fetchJob | sortReady | passEnds | rejected => cases ha
  | nextJob => cases (granted_sending.mp ha).2.2
  | sign => cases (granted_sending.mp ha).2.2
  | refuse => cases (granted_sending.mp ha).2.2
  | attemptFailed => cases (granted_sending.mp ha).2.2
  | @land call jobs clock L hphase hstep =>
    obtain ⟨hclaim, hk, hn⟩ := granted_sending.mp ha
    have hnumber : attemptsAt L call.job.publicKey = a.2 := Progress.landed.inj hn
    rw [show call.request = .claim from hclaim] at hstep
    have hnext := attempts_of_claim hL hstep
    rw [show call.job.publicKey = a.1 from hk] at hnext hnumber
    refine .inr ⟨?_, hnumber⟩
    omega
  | @confirmed call jobs attempts hphase hlanded =>
    obtain ⟨job, request, attempt, progress⟩ := call
    cases request <;> cases ha
  | @executed job held jobs outcome hphase =>
    cases outcome <;> cases (granted_sending.mp ha).1

end

/-! ### Every attempt is executed once -/

section
variable [DecidableEq C] [DecidableEq K] [AddressDerivation K] {W : Crew C K} {L : Ledger K}
  {s s' : Fleet C K} {log : List (Execution C K)} {e : C × WorldEvent K}

def executions (W : Crew C K) (L : Ledger K) (es : List (C × WorldEvent K)) : List (Execution C K) :=
  outputs (step W) begun (start L) es

/-- The numbers granted so far, to the executions of the log or to a worker
that has yet to be told. -/
structure Issued (s : Fleet C K) (log : List (Execution C K)) : Prop where
  reachable : Reachable s.ledger
  past : ∀ x ∈ log, 1 ≤ x.attempt ∧ x.attempt ≤ attemptsAt s.ledger x.job
  once : (log.map Execution.number).Nodup
  issued : ∀ c a, granted (s.locals c).phase = some a → 1 ≤ a.2 ∧ a.2 ≤ attemptsAt s.ledger a.1
  fresh : ∀ c a, granted (s.locals c).phase = some a → a ∉ log.map Execution.number
  apart : ∀ c d a, granted (s.locals c).phase = some a → granted (s.locals d).phase = some a → c = d

omit [DecidableEq C] in
theorem issued_start (hL : Reachable L) : Issued (start L : Fleet C K) [] :=
  ⟨hL, nofun, List.nodup_nil, nofun, nofun, nofun⟩

omit [DecidableEq K] [AddressDerivation K] in
theorem granted_put {c : C} {w : World K} {d : C} {a : K × Nat}
    (h : granted ((s.put c w).locals d).phase = some a) :
    (d = c ∧ granted w.phase = some a) ∨ (d ≠ c ∧ granted (s.locals d).phase = some a) := by
  by_cases hd : d = c
  · subst hd
    rw [put_same] at h
    exact .inl ⟨rfl, h⟩
  · rw [put_other s w hd] at h
    exact .inr ⟨hd, h⟩

theorem Issued.step (hs : Issued s log) (h : Workers.step W s e = some s') :
    Issued s' (log ++ begun s e) := by
  obtain ⟨w, hstep, rfl⟩ := step_inv h
  obtain ⟨c, e⟩ := e
  have hle : ∀ k, attemptsAt s.ledger k ≤ attemptsAt w.ledger k := attempts_le hstep hs.reachable
  -- what is granted after the event was granted before, and no execution of it begins, or is new
  have hgrant : ∀ d a, granted ((s.put c w).locals d).phase = some a →
      (granted (s.locals d).phase = some a ∧ ∀ x ∈ begun s (c, e), x.number ≠ a) ∨
        (d = c ∧ attemptsAt s.ledger a.1 < a.2 ∧ attemptsAt w.ledger a.1 = a.2) := by
    intro d a ha
    obtain ⟨hd, hw⟩ | ⟨hd, ha⟩ := granted_put ha
    · obtain ⟨hbefore, hne⟩ | hnew := granted_after hstep hs.reachable hw
      · exact .inl ⟨hd ▸ hbefore, fun x hx => absurd (mem_begun.mp hx).1 hne⟩
      · exact .inr ⟨hd, hnew⟩
    · refine .inl ⟨ha, fun x hx he => hd ?_⟩
      obtain ⟨_, _, hx⟩ := mem_begun.mp hx
      exact hs.apart d c a ha (he ▸ hx)
  refine ⟨reachable_after hstep hs.reachable, ?_, ?_, ?_, ?_, ?_⟩
  · intro x hx
    have hbound : 1 ≤ x.attempt ∧ x.attempt ≤ attemptsAt s.ledger x.job := by
      obtain hx | hx := List.mem_append.mp hx
      · exact hs.past x hx
      · exact hs.issued c x.number (mem_begun.mp hx).2.2
    exact ⟨hbound.1, hbound.2.trans (hle x.job)⟩
  · rw [List.map_append]
    refine List.nodup_append.mpr ⟨hs.once, ?_, ?_⟩
    · cases e with
      | confirmed =>
        simp only [begun]
        cases granted (s.locals c).phase with
        | none => exact List.nodup_nil
        | some a => exact List.nodup_singleton _
      | chain | blocks | fetchJob | sortReady | nextJob | sign | land | landLate | attemptFailed
      | rejected | executed => exact List.nodup_nil
    · intro a ha b hb he
      obtain ⟨x, hx, rfl⟩ := List.mem_map.mp hb
      exact hs.fresh c x.number (mem_begun.mp hx).2.2 (he ▸ ha)
  · intro d a ha
    obtain ⟨ha, _⟩ | ⟨_, hlt, hn⟩ := hgrant d a ha
    · exact ⟨(hs.issued d a ha).1, (hs.issued d a ha).2.trans (hle a.1)⟩
    · exact ⟨by omega, hn.ge⟩
  · intro d a ha hmem
    rw [List.map_append] at hmem
    obtain ⟨ha, hnone⟩ | ⟨_, hlt, _⟩ := hgrant d a ha
    · obtain hmem | hmem := List.mem_append.mp hmem
      · exact hs.fresh d a ha hmem
      · obtain ⟨x, hx, he⟩ := List.mem_map.mp hmem
        exact hnone x hx he
    · obtain hmem | hmem := List.mem_append.mp hmem
      · obtain ⟨x, hx, rfl⟩ := List.mem_map.mp hmem
        exact absurd (hs.past x hx).2 (Nat.not_le.mpr hlt)
      · obtain ⟨x, hx, rfl⟩ := List.mem_map.mp hmem
        exact absurd (hs.issued c _ (mem_begun.mp hx).2.2).2 (Nat.not_le.mpr hlt)
  · intro d d' a ha ha'
    obtain ⟨ha, _⟩ | ⟨hd, hlt, _⟩ := hgrant d a ha
    · obtain ⟨ha', _⟩ | ⟨hd', hlt, _⟩ := hgrant d' a ha'
      · exact hs.apart d d' a ha ha'
      · exact absurd (hs.issued d a ha).2 (Nat.not_le.mpr hlt)
    · obtain ⟨ha', _⟩ | ⟨hd', _, _⟩ := hgrant d' a ha'
      · exact absurd (hs.issued d' a ha').2 (Nat.not_le.mpr hlt)
      · exact hd.trans hd'.symm

theorem issued_run (hL : Reachable L) {es : List (C × WorldEvent K)}
    (hrun : run (Workers.step W) (start L) es = some s) : Issued s (executions W L es) := by
  apply run_history (P := fun s es => Issued s (executions W L es)) (issued_start hL) _ hrun
  intro s es e s' hrun hs hstep
  rw [executions, outputs_snoc e hrun]
  exact hs.step hstep

omit [DecidableEq C] in
/-- The executions of one job, by all workers together. -/
theorem Issued.length_le (hs : Issued s log) (k : K) :
    (log.filter fun x => x.job = k).length ≤ attemptsAt s.ledger k := by
  have hnodup : ((log.filter fun x => x.job = k).map Execution.attempt).Nodup := by
    have hsub : ((log.filter fun x => x.job = k).map Execution.number).Nodup :=
      (List.filter_sublist.map _).nodup hs.once
    refine List.Nodup.map_on ?_ (List.Nodup.of_map _ hsub)
    intro x hx y hy he
    have hjob : x.job = y.job :=
      (of_decide_eq_true (List.mem_filter.mp hx).2).trans (of_decide_eq_true (List.mem_filter.mp hy).2).symm
    exact List.inj_on_of_nodup_map hsub hx hy (Prod.ext hjob he)
  have hrange : (log.filter fun x => x.job = k).map Execution.attempt ⊆
      List.range' 1 (attemptsAt s.ledger k) := by
    intro n hn
    obtain ⟨x, hx, rfl⟩ := List.mem_map.mp hn
    obtain ⟨hx, hk⟩ := List.mem_filter.mp hx
    have hbound := hs.past x hx
    rw [of_decide_eq_true hk] at hbound
    exact List.mem_range'_1.mpr ⟨hbound.1, by omega⟩
  have hle := (List.subperm_of_subset hnodup hrange).length_le
  rwa [List.length_map, List.length_range'] at hle

/-- No attempt at a job is executed twice, by whichever workers of a crew, and no
job is executed more often than its retry budget allows, whatever the network
loses, repeats or delays. -/
theorem executed_once (hL : Reachable L) {es : List (C × WorldEvent K)}
    (hrun : run (Workers.step W) (start L) es = some s) :
    ((executions W L es).map Execution.number).Nodup ∧
      (∀ x ∈ executions W L es, ∃ job, s.ledger x.job = some (.job job) ∧
        1 ≤ x.attempt ∧ x.attempt ≤ job.attempts) ∧
      ∀ k job, s.ledger k = some (.job job) →
        ((executions W L es).filter fun x => x.job = k).length ≤ max 1 job.maxRetries := by
  have hs := issued_run (W := W) hL hrun
  refine ⟨hs.once, fun x hx => ?_, fun k job hk => ?_⟩
  · obtain ⟨hlow, hhigh⟩ := hs.past x hx
    unfold attemptsAt at hhigh
    split at hhigh
    next job hjob => exact ⟨job, hjob, hlow, hhigh⟩
    next => omega
  · have hle := hs.length_le k
    rw [attemptsAt_job hk] at hle
    obtain ⟨_, _, hinv, _, hj⟩ := reachable_job hs.reachable hk
    exact hle.trans (hinv.budget _ job hj).le

end

/-! ### One execution of a job at a time -/

/-- The job a worker executes, or is about to, and the number of the attempt. -/
def engaged : Phase K → Option (K × Nat)
  | .executing job held _ => some (job.publicKey, held)
  | phase => granted phase

theorem engaged_sending {call : Call K} {jobs : List (JobRecord K)} {a : K × Nat} :
    engaged (.sending call jobs) = some a ↔
      call.request = .claim ∧ call.job.publicKey = a.1 ∧ call.progress = .landed a.2 := by
  show granted (.sending call jobs) = some a ↔ _
  exact granted_sending

/-- The worker that signs a report, and its job. -/
def reportOf : Instruction K → Option (K × K)
  | .completeJob ctx _ => some (ctx.job, ctx.worker)
  | .failJob ctx _ _ => some (ctx.job, ctx.worker)
  | _ => none

/-- A late transaction that can still report on the job. -/
def Coming (s : World K) (k : K) : Prop :=
  ∃ tx ∈ s.late, s.blockHeight ≤ tx.lastValidBlockHeight ∧ tx.job = k ∧ tx.request ≠ .claim

section
variable [DecidableEq K]

instance (s : World K) (k : K) : Decidable (Coming s k) :=
  inferInstanceAs (Decidable (∃ tx ∈ s.late, s.blockHeight ≤ tx.lastValidBlockHeight ∧ tx.job = k ∧
    tx.request ≠ .claim))

variable [AddressDerivation K]

/-- A lock survives every transaction but a report of its owner. -/
theorem held_kept {L L' : Ledger K} {tx : Tx K} {k w : K} (hL : Reachable L) (hheld : Held L k w)
    (h : Program.step L tx = some L') (hno : reportOf tx.ix ≠ some (k, w)) :
    Held L' k w ∧ attemptsAt L' k = attemptsAt L k := by
  have hwf := reachable_wellFormed hL
  have hstill : statusAt L' k = some .processing := by
    by_contra hleft
    obtain ⟨job, queue, hk, hq, hrelease⟩ := held_releases hwf hheld h hleft
    obtain ⟨clock, ix⟩ := tx
    cases hrelease with
    | complete | fail => exact hno rfl
    | cancel Q page =>
      obtain ⟨evs, hexec⟩ := (step_eq_some L L' _).mp h
      have hpending := Cancellation.pending_of_cancel hL hk hexec
      rw [((held_iff hk).mp hheld).1] at hpending
      cases hpending
  have hafter := held_step hwf hheld h hstill
  refine ⟨hafter, ?_⟩
  obtain ⟨_, hsame⟩ | ⟨page, hix⟩ := held_before hwf h hafter
  · exact hsame
  · obtain ⟨clock, ix⟩ := tx
    rw [show ix = _ from hix] at h
    rw [(claimLock_of_held hwf hheld).noClaim clock w page] at h
    cases h

variable {W : Worker K} {s s' : World K} {e : WorldEvent K} {a : K × Nat}

theorem blockHeight_le (h : WorldStep W s e s') : s.blockHeight ≤ s'.blockHeight := by
  cases h with
  | blocks n => exact Nat.le_add_right ..
  | chain | fetchJob | sortReady | passEnds | nextJob | sign | land | refuse | landLate | refuseLate
  | attemptFailed | confirmed | rejected | executed => exact le_rfl

omit [DecidableEq K] [AddressDerivation K] in
theorem Coming.of_subset {k : K} (h : Coming s' k) (hlate : ∀ tx ∈ s'.late, tx ∈ s.late)
    (hheight : s.blockHeight ≤ s'.blockHeight) : Coming s k := by
  obtain ⟨tx, htx, hvalid, hrest⟩ := h
  exact ⟨tx, hlate tx htx, hheight.trans hvalid, hrest⟩

/-- While a worker is engaged, no report of its own goes into the network. -/
theorem coming_before (h : WorldStep W s e s') (ha : engaged s'.phase = some a)
    (hcoming : Coming s' a.1) : Coming s a.1 := by
  refine hcoming.of_subset ?_ (blockHeight_le h)
  cases h with
  | landLate | refuseLate => exact fun tx htx => List.mem_of_mem_eraseIdx htx
  | attemptFailed => cases (engaged_sending.mp ha).2.2
  | chain | blocks | fetchJob | sortReady | passEnds | nextJob | sign | land | refuse | confirmed
  | rejected | executed => exact fun tx htx => htx

theorem engaged_after (h : WorldStep W s e s') (hL : Reachable s.ledger) (ha : engaged s'.phase = some a) :
    engaged s.phase = some a ∨ (W.claimTaken s e = some a.1 ∧ Held s'.ledger a.1 W.key ∧
      attemptsAt s'.ledger a.1 = a.2) := by
  cases h with
  | chain | blocks | landLate | refuseLate => exact .inl ha
  | fetchJob | sortReady | passEnds | rejected => cases ha
  | nextJob | sign | refuse | attemptFailed => cases (engaged_sending.mp ha).2.2
  | @land call jobs clock L hphase hstep =>
    obtain ⟨hclaim, hk, hn⟩ := engaged_sending.mp ha
    have hrequest : call.request = .claim := hclaim
    have hjob : call.job.publicKey = a.1 := hk
    have hnumber : attemptsAt L call.job.publicKey = a.2 := Progress.landed.inj hn
    rw [hrequest, hjob] at hstep
    have haccepted : (Program.step s.ledger ⟨clock, W.instruction a.1 .claim⟩).isSome = true :=
      Option.isSome_iff_exists.mpr ⟨L, hstep⟩
    refine .inr ⟨?_, held_of_claim (reachable_wellFormed hL) hstep, hjob ▸ hnumber⟩
    simp only [Worker.claimTaken, hphase, hrequest, hjob]
    exact if_pos ⟨rfl, haccepted⟩
  | @confirmed call jobs attempts hphase hlanded =>
    obtain ⟨job, request, attempt, progress⟩ := call
    cases request with
    | claim =>
      rw [hphase]
      exact .inl (engaged_sending.mpr ⟨rfl, congrArg Prod.fst (Option.some.inj ha),
        hlanded.trans (congrArg Progress.landed (congrArg Prod.snd (Option.some.inj ha)))⟩)
    | complete | fail => cases ha
  | @executed job held jobs outcome hphase =>
    cases outcome <;> cases (engaged_sending.mp ha).1

/-- A report that takes effect comes from outside, or from a worker that is
not engaged, or is a late one. -/
theorem report_source (h : WorldStep W s e s') : s'.ledger = s.ledger ∨
    ∃ tx, Program.step s.ledger tx = some s'.ledger ∧ ∀ k w, reportOf tx.ix = some (k, w) →
      e = .chain tx ∨ (w = W.key ∧ (engaged s.phase = none ∨ Coming s k)) := by
  have hreport : ∀ {job : K} {request : Request} {k w : K},
      reportOf (W.instruction job request) = some (k, w) → request ≠ .claim ∧ job = k ∧ W.key = w := by
    intro job request k w hr
    cases request with
    | claim => cases hr
    | complete | fail => exact ⟨nofun, Prod.mk.inj (Option.some.inj hr)⟩
  cases h with
  | chain hstep => exact .inr ⟨_, hstep, fun k w _ => .inl rfl⟩
  | @land call jobs clock L hphase hstep =>
    refine .inr ⟨_, hstep, fun k w hr => .inr ?_⟩
    obtain ⟨hrequest, _, hw⟩ := hreport hr
    refine ⟨hw.symm, .inl (Option.eq_none_iff_forall_ne_some.mpr fun a ha => ?_)⟩
    rw [hphase] at ha
    exact hrequest (engaged_sending.mp ha).1
  | @landLate i tx clock L htx hvalid hstep =>
    refine .inr ⟨_, hstep, fun k w hr => .inr ?_⟩
    obtain ⟨hrequest, hk, hw⟩ := hreport hr
    exact ⟨hw.symm, .inr ⟨tx, List.mem_of_getElem? htx, hvalid, hk, hrequest⟩⟩
  | blocks | fetchJob | sortReady | passEnds | nextJob | sign | refuse | refuseLate | attemptFailed
  | confirmed | rejected | executed => exact .inl rfl

end

section
variable [DecidableEq C] [DecidableEq K] [AddressDerivation K] {W : Crew C K} {L : Ledger K}
  {s s' : Fleet C K} {e : C × WorldEvent K}

/-- Nobody else reports with the key of a worker. -/
def Private (W : Crew C K) : WorldEvent K → Prop
  | .chain tx => ∀ c k, reportOf tx.ix ≠ some (k, (W c).key)
  | _ => True

/-- No claim takes effect while a report of the worker on the job can still land. -/
def Settles (W : Crew C K) (s : Fleet C K) (e : C × WorldEvent K) : Prop :=
  ∀ k ∈ (W e.1).claimTaken (s.world e.1) e.2, ¬Coming (s.world e.1) k

instance (W : Crew C K) (s : Fleet C K) (e : C × WorldEvent K) : Decidable (Settles W s e) :=
  inferInstanceAs (Decidable (∀ k ∈ (W e.1).claimTaken (s.world e.1) e.2, ¬Coming (s.world e.1) k))

structure Locked (W : Crew C K) (s : Fleet C K) : Prop where
  reachable : Reachable s.ledger
  lock : ∀ c a, engaged (s.locals c).phase = some a →
    Held s.ledger a.1 (W c).key ∧ attemptsAt s.ledger a.1 = a.2
  clear : ∀ c a, engaged (s.locals c).phase = some a → ¬Coming (s.world c) a.1

omit [DecidableEq C] in
theorem locked_start (hL : Reachable L) : Locked W (start L : Fleet C K) := ⟨hL, nofun, nofun⟩

omit [DecidableEq C] in
/-- The locks of all workers survive an event. -/
theorem Locked.kept (hs : Locked W s) {w : World K} (h : WorldStep (W e.1) (s.world e.1) e.2 w)
    (hprivate : Private W e.2) {d : C} {a : K × Nat}
    (ha : engaged (s.locals d).phase = some a) :
    Held w.ledger a.1 (W d).key ∧ attemptsAt w.ledger a.1 = a.2 := by
  obtain ⟨hheld, hn⟩ := hs.lock d a ha
  obtain he | ⟨tx, hstep, hsource⟩ := report_source h
  · rw [he]
    exact ⟨hheld, hn⟩
  · have hno : reportOf tx.ix ≠ some (a.1, (W d).key) := by
      intro hreport
      obtain hchain | ⟨hkey, hidle⟩ := hsource _ _ hreport
      · rw [hchain] at hprivate
        exact hprivate d a.1 hreport
      · cases W.ownKey d e.1 hkey
        obtain hidle | hcoming := hidle
        · cases hidle.symm.trans ha
        · exact hs.clear _ a ha hcoming
    obtain ⟨hafter, hsame⟩ := held_kept hs.reachable hheld hstep hno
    exact ⟨hafter, hsame.trans hn⟩

theorem Locked.step (hs : Locked W s) (hcond : Private W e.2 ∧ Settles W s e)
    (h : Workers.step W s e = some s') : Locked W s' := by
  obtain ⟨w, hstep, rfl⟩ := step_inv h
  refine ⟨reachable_after hstep hs.reachable, ?_, ?_⟩
  · intro d a ha
    by_cases hd : d = e.1
    · subst hd
      rw [put_same] at ha
      obtain hbefore | ⟨_, hnew⟩ := engaged_after hstep hs.reachable ha
      · exact hs.kept hstep hcond.1 hbefore
      · exact hnew
    · rw [put_other s w hd] at ha
      exact hs.kept hstep hcond.1 ha
  · intro d a ha hcoming
    by_cases hd : d = e.1
    · subst hd
      simp only [Fleet.world, put_same] at ha hcoming
      have hbefore : Coming (s.world e.1) a.1 := coming_before hstep ha hcoming
      obtain hold | ⟨htaken, _⟩ := engaged_after hstep hs.reachable ha
      · exact hs.clear _ a hold hbefore
      · exact hcond.2 _ htaken hbefore
    · simp only [Fleet.world, put_other s w hd] at ha hcoming
      have hheight : s.blockHeight ≤ w.blockHeight := blockHeight_le hstep
      exact hs.clear d a ha (hcoming.of_subset (fun tx htx => htx) hheight)

/-- As long as no claim overtakes a report, the workers of a crew exclude each
other: a job in execution is locked for its worker at the attempt being
executed, and no other worker executes it. -/
theorem one_at_a_time (hL : Reachable L) {es : List (C × WorldEvent K)}
    (hrun : run (Workers.step W) (start L) es = some s)
    (hprivate : ∀ e ∈ es, Private W e.2) (hsettles : Meets (Workers.step W) (Settles W) (start L) es)
    {c : C} {job : JobRecord K} {held : Nat} {jobs : List (JobRecord K)}
    (hphase : (s.locals c).phase = .executing job held jobs) :
    Held s.ledger job.publicKey (W c).key ∧ attemptsAt s.ledger job.publicKey = held ∧
      ∀ d job' held' jobs', (s.locals d).phase = .executing job' held' jobs' →
        job'.publicKey = job.publicKey → d = c := by
  have hmeets : Meets (Workers.step W) (fun s e => Private W e.2 ∧ Settles W s e) (start L) es := by
    intro js e t hjs hr
    exact ⟨hprivate e (hjs.mem (List.mem_append_right js (List.mem_singleton_self e))),
      hsettles js e t hjs hr⟩
  have hs := run_meets (P := Locked W) (fun _ _ _ hP hC h => hP.step hC h) (locked_start hL)
    hmeets hrun
  have hengaged : ∀ {d : C} {job : JobRecord K} {held : Nat} {jobs : List (JobRecord K)},
      (s.locals d).phase = .executing job held jobs →
        Held s.ledger job.publicKey (W d).key ∧ attemptsAt s.ledger job.publicKey = held := by
    intro d job held jobs hd
    exact hs.lock d (job.publicKey, held) (by rw [hd]; rfl)
  obtain ⟨hheld, hn⟩ := hengaged hphase
  refine ⟨hheld, hn, fun d job' held' jobs' hd hk => W.ownKey d c ?_⟩
  obtain ⟨⟨j', hj', _, hw'⟩, _⟩ := hengaged hd
  obtain ⟨j, hj, _, hw⟩ := hheld
  rw [hk] at hj'
  cases hj.symm.trans hj'
  exact Option.some.inj (hw'.symm.trans hw)

end

/-! ### Two workers, one job each -/

def demoWorkers : Crew Bool Key where
  worker
    | false => demoWorker
    | true => ⟨.wallet 2, demoQueue, 30, defaultHybridFeeConfig⟩
  ownKey := by decide

def demoSecond : JobRecord Key := ⟨address (.job demoQueue 1), demoPending⟩

/-- Each of them is told of its claim only after both have landed. -/
def demoShift : List (Bool × WorldEvent Key) :=
  [(false, .fetchJob 0), (true, .fetchJob 1), (true, .sortReady 3 [demoSecond]),
    (false, .sortReady 3 [demoRecord]), (false, .nextJob), (true, .nextJob), (true, .sign 150),
    (false, .sign 150), (false, .land 3), (true, .land 3), (false, .confirmed), (true, .confirmed)]

theorem demoShift_accepted :
    (run (step demoWorkers) (start (ledgerAfter demoStart)) demoShift).isSome = true := by decide

theorem executed_once_demo :
    ((executions demoWorkers (ledgerAfter demoStart) demoShift).map Execution.number).Nodup := by
  obtain ⟨s, hs⟩ := Option.isSome_iff_exists.mp demoShift_accepted
  exact (executed_once (ledgerAfter_reachable demoStart_accepted) hs).1

theorem one_at_a_time_demo : ∃ s job jobs,
    run (step demoWorkers) (start (ledgerAfter demoStart)) demoShift = some s ∧
      (s.locals true).phase = .executing job 1 jobs ∧
      Held s.ledger job.publicKey (.wallet 2) ∧ attemptsAt s.ledger job.publicKey = 1 ∧
      ∀ d job' held' jobs', (s.locals d).phase = .executing job' held' jobs' →
        job'.publicKey = job.publicKey → d = true := by
  obtain ⟨s, hs⟩ := Option.isSome_iff_exists.mp demoShift_accepted
  have hphase : (s.locals true).phase = .executing demoSecond 1 [] := by
    cases hs
    rfl
  have hprivate : ∀ e ∈ demoShift, Private demoWorkers e.2 := by
    simp only [demoShift, List.forall_mem_cons, Private, true_and]
    exact List.forall_mem_nil _
  refine ⟨s, demoSecond, [], hs, hphase, ?_⟩
  exact one_at_a_time (ledgerAfter_reachable demoStart_accepted) hs hprivate (by decide) hphase

end DecQueue.Workers
