import DecQueue.Refinement

/-! # Reachable ledgers

An accepted transaction creates one queue or moves one queue by one step. It
follows that every reachable ledger is well formed, and that a property of
views kept by `QueueStep` holds of every queue on a reachable ledger. -/

namespace DecQueue.Reachability
open Kit.Fallible State Handlers Outcomes Address Program View Refinement

variable {K : Type} [AddressDerivation K] [DecidableEq K]

/-! ### The effect of one accepted transaction -/

inductive Effect (clock : Int64) (L L' : Ledger K) : Instruction K → List (Event K) → Prop where
  | create (authority : K) (queueName : String) (maxRetries : Nat) (hretries : maxRetries ≤ 10)
      (hfree : L (address (.queue authority queueName)) = none)
      (hnew : Updates L (address (.queue authority queueName)) L'
        (initial clock authority (address (.queue authority queueName)) queueName maxRetries)) :
      Effect clock L L'
        (.initializeQueue ⟨address (.queue authority queueName),
          address (.queueHead (address (.queue authority queueName))),
          address (.index (address (.queue authority queueName)) 0), authority⟩ queueName maxRetries)
        [.queueCreated authority queueName clock]
  | act {Q : K} {v v' : QueueView K} {ix : Instruction K} {evs : List (Event K)}
      (hv : Hosts L Q v) (hstep : QueueStep Q clock ix v v' evs) (hnew : Updates L Q L' v') :
      Effect clock L L' ix evs

variable {clock : Int64} {L L' : Ledger K} {Q : K} {v : QueueView K} {ix : Instruction K}
  {evs : List (Event K)}

theorem initial_updates (hL : WellFormed L) (authority : K) (queueName : String) (maxRetries : Nat)
    (hfree : L (address (.queue authority queueName)) = none) :
    Updates L (address (.queue authority queueName))
      (write (write (write L (address (.queue authority queueName))
        (.queue (initial clock authority (address (.queue authority queueName)) queueName
          maxRetries).queue))
        (address (.queueHead (address (.queue authority queueName))))
        (.queueHead (initial clock authority (address (.queue authority queueName)) queueName
          maxRetries).head))
        (address (.index (address (.queue authority queueName)) 0))
        (.jobIndex ⟨address (.queue authority queueName), 0, 0, [],
          bumpOf (.index (address (.queue authority queueName)) 0)⟩))
      (initial clock authority (address (.queue authority queueName)) queueName maxRetries) := by
  have hQ : QueueKey (address (.queue authority queueName)) := ⟨authority, queueName, rfl⟩
  refine ⟨⟨?_, ?_, fun s => ?_, fun i => ?_⟩, ?_⟩
  · simp [write_address]
  · simp [write_address]
  · have hnone := hL.vacant hQ hfree (.inr (.inr (.inl ⟨s, rfl⟩)))
    cases s <;> simp [write_address, hnone, initial]
  · have hnone := hL.vacant hQ hfree (.inr (.inr (.inr ⟨i, rfl⟩)))
    simp [write_address, hnone, initial]
  · have hrefl : Frame (address (.queue authority queueName)) L L := fun _ _ => rfl
    exact ((hrefl.write (.inl rfl) _).write (.inr (.inl rfl)) _).write (.inr (.inr (.inl ⟨0, rfl⟩))) _

theorem effect_of_exec (hL : WellFormed L) (h : exec clock L ix = .ok (L', evs)) :
    Effect clock L L' ix evs := by
  rcases queueStep_of_exec hL h with ⟨⟨queue, queueHead, page, authority⟩, queueName, maxRetries, rfl⟩ |
    ⟨Q, v, v', hv, hstep⟩
  · simp only [exec, execInitializeQueue, bind_ok_iff, checkInit_ok_iff, lift_ok_iff,
      initializeQueue_ok_iff, pure_ok_iff] at h
    obtain ⟨_, ⟨rfl, hfree⟩, _, ⟨rfl, _⟩, _, ⟨rfl, _⟩, _, ⟨_, hretries, rfl⟩, hout⟩ := h
    cases hout
    exact .create authority queueName maxRetries hretries hfree
      (initial_updates hL authority queueName maxRetries hfree)
  · obtain ⟨L'', hexec, hupd⟩ := exec_of_queueStep hv hstep
    have he := Except.ok.inj (hexec.symm.trans h)
    cases he
    exact .act hv hstep hupd

theorem effect_of_step {tx : Tx K} (hL : WellFormed L) (h : step L tx = some L') :
    ∃ evs, Effect tx.clock L L' tx.ix evs := by
  obtain ⟨evs, hexec⟩ := (step_eq_some L L' tx).mp h
  exact ⟨evs, effect_of_exec hL hexec⟩

omit [DecidableEq K] in
theorem Effect.target (h : Effect clock L L' ix evs) :
    ∃ Q v, Hosts L' Q v ∧ Frame Q L L' := by
  cases h with
  | create authority queueName maxRetries hretries hfree hnew =>
    exact ⟨_, _, ⟨hnew.view, initial_placed clock authority queueName maxRetries⟩, hnew.frame⟩
  | @act Q v v' _ _ hv hstep hnew => exact ⟨Q, v', ⟨hnew.view, hstep.placed hv.placed⟩, hnew.frame⟩

omit [DecidableEq K] in
theorem Effect.wellFormed (hL : WellFormed L) (h : Effect clock L L' ix evs) : WellFormed L' := by
  obtain ⟨Q, v, hv, hframe⟩ := h.target
  intro k data hk
  by_cases hs : Slot Q k
  · exact ⟨Q, v, hv, hs⟩
  · obtain ⟨Q', w, hw, hs'⟩ := hL k data ((hframe k hs).symm.trans hk)
    have hne : Q' ≠ Q := by
      rintro rfl
      exact hs hs'
    exact ⟨Q', w, hw.frame hv.isKey hne hframe, hs'⟩

/-! ### The effect at one queue -/

/-- The instruction creates a queue or moves one other than `Q`. -/
inductive NoStep (clock : Int64) (L : Ledger K) (Q : K) : Instruction K → List (Event K) → Prop where
  | create (ctx : InitializeQueue K) (queueName : String) (maxRetries : Nat) :
      NoStep clock L Q (.initializeQueue ctx queueName maxRetries)
        [.queueCreated ctx.authority queueName clock]
  | other {Q' : K} {v v' : QueueView K} {ix : Instruction K} {evs : List (Event K)} (hne : Q ≠ Q')
      (hv : Hosts L Q' v) (hstep : QueueStep Q' clock ix v v' evs) : NoStep clock L Q ix evs

inductive EffectAt (clock : Int64) (L L' : Ledger K) (ix : Instruction K) (evs : List (Event K))
    (Q : K) : Prop where
  | created (authority : K) (queueName : String) (maxRetries : Nat) (hretries : maxRetries ≤ 10)
      (hfree : ∀ v, ¬Hosts L Q v) (hnew : Hosts L' Q (initial clock authority Q queueName maxRetries))
      (hno : NoStep clock L Q ix evs)
  | stepped {v v' : QueueView K} (hv : Hosts L Q v) (hv' : Hosts L' Q v')
      (hstep : QueueStep Q clock ix v v' evs)
  | untouched (hsame : ∀ v, Hosts L' Q v ↔ Hosts L Q v) (hno : NoStep clock L Q ix evs)

omit [DecidableEq K] in
theorem hosts_iff_of_frame {Q' : K} (hQ' : QueueKey Q') (hne : Q ≠ Q') (hf : Frame Q' L L')
    (v : QueueView K) : Hosts L' Q v ↔ Hosts L Q v :=
  ⟨fun hv => hv.frame hQ' hne fun k hk => (hf k hk).symm, fun hv => hv.frame hQ' hne hf⟩

theorem Effect.effectAt (h : Effect clock L L' ix evs) (Q : K) : EffectAt clock L L' ix evs Q := by
  cases h with
  | create authority queueName maxRetries hretries hfree hnew =>
    by_cases he : Q = address (.queue authority queueName)
    · subst he
      refine .created authority queueName maxRetries hretries (fun v hv => ?_)
        ⟨hnew.view, initial_placed clock authority queueName maxRetries⟩ (.create ..)
      rw [hv.view.queueAt] at hfree
      cases hfree
    · exact .untouched (hosts_iff_of_frame ⟨_, _, rfl⟩ he hnew.frame) (.create ..)
  | @act Q' w w' _ _ hw hstep hnew =>
    by_cases he : Q = Q'
    · subst he
      exact .stepped hw ⟨hnew.view, hstep.placed hw.placed⟩ hstep
    · exact .untouched (hosts_iff_of_frame hw.isKey he hnew.frame) (.other he hw hstep)

theorem Effect.forward (hv : Hosts L Q v) (h : Effect clock L L' ix evs) :
    ∃ v', Hosts L' Q v' ∧ (v' = v ∨ QueueStep Q clock ix v v' evs) := by
  cases h.effectAt Q with
  | created _ _ _ _ hfree => exact absurd hv (hfree v)
  | stepped hw hv' hstep =>
    cases hv.unique hw
    exact ⟨_, hv', .inr hstep⟩
  | untouched hsame => exact ⟨v, (hsame v).mpr hv, .inl rfl⟩

theorem Effect.backward (hv : Hosts L' Q v) (h : Effect clock L L' ix evs) :
    (∃ authority queueName maxRetries, maxRetries ≤ 10 ∧
        v = initial clock authority Q queueName maxRetries) ∨
      ∃ w, Hosts L Q w ∧ (v = w ∨ QueueStep Q clock ix w v evs) := by
  cases h.effectAt Q with
  | created authority queueName maxRetries hretries _ hnew =>
    exact .inl ⟨authority, queueName, maxRetries, hretries, hv.unique hnew⟩
  | stepped hw hv' hstep =>
    cases hv.unique hv'
    exact .inr ⟨_, hw, .inr hstep⟩
  | untouched hsame => exact .inr ⟨v, (hsame v).mp hv, .inl rfl⟩

/-! ### Runs -/

omit [DecidableEq K] in
theorem genesis_wellFormed : WellFormed (genesis : Ledger K) := by
  intro k data h
  cases h

theorem wellFormed_step (L : Ledger K) (tx : Tx K) (L' : Ledger K) (hL : WellFormed L)
    (h : step L tx = some L') : WellFormed L' := by
  obtain ⟨evs, heff⟩ := effect_of_step hL h
  exact heff.wellFormed hL

theorem reachable_wellFormed (h : Reachable L) : WellFormed L :=
  Kit.Transition.Reachable.invariant h genesis_wellFormed wellFormed_step

/-- A queue survives every run, and its view moves by its own steps. -/
theorem hosts_step {tx : Tx K} (hL : WellFormed L) (hv : Hosts L Q v) (h : step L tx = some L') :
    ∃ v', Hosts L' Q v' ∧ (v' = v ∨ ∃ evs, QueueStep Q tx.clock tx.ix v v' evs) := by
  obtain ⟨evs, heff⟩ := effect_of_step hL h
  obtain ⟨v', hv', hrel⟩ := heff.forward hv
  exact ⟨v', hv', hrel.imp_right fun hs => ⟨evs, hs⟩⟩

theorem step_of_queueStep {v' : QueueView K} (hv : Hosts L Q v)
    (h : QueueStep Q clock ix v v' evs) : ∃ L', step L ⟨clock, ix⟩ = some L' ∧ Hosts L' Q v' := by
  obtain ⟨L', hexec, hnew⟩ := exec_of_queueStep hv h
  exact ⟨L', (step_eq_some L L' ⟨clock, ix⟩).mpr ⟨evs, hexec⟩, hnew.view, h.placed hv.placed⟩

theorem hosts_of_initialize {authority : K} {queueName : String} {maxRetries : Nat}
    (hL : WellFormed L) (h : step L ⟨clock, initializeAt authority queueName maxRetries⟩ = some L') :
    Hosts L' (address (.queue authority queueName))
      (initial clock authority (address (.queue authority queueName)) queueName maxRetries) := by
  obtain ⟨evs, heff⟩ := effect_of_step hL h
  generalize hix : initializeAt authority queueName maxRetries = ix at heff
  cases heff with
  | create authority' queueName' maxRetries' hretries hfree hnew =>
    simp only [initializeAt, Instruction.initializeQueue.injEq, InitializeQueue.mk.injEq] at hix
    obtain ⟨⟨_, _, _, rfl⟩, rfl, rfl⟩ := hix
    exact ⟨hnew.view, initial_placed clock authority queueName maxRetries⟩
  | act hv hstep =>
    subst hix
    cases hstep

/-- Invariants of the queue machine hold of every queue on a reachable ledger. -/
theorem reachable_invariant {I : K → QueueView K → Prop}
    (hinit : ∀ clock authority Q queueName maxRetries, maxRetries ≤ 10 →
      I Q (initial clock authority Q queueName maxRetries))
    (hstep : ∀ Q clock ix v v' evs, Placed Q v → I Q v → QueueStep Q clock ix v v' evs → I Q v')
    (hL : Reachable L) (hv : Hosts L Q v) : I Q v := by
  have hall : WellFormed L ∧ ∀ Q v, Hosts L Q v → I Q v := by
    refine Kit.Transition.Reachable.invariant
      (P := fun L => WellFormed L ∧ ∀ Q v, Hosts L Q v → I Q v) hL ⟨genesis_wellFormed, ?_⟩ ?_
    · intro Q v hv
      cases hv.view.queueAt
    · intro L tx L' ⟨hwf, hI⟩ hs
      refine ⟨wellFormed_step L tx L' hwf hs, fun Q v hv => ?_⟩
      obtain ⟨evs, heff⟩ := effect_of_step hwf hs
      rcases heff.backward hv with ⟨a, n, m, hm, rfl⟩ | ⟨w, hw, rfl | hq⟩
      · exact hinit tx.clock a Q n m hm
      · exact hI Q v hw
      · exact hstep Q tx.clock tx.ix w v evs hw.placed (hI Q w hw) hq
  exact hall.2 Q v hv

/-! ### A small run -/

def demoQueue : Key := address (.queue (.wallet 0) "jobs")

def demoStart : List (Tx Key) :=
  [⟨0, initializeAt (.wallet 0) "jobs" 3⟩,
    ⟨1, enqueueAt demoQueue (.wallet 5) 0 0 [] "email" 1 0⟩,
    ⟨2, enqueueAt demoQueue (.wallet 5) 1 0 [] "email" 1 0⟩]

/-- The first job is claimed by `.wallet 1`. -/
def demoRun : List (Tx Key) := demoStart ++ [⟨3, claimAt demoQueue (.wallet 1) 0 0⟩]

theorem demoStart_accepted : (Kit.Transition.run step genesis demoStart).isSome = true := by decide

theorem demoRun_accepted : (Kit.Transition.run step genesis demoRun).isSome = true := by decide

theorem demo_reachable : Reachable (ledgerAfter demoRun) := ledgerAfter_reachable demoRun_accepted

def demoAccount : Queue Key := ⟨.wallet 0, "jobs", 2, 2, 0, 0, 3, false, 0, 255⟩

def demoClaimed : Job Key :=
  ⟨demoQueue, 0, "email", [], .processing, 1, 1, 1, 1, 3, some (.wallet 1), some 3, none, none, none,
    255⟩

def demoPending : Job Key :=
  ⟨demoQueue, 1, "email", [], .pending, 1, 2, 2, 0, 3, none, none, none, none, none, 255⟩

theorem demo_queue : ledgerAfter demoRun demoQueue = some (.queue demoAccount) := by decide

theorem demo_claimed : ledgerAfter demoRun (address (.job demoQueue 0)) = some (.job demoClaimed) := by
  decide

theorem demo_pending : ledgerAfter demoRun (address (.job demoQueue 1)) = some (.job demoPending) := by
  decide

end DecQueue.Reachability
