import DecQueue.AuditRecord

/-! # Queues do not interfere

The caller may mix accounts of several queues in one instruction. Whatever
passes the checks of the context belongs to one queue, so an accepted
instruction writes to one queue only. -/

namespace DecQueue.Isolation
open State Address Program View Refinement Reachability AuditRecord

variable {K : Type} [AddressDerivation K]

/-- The account at `k` is one of queue `Q`: the Queue and QueueHead accounts by
their address, pages and jobs by their back reference. -/
def BelongsTo (L : Ledger K) (k Q : K) : Prop :=
  match L k with
  | some (.queue _) => k = Q
  | some (.queueHead _) => k = address (.queueHead Q)
  | some (.jobIndex page) => page.queue = Q
  | some (.job job) => job.queue = Q
  | none => False

section
variable {L : Ledger K} {k Q : K} {v : QueueView K}

theorem belongsTo_of_slot (hv : Hosts L Q v) (hs : Slot Q k) {data : Account K}
    (hk : L k = some data) : BelongsTo L k Q := by
  unfold BelongsTo
  rw [hk]
  rcases hv.account hs hk with ⟨rfl, rfl⟩ | ⟨rfl, rfl⟩ | ⟨s, p, rfl, hp, rfl⟩ | ⟨i, j, rfl, hj, rfl⟩
  · rfl
  · rfl
  · exact (hv.placed.page s p hp).1
  · exact (hv.placed.job i j hj).1

theorem slot_of_belongsTo (hL : WellFormed L) (h : BelongsTo L k Q) : QueueKey Q ∧ Slot Q k := by
  unfold BelongsTo at h
  split at h
  next q hk =>
    obtain ⟨v, hv, _⟩ := hL.queue hk
    exact h ▸ ⟨hv.isKey, .inl rfl⟩
  next hd hk =>
    obtain ⟨Q', v, hv, he, _⟩ := hL.head hk
    cases address_injective (h.symm.trans he)
    exact ⟨hv.isKey, .inr (.inl h)⟩
  next p hk =>
    obtain ⟨v, s, hv, he, _⟩ := hL.page hk
    exact h ▸ ⟨hv.isKey, .inr (.inr (.inl ⟨s, he⟩))⟩
  next j hk =>
    obtain ⟨v, i, hv, he, _⟩ := hL.job hk
    exact h ▸ ⟨hv.isKey, .inr (.inr (.inr ⟨i, he⟩))⟩
  next => exact h.elim

end

structure Isolated (L L' : Ledger K) (Q : K) : Prop where
  changed : ∀ k, L' k ≠ L k → BelongsTo L' k Q ∧ (L k = none ∨ BelongsTo L k Q)
  others : ∀ k Q', Q' ≠ Q → BelongsTo L k Q' → L' k = L k

variable [DecidableEq K] {L L' : Ledger K} {tx : Tx K}

theorem queues_isolated (hL : Reachable L) (h : step L tx = some L') :
    ∃ Q queue, L' Q = some (.queue queue) ∧ Isolated L L' Q := by
  have hwf := reachable_wellFormed hL
  obtain ⟨evs, heff⟩ := effect_of_step hwf h
  obtain ⟨Q, v, hv, hframe⟩ := heff.target
  refine ⟨Q, v.queue, hv.view.queueAt, fun k hne => ?_, fun k Q' hQ' hk => ?_⟩
  · have hs : Slot Q k := by
      by_contra hs
      exact hne (hframe k hs)
    cases hk : L k with
    | none =>
      obtain ⟨data, hdata⟩ := Option.ne_none_iff_exists'.mp (hk ▸ hne)
      exact ⟨belongsTo_of_slot hv hs hdata, .inl rfl⟩
    | some data =>
      obtain ⟨data', hdata', _⟩ := account_step hwf h hk
      obtain ⟨Q', w, hw, hs'⟩ := hwf k data hk
      cases hs.unique hv.isKey hw.isKey hs'
      exact ⟨belongsTo_of_slot hv hs hdata', .inr (belongsTo_of_slot hw hs' hk)⟩
  · obtain ⟨hkey, hs⟩ := slot_of_belongsTo hwf hk
    exact hframe k fun hs' => hQ' (hs.unique hkey hv.isKey hs')

theorem queues_isolated_demo : ∃ Q queue,
    ledgerAfter demoRun Q = some (.queue queue) ∧
      Isolated (ledgerAfter demoStart) (ledgerAfter demoRun) Q :=
  queues_isolated (ledgerAfter_reachable demoStart_accepted) (ledgerAfter_step demoRun_accepted)

end DecQueue.Isolation
