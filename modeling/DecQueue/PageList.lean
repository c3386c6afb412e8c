import DecQueue.Invariants

/-! # The page list of a queue

Pages exist for the sequence numbers `0 .. tail`, each points to the next and
the last one holds the sentinel 0. Sequence number 0 is also the first page,
so a reader that stops at the sentinel must never meet it early; nor may the
head be moved to it. -/

namespace DecQueue.PageList
open Kit.Transition Kit.Lists State Handlers Outcomes Address Program View Refinement Reachability
  Invariants

variable {K : Type} [AddressDerivation K]

/-! ### Following `next_seq` -/

def nextSeqAt (L : Ledger K) (Q : K) (s : Nat) : Option Nat :=
  match L (address (.index Q s)) with
  | some (.jobIndex page) => some page.nextSeq
  | _ => none

/-- The pages a reader visits that starts at `s` and stops at a missing page
or at the sentinel, in at most `fuel` moves. -/
def walk (next : Nat → Option Nat) : Nat → Nat → List Nat
  | 0, s => [s]
  | fuel + 1, s =>
    match next s with
    | none => [s]
    | some 0 => [s]
    | some (t + 1) => s :: walk next fuel (t + 1)

theorem walk_eq_range' {next : Nat → Option Nat} {tail : Nat}
    (hnext : ∀ s < tail, next s = some (s + 1)) (hend : next tail = some 0) (n : Nat) :
    ∀ s fuel, s + n = tail → n ≤ fuel → walk next fuel s = List.range' s (n + 1) := by
  induction n with
  | zero =>
    intro s fuel hs _
    have hst : s = tail := by omega
    subst hst
    cases fuel with
    | zero => rfl
    | succ fuel =>
      simp only [walk, hend]
      rfl
  | succ n ih =>
    intro s fuel hs hf
    cases fuel with
    | zero => omega
    | succ fuel =>
      have hrest := ih (s + 1) fuel (by omega) (by omega)
      simp only [walk, hnext s (by omega), hrest, List.range'_succ]

/-! ### Head and tail along a run -/

theorem step_ends {Q : K} {clock : Int64} {ix : Instruction K} {v v' : QueueView K}
    {evs : List (Event K)} (h : Inv v) (hstep : QueueStep Q clock ix v v' evs) :
    v.head.headIndexSeq ≤ v'.head.headIndexSeq ∧ v.head.tailIndexSeq ≤ v'.head.tailIndexSeq := by
  cases hstep with
  | growIndex => exact ⟨le_rfl, Nat.le_succ _⟩
  | advanceHead hpage hempty hnext =>
    refine ⟨?_, le_rfl⟩
    simp only [(h.linked.advance hpage hnext).1]
    exact Nat.le_succ _
  | enqueueJob | claimJob | completeJob | retryJob | deadLetter | cancelJob | setQueuePaused =>
    exact ⟨le_rfl, le_rfl⟩

theorem advance_inv {Q : K} {clock : Int64} {ctx : AdvanceHead K} {v v' : QueueView K}
    {evs : List (Event K)} (h : QueueStep Q clock (.advanceHead ctx) v v' evs) :
    ∃ p, ctx.queueHead = address (.queueHead Q) ∧ ctx.headPage = address (.index Q v.head.headIndexSeq) ∧
      v.pages[v.head.headIndexSeq]? = some p ∧ p.jobIds = [] ∧
      (p.nextSeq ≠ 0 ∨ v.head.headIndexSeq ≠ v.head.tailIndexSeq) ∧
      v'.head = { v.head with headIndexSeq := p.nextSeq } := by
  cases h with
  | @advanceHead v p hpage hempty hnext => exact ⟨p, rfl, rfl, hpage, hempty, hnext, rfl⟩

variable [DecidableEq K] {L L' : Ledger K} {Q : K} {v : QueueView K}

theorem run_ends (hL : Reachable L) (hv : Hosts L Q v) {txs : List (Tx K)}
    (hrun : run step L txs = some L') :
    ∃ v', Hosts L' Q v' ∧ v.head.headIndexSeq ≤ v'.head.headIndexSeq ∧
      v.head.tailIndexSeq ≤ v'.head.tailIndexSeq := by
  have hrel := run_relation (P := Program.Reachable)
    (R := fun L L' => ∀ v, Hosts L Q v → ∃ v', Hosts L' Q v' ∧
      v.head.headIndexSeq ≤ v'.head.headIndexSeq ∧ v.head.tailIndexSeq ≤ v'.head.tailIndexSeq)
    (fun L v hv => ⟨v, hv, le_rfl, le_rfl⟩) ?_ ?_ hL hrun
  · exact hrel v hv
  · intro L M N h1 h2 v hv
    obtain ⟨w, hw, ha, hb⟩ := h1 v hv
    obtain ⟨u, hu, hc, hd⟩ := h2 w hw
    exact ⟨u, hu, ha.trans hc, hb.trans hd⟩
  · intro L tx L' hL hstep
    refine ⟨hL.next hstep, fun v hv => ?_⟩
    obtain ⟨v', hv', rfl | ⟨evs, hq⟩⟩ := hosts_step (reachable_wellFormed hL) hv hstep
    · exact ⟨v', hv', le_rfl, le_rfl⟩
    · obtain ⟨hh, ht⟩ := step_ends (reachable_inv hL hv) hq
      exact ⟨v', hv', hh, ht⟩

/-! ### Advancing the head -/

theorem advance_iff (hL : Reachable L) (hv : Hosts L Q v) (clock : Int64) (k : K) :
    (∃ r, exec clock L (.advanceHead ⟨address (.queueHead Q), k⟩) = .ok r) ↔
      k = address (.index Q v.head.headIndexSeq) ∧
        (∃ page, L k = some (.jobIndex page) ∧ page.jobIds = []) ∧
        v.head.headIndexSeq < v.head.tailIndexSeq := by
  have hinv := reachable_inv hL hv
  constructor
  · intro ⟨⟨L', evs⟩, hexec⟩
    obtain ⟨Q', w, w', hw, hstep⟩ := hosts_of_exec (reachable_wellFormed hL) (by simp) hexec
    obtain ⟨p, hhead, hpage, hp, hempty, hnext, _⟩ := advance_inv hstep
    cases address_injective hhead
    cases hv.unique hw
    have hk : k = address (.index Q v.head.headIndexSeq) := hpage
    subst hk
    exact ⟨rfl, ⟨p, hv.page hp, hempty⟩, (hinv.linked.guard_iff hp).mp hnext⟩
  · rintro ⟨rfl, ⟨page, hk, hempty⟩, hlt⟩
    obtain ⟨p, hp⟩ := hinv.linked.page (Nat.le_of_lt hlt)
    have hpage := (hv.page hp).symm.trans hk
    cases hpage
    obtain ⟨L', hexec, _⟩ := exec_of_queueStep hv
      (.advanceHead hp hempty ((hinv.linked.guard_iff hp).mpr hlt))
    exact ⟨_, hexec⟩

theorem advance_effect (hL : Reachable L) (hv : Hosts L Q v) {clock : Int64} {k : K}
    {evs : List (Event K)}
    (hexec : exec clock L (.advanceHead ⟨address (.queueHead Q), k⟩) = .ok (L', evs)) :
    L' (address (.queueHead Q)) =
      some (.queueHead { v.head with headIndexSeq := v.head.headIndexSeq + 1 }) := by
  have heff := effect_of_exec (reachable_wellFormed hL) hexec
  cases heff with
  | @act Q' w w' _ _ hw hstep hnew =>
    obtain ⟨p, hhead, _, hp, _, hnext, hw'⟩ := advance_inv hstep
    have hseeds := address_injective hhead
    cases hseeds
    cases hv.unique hw
    rw [hnew.view.headAt, hw', ((reachable_inv hL hv).linked.advance hp hnext).1]

theorem traversal_hosts (hL : Reachable L) (hv : Hosts L Q v) {fuel : Nat}
    (hf : v.head.tailIndexSeq - v.head.headIndexSeq ≤ fuel) :
    walk (nextSeqAt L Q) fuel v.head.headIndexSeq = List.range' v.head.headIndexSeq
      (v.head.tailIndexSeq - v.head.headIndexSeq + 1) := by
  have hlinked := (reachable_inv hL hv).linked
  have hnext : ∀ s ≤ v.head.tailIndexSeq,
      nextSeqAt L Q s = some (if s < v.head.tailIndexSeq then s + 1 else 0) := by
    intro s hs
    obtain ⟨p, hp⟩ := hlinked.page hs
    simp only [nextSeqAt, hv.page hp, hlinked.next s p hp]
  have horder := hlinked.order
  refine walk_eq_range' (fun s (hs : s < v.head.tailIndexSeq) => ?_) ?_ _ _ fuel (by omega) hf
  · rw [hnext s (Nat.le_of_lt hs), if_pos hs]
  · rw [hnext _ le_rfl, if_neg (Nat.lt_irrefl _)]

/-! ### The shape of the list -/

structure ListShape (L : Ledger K) (Q : K) (head : QueueHead K) : Prop where
  /-- pages `0 .. tail` exist and are linked in order -/
  pages : ∀ s ≤ head.tailIndexSeq, ∃ page, L (address (.index Q s)) = some (.jobIndex page) ∧
    page.queue = Q ∧ page.seq = s ∧ page.nextSeq = if s < head.tailIndexSeq then s + 1 else 0
  /-- there are no others -/
  only : ∀ k page, L k = some (.jobIndex page) → page.queue = Q →
    page.seq ≤ head.tailIndexSeq ∧ k = address (.index Q page.seq)
  order : head.headIndexSeq ≤ head.tailIndexSeq
  monotone : ∀ txs L', run step L txs = some L' → ∃ head',
    L' (address (.queueHead Q)) = some (.queueHead head') ∧
      head.headIndexSeq ≤ head'.headIndexSeq ∧ head.tailIndexSeq ≤ head'.tailIndexSeq
  advance : ∀ clock k, (∃ r, exec clock L (.advanceHead ⟨address (.queueHead Q), k⟩) = .ok r) ↔
    k = address (.index Q head.headIndexSeq) ∧
      (∃ page, L k = some (.jobIndex page) ∧ page.jobIds = []) ∧
      head.headIndexSeq < head.tailIndexSeq
  advanced : ∀ clock k L' evs,
    exec clock L (.advanceHead ⟨address (.queueHead Q), k⟩) = .ok (L', evs) →
      L' (address (.queueHead Q)) =
        some (.queueHead { head with headIndexSeq := head.headIndexSeq + 1 })
  /-- a reader visits `head, .., tail` and stops there -/
  traversal : ∀ fuel, head.tailIndexSeq - head.headIndexSeq ≤ fuel →
    walk (nextSeqAt L Q) fuel head.headIndexSeq =
      List.range' head.headIndexSeq (head.tailIndexSeq - head.headIndexSeq + 1)

theorem list_shape (hL : Reachable L) {queue : Queue K} (hQ : L Q = some (.queue queue)) :
    ∃ head, L (address (.queueHead Q)) = some (.queueHead head) ∧ ListShape L Q head := by
  obtain ⟨v, hv, hinv, _⟩ := reachable_queue hL hQ
  refine ⟨v.head, hv.view.headAt, ?_, ?_, hinv.linked.order, ?_, advance_iff hL hv,
    fun clock k L' evs hexec => advance_effect hL hv hexec, fun fuel hf => traversal_hosts hL hv hf⟩
  · intro s hs
    obtain ⟨p, hp⟩ := hinv.linked.page hs
    obtain ⟨hq, hseq, _⟩ := hv.placed.page s p hp
    exact ⟨p, hv.page hp, hq, hseq, hinv.linked.next s p hp⟩
  · rintro k page hk rfl
    obtain ⟨w, s, hw, rfl, hp⟩ := (reachable_wellFormed hL).page hk
    cases hv.unique hw
    have hlt := (List.getElem?_eq_some_iff.mp hp).1
    rw [hinv.linked.length] at hlt
    have hseq := (hv.placed.page s page hp).2.1
    exact ⟨by omega, by rw [hseq]⟩
  · intro txs L' hrun
    obtain ⟨v', hv', hh, ht⟩ := run_ends hL hv hrun
    exact ⟨v'.head, hv'.view.headAt, hh, ht⟩

theorem list_shape_demo : ∃ head,
    ledgerAfter demoRun (address (.queueHead demoQueue)) = some (.queueHead head) ∧
      ListShape (ledgerAfter demoRun) demoQueue head :=
  list_shape demo_reachable demo_queue

end DecQueue.PageList
