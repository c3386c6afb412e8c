import DecQueue.Invariants
import Mathlib.Data.List.Nodup

/-! # Which ids the index pages hold

On a reachable ledger the pages of a queue, taken together, hold the ids of
its pending jobs, each once. A worker that may claim a job at all may claim it
through one page only. -/

namespace DecQueue.Membership
open State Handlers Outcomes Address Program View Refinement Reachability Invariants

variable {K : Type}

def idsAt (L : Ledger K) (k : K) : List Nat :=
  match L k with
  | some (.jobIndex page) => page.jobIds
  | _ => []

section
variable [AddressDerivation K]

def pageKeys (Q : K) (n : Nat) : List K := (List.range n).map fun s => address (.index Q s)

theorem pageKeys_nodup (Q : K) (n : Nat) : (pageKeys Q n).Nodup := by
  refine List.Nodup.map (fun s t h => ?_) List.nodup_range
  exact (Seeds.index.inj (address_injective h)).2

theorem mem_pageKeys {Q k : K} {n : Nat} : k ∈ pageKeys Q n ↔ ∃ s < n, k = address (.index Q s) := by
  simp only [pageKeys, List.mem_map, List.mem_range, eq_comm]

variable {L : Ledger K} {Q : K} {v : QueueView K}

theorem idsAt_page (hv : Hosts L Q v) {s : Nat} {p : JobIndex K} (hp : v.pages[s]? = some p) :
    idsAt L (address (.index Q s)) = p.jobIds := by
  simp only [idsAt, hv.page hp]

theorem flatMap_pageKeys (hv : Hosts L Q v) :
    (pageKeys Q v.pages.length).flatMap (idsAt L) = stored v.pages := by
  have hmap : (pageKeys Q v.pages.length).map (idsAt L) = v.pages.map fun p => p.jobIds := by
    apply List.ext_getElem?
    intro s
    simp only [pageKeys, List.map_map, List.getElem?_map]
    by_cases hs : s < v.pages.length
    · rw [List.getElem?_range hs, List.getElem?_eq_getElem hs]
      exact congrArg some (idsAt_page hv (List.getElem?_eq_getElem hs))
    · have hle : v.pages.length ≤ s := Nat.le_of_not_lt hs
      rw [List.getElem?_eq_none hle, List.getElem?_eq_none (List.length_range.trans_le hle)]
      rfl
  simp only [stored, List.flatMap_def, hmap]

theorem mem_pageKeys_iff (hL : WellFormed L) (hv : Hosts L Q v) (k : K) :
    k ∈ pageKeys Q v.pages.length ↔ ∃ p, L k = some (.jobIndex p) ∧ p.queue = Q := by
  rw [mem_pageKeys]
  constructor
  · intro h
    obtain ⟨s, hs, rfl⟩ := h
    have hp := List.getElem?_eq_getElem hs
    exact ⟨_, hv.page hp, (hv.placed.page s _ hp).1⟩
  · intro h
    obtain ⟨p, hk, rfl⟩ := h
    obtain ⟨w, s, hw, rfl, hp⟩ := hL.page hk
    cases hv.unique hw
    exact ⟨s, (List.getElem?_eq_some_iff.mp hp).1, rfl⟩

/-! ### Claiming through a page -/

theorem claim_inv {clock : Int64} {ctx : ClaimJob K} {v' : QueueView K}
    {evs : List (Event K)} (h : QueueStep Q clock (.claimJob ctx) v v' evs) :
    ∃ i s j p p', ctx.job = address (.job Q i) ∧ ctx.sourceIndexPage = address (.index Q s) ∧
      v.jobs[i]? = some j ∧ v.pages[s]? = some p ∧ p.removeJob j.jobId = .ok p' := by
  cases h with
  | @claimJob v i s j p p' worker hjob hpage hstatus hready hremove =>
    exact ⟨i, s, j, p, p', rfl, rfl, hjob, hpage, hremove⟩

variable [DecidableEq K]

theorem claim_iff_page (hL : Reachable L) {k : K} {job : Job K} (hk : L k = some (.job job))
    (hstatus : job.status = .pending) {clock : Int64} (hready : job.executeAfter ≤ clock)
    (worker : K) :
    ∃ s v, Hosts L job.queue v ∧ s < v.pages.length ∧
      ∀ page, (∃ r, exec clock L (.claimJob ⟨k, worker, page⟩) = .ok r) ↔
        page = address (.index job.queue s) := by
  obtain ⟨v, hv, hinv, hkey, hjob⟩ := reachable_job hL hk
  have hpending : pendingAt v.jobs job.jobId = true := by
    rw [pendingAt_of_some hjob, hstatus]
    rfl
  obtain ⟨s, p, hp, hmem⟩ := hinv.indexed.page_of_pending hpending
  refine ⟨s, v, hv, (List.getElem?_eq_some_iff.mp hp).1, fun page => ⟨?_, ?_⟩⟩
  · intro ⟨⟨L', evs⟩, hexec⟩
    obtain ⟨Q', w, w', hw, hstep⟩ := hosts_of_exec (reachable_wellFormed hL) (by simp) hexec
    obtain ⟨i, t, j, q, q', hi, ht, hj, hq, hremove⟩ := claim_inv hstep
    cases address_injective (hkey.symm.trans hi)
    cases hv.unique hw
    have hid := (hw.placed.job _ j hj).2.1
    have hts := hinv.indexed.unique hp hq hmem (hid ▸ mem_of_removeJob hremove)
    exact hts ▸ ht
  · rintro rfl
    obtain ⟨p', hremove⟩ := removeJob_of_mem hmem
    obtain ⟨L', hexec, _⟩ := exec_of_queueStep hv (.claimJob worker hjob hp hstatus hready hremove)
    rw [← hkey] at hexec
    exact ⟨_, hexec⟩

/-! ### The membership invariant -/

/-- `pages` lists the index pages of `Q`, each once; what they hold, counted
with multiplicity, is the pending jobs of `Q`. -/
structure IndexMembership (L : Ledger K) (Q : K) (jobCount : Nat) (pages : List K) : Prop where
  nodup : pages.Nodup
  all : ∀ k, k ∈ pages ↔ ∃ page, L k = some (.jobIndex page) ∧ page.queue = Q
  bounded : ∀ k ∈ pages, (idsAt L k).length ≤ maxIndexEntries
  exist : ∀ id < jobCount, ∃ k job, L k = some (.job job) ∧ job.queue = Q ∧ job.jobId = id
  counted : ∀ k job, L k = some (.job job) → job.queue = Q →
    (pages.flatMap (idsAt L)).count job.jobId = if job.status = .pending then 1 else 0
  noOther : ∀ id ∈ pages.flatMap (idsAt L), id < jobCount
  claimable : ∀ k job clock worker, L k = some (.job job) → job.queue = Q → job.status = .pending →
    job.executeAfter ≤ clock → ∃ page ∈ pages,
      ∀ k', (∃ r, exec clock L (.claimJob ⟨k, worker, k'⟩) = .ok r) ↔ k' = page

theorem index_membership (hL : Reachable L) {queue : Queue K} (hQ : L Q = some (.queue queue)) :
    ∃ pages, IndexMembership L Q queue.jobCount pages := by
  obtain ⟨v, hv, hinv, rfl⟩ := reachable_queue hL hQ
  have hL' := reachable_wellFormed hL
  refine ⟨pageKeys Q v.pages.length, pageKeys_nodup _ _, mem_pageKeys_iff hL' hv, ?_, ?_, ?_, ?_, ?_⟩
  · intro k hk
    obtain ⟨s, hs, rfl⟩ := mem_pageKeys.mp hk
    have hp := List.getElem?_eq_getElem hs
    rw [idsAt_page hv hp]
    exact hinv.linked.room s _ hp
  · intro id hid
    have hj := List.getElem?_eq_getElem (hv.placed.jobCount ▸ hid)
    obtain ⟨hq, hid', _⟩ := hv.placed.job id _ hj
    exact ⟨_, _, hv.job hj, hq, hid'⟩
  · intro k job hk hown
    subst hown
    obtain ⟨w, hw, _, _, hj⟩ := reachable_job hL hk
    cases hv.unique hw
    have hcount := hinv.indexed job.jobId
    rw [pendingAt_of_some hj] at hcount
    rw [flatMap_pageKeys hv]
    simpa only [occurrences, beq_iff_eq] using hcount
  · intro id hid
    rw [flatMap_pageKeys hv] at hid
    obtain ⟨p, hp, hmem⟩ := List.mem_flatMap.mp hid
    obtain ⟨s, hs⟩ := List.getElem?_of_mem hp
    have hpending := hinv.indexed.pending_of_mem hs hmem
    rw [hv.placed.jobCount]
    by_contra hlt
    simp [pendingAt, List.getElem?_eq_none (Nat.le_of_not_lt hlt)] at hpending
  · intro k job clock worker hk hown hstatus hready
    subst hown
    obtain ⟨s, w, hw, hs, hiff⟩ := claim_iff_page hL hk hstatus hready worker
    cases hv.unique hw
    exact ⟨_, mem_pageKeys.mpr ⟨s, hs, rfl⟩, hiff⟩

end

theorem index_membership_demo :
    ∃ pages, IndexMembership (ledgerAfter demoRun) demoQueue 2 pages :=
  index_membership demo_reachable demo_queue

end DecQueue.Membership
