import DecQueue.Records

/-! # The order in which a worker takes jobs

Among ready jobs all dates are valid, so the comparator of `sortReadyJobs` is
a chain of three numeric keys. On distinct ids no two jobs tie, and the order
of the list that was fetched has no influence on the result. -/

namespace DecQueue.DispatchOrder
open Kit.ComparisonSort State Records

variable {K V : Type} {now : Int} {jobs jobs' : List (JobRecord K V)} {a b : JobRecord K V}

def Before (a b : JobRecord K V) : Prop :=
  b.priority < a.priority ∨
    (a.priority = b.priority ∧
      ∃ t u, a.executeAfter = some t ∧ b.executeAfter = some u ∧
        (t < u ∨ (t = u ∧ a.jobId < b.jobId)))

/-! ### The comparator as a chain of keys -/

def priorityKey (job : JobRecord K V) : Int := -job.priority

def timeKey (job : JobRecord K V) : Int := job.executeAfter.getD 0

def idKey (job : JobRecord K V) : Int := job.jobId

theorem isReady_iff (now : Int) (job : JobRecord K V) :
    job.isReady now = true ↔ job.status = .pending ∧ ∃ t, job.executeAfter = some t ∧ t ≤ now := by
  unfold JobRecord.isReady
  cases job.executeAfter with
  | none => simp
  | some t => simp

theorem compareJobs_eq (ha : a.isReady now = true) (hb : b.isReady now = true) :
    compareJobs a b = thenBy (byKey priorityKey) (thenBy (byKey timeKey) (byKey idKey)) a b := by
  obtain ⟨_, t, ht, _⟩ := (isReady_iff now a).mp ha
  obtain ⟨_, u, hu, _⟩ := (isReady_iff now b).mp hb
  simp only [compareJobs, thenBy, byKey, priorityKey, timeKey, idKey, ht, hu, Option.getD_some]
  have hpriority : -(a.priority : Int) - -(b.priority : Int) ≠ 0 ↔ a.priority ≠ b.priority := by omega
  have htime : t - u ≠ 0 ↔ t ≠ u := by omega
  simp only [hpriority, htime]
  split
  · omega
  · rfl

theorem ready_of_mem (h : a ∈ jobs.filter (JobRecord.isReady now)) : a.isReady now = true :=
  (List.mem_filter.mp h).2

theorem compareJobs_consistent (now : Int) (jobs : List (JobRecord K V)) :
    Consistent compareJobs (jobs.filter (JobRecord.isReady now)) := by
  have hchain := (consistent_byKey priorityKey (jobs.filter (JobRecord.isReady now))).thenBy
    ((consistent_byKey timeKey _).thenBy (consistent_byKey idKey _))
  exact consistent_congr (fun a ha b hb => compareJobs_eq (ready_of_mem ha) (ready_of_mem hb)) hchain

theorem compareJobs_neg_iff (ha : a.isReady now = true) (hb : b.isReady now = true) :
    compareJobs a b < 0 ↔ Before a b := by
  have heq := compareJobs_eq ha hb
  obtain ⟨_, t, ht, _⟩ := (isReady_iff now a).mp ha
  obtain ⟨_, u, hu, _⟩ := (isReady_iff now b).mp hb
  simp only [heq, thenBy_neg_iff, byKey, priorityKey, timeKey, idKey, Before, ht, hu, Option.getD_some,
    Option.some.injEq]
  constructor
  · intro h
    by_cases hp : b.priority < a.priority
    · exact .inl hp
    · exact .inr ⟨by omega, t, u, rfl, rfl, by omega⟩
  · rintro (hp | ⟨hp, _, _, rfl, rfl, h⟩) <;> omega

/-- Jobs tie only when they have the same id. -/
theorem jobId_eq_of_tie (ha : a.isReady now = true) (hb : b.isReady now = true)
    (h : compareJobs a b = 0) : a.jobId = b.jobId := by
  rw [compareJobs_eq ha hb, thenBy_eq_zero_iff, thenBy_eq_zero_iff] at h
  have hid : (a.jobId : Int) - b.jobId = 0 := h.2.2
  omega

/-! ### The result of the sort -/

theorem eq_of_jobId (hids : (jobs.map JobRecord.jobId).Nodup) (ha : a ∈ jobs) (hb : b ∈ jobs)
    (h : a.jobId = b.jobId) : a = b := List.inj_on_of_nodup_map hids ha hb h

theorem sortReadyJobs_perm (S : Sorter (JobRecord K V)) (now : Int) (jobs : List (JobRecord K V)) :
    (sortReadyJobs S now jobs).Perm (jobs.filter (JobRecord.isReady now)) :=
  S.perm (compareJobs_consistent now jobs)

theorem sortReadyJobs_ordered (S : Sorter (JobRecord K V)) (now : Int)
    (hids : (jobs.map JobRecord.jobId).Nodup) : (sortReadyJobs S now jobs).Pairwise Before := by
  have hperm := sortReadyJobs_perm S now jobs
  have hmem : ∀ job ∈ sortReadyJobs S now jobs, job ∈ jobs ∧ job.isReady now = true :=
    fun job hjob => List.mem_filter.mp (hperm.mem_iff.mp hjob)
  have hdistinct : (sortReadyJobs S now jobs).Nodup :=
    hperm.nodup_iff.mpr ((List.Nodup.of_map _ hids).filter _)
  have hboth := (S.ordered (compareJobs_consistent now jobs)).and hdistinct
  refine hboth.imp_of_mem fun {a b} ha hb hab => ?_
  obtain ⟨ha, hra⟩ := hmem a ha
  obtain ⟨hb, hrb⟩ := hmem b hb
  rw [← compareJobs_neg_iff hra hrb]
  have hne : compareJobs a b ≠ 0 := fun h0 => hab.2 (eq_of_jobId hids ha hb (jobId_eq_of_tie hra hrb h0))
  have hle := hab.1
  omega

theorem sortReadyJobs_congr (S : Sorter (JobRecord K V)) (now : Int)
    (hids : (jobs.map JobRecord.jobId).Nodup) (hp : jobs.Perm jobs') :
    sortReadyJobs S now jobs = sortReadyJobs S now jobs' := by
  refine S.sort_congr (compareJobs_consistent now jobs) ?_ (hp.filter _)
  intro a ha b hb h
  obtain ⟨ha, hra⟩ := List.mem_filter.mp ha
  obtain ⟨hb, hrb⟩ := List.mem_filter.mp hb
  exact eq_of_jobId hids ha hb (jobId_eq_of_tie hra hrb h)

theorem filter_isReady (now : Int) (jobs : List (JobRecord K V)) :
    jobs.filter (JobRecord.isReady now) =
      jobs.filter fun job => job.status = .pending ∧ ∃ t ∈ job.executeAfter, t ≤ now := by
  refine List.filter_congr fun job _ => ?_
  rw [Bool.eq_iff_iff, isReady_iff, decide_eq_true_iff]
  rfl

theorem dispatch_order (S : Sorter (JobRecord K V)) (now : Int) (jobs : List (JobRecord K V))
    (hids : (jobs.map JobRecord.jobId).Nodup) :
    (sortReadyJobs S now jobs).Perm
        (jobs.filter fun job => job.status = .pending ∧ ∃ t ∈ job.executeAfter, t ≤ now) ∧
      (sortReadyJobs S now jobs).Pairwise Before ∧
      ∀ jobs', jobs.Perm jobs' → sortReadyJobs S now jobs' = sortReadyJobs S now jobs :=
  ⟨filter_isReady now jobs ▸ sortReadyJobs_perm S now jobs, sortReadyJobs_ordered S now hids,
    fun _ hp => (sortReadyJobs_congr S now hids hp).symm⟩

/-! ### Three jobs -/

def demoJob (id priority : Nat) (executeAfter : Int) : JobRecord Nat Unit :=
  ⟨id, id, [], (), .pending, priority, some 0, some executeAfter, 0, 3, none, none, none, none, none⟩

/-- The page lists the ids as 2, 0, 1 after a removal. -/
theorem dispatch_order_demo :
    sortReadyJobs (mergeSorter _) 5000 [demoJob 2 1 1000, demoJob 0 1 1000, demoJob 1 2 3000] =
      sortReadyJobs (mergeSorter _) 5000 [demoJob 0 1 1000, demoJob 1 2 3000, demoJob 2 1 1000] :=
  (dispatch_order (mergeSorter _) 5000 [demoJob 0 1 1000, demoJob 1 2 3000, demoJob 2 1 1000]
    (by decide)).2.2 _ (by decide)

end DecQueue.DispatchOrder
