import DecQueue.AccountCodec
import DecQueue.Conservation

/-! # The program on account slices (program/src/lib.rs, account contexts)

What the chain keeps is not records but slices of bytes. An instruction reads
the slices of its accounts, works on the records, and Anchor writes the mutable
accounts back: an account that `init` creates gets a slice of zeros of the
declared space first, every other one keeps the slice it has, and a record that
has become shorter leaves the end of the longer one behind. -/

namespace DecQueue.ByteStore
open Kit.Borsh Kit.BorshDecode Kit.Fallible Kit.Transition State Handlers Outcomes Address Program View Refinement Reachability
  Invariants AuditRecord AccountSpace AccountCodec Conservation

variable {K : Type}

abbrev Store (K : Type) := K → Option Bytes

inductive ByteError where
  | slice (e : SliceError)
  | program (e : ProgramError)
  deriving DecidableEq, Repr

/-! ### The accounts of an instruction -/

/-- The accounts of the program that the context names. -/
def accountsOf : Instruction K → List K
  | .initializeQueue ctx _ _ => [ctx.queue, ctx.queueHead, ctx.firstIndexPage]
  | .growIndex ctx _ => [ctx.queue, ctx.queueHead, ctx.currentTailPage, ctx.newTailPage]
  | .advanceHead ctx => [ctx.queueHead, ctx.headPage]
  | .enqueueJob ctx _ _ _ _ => [ctx.queue, ctx.job, ctx.queueHead, ctx.tailIndexPage]
  | .claimJob ctx => [ctx.job, ctx.sourceIndexPage]
  | .completeJob ctx _ => [ctx.queue, ctx.job]
  | .failJob ctx _ _ => [ctx.queue, ctx.job, ctx.retryIndexPage]
  | .cancelJob ctx => [ctx.queue, ctx.job, ctx.sourceIndexPage]
  | .setQueuePaused ctx _ => [ctx.queue]

/-- Those that are `mut` or `init`, in the order of the context. -/
def mutableAccountsOf : Instruction K → List K
  | .initializeQueue ctx _ _ => [ctx.queue, ctx.queueHead, ctx.firstIndexPage]
  | .growIndex ctx _ => [ctx.queueHead, ctx.currentTailPage, ctx.newTailPage]
  | .advanceHead ctx => [ctx.queueHead]
  | .enqueueJob ctx _ _ _ _ => [ctx.queue, ctx.job, ctx.queueHead, ctx.tailIndexPage]
  | .claimJob ctx => [ctx.job, ctx.sourceIndexPage]
  | .completeJob ctx _ => [ctx.queue, ctx.job]
  | .failJob ctx _ _ => [ctx.queue, ctx.job, ctx.retryIndexPage]
  | .cancelJob ctx => [ctx.queue, ctx.job, ctx.sourceIndexPage]
  | .setQueuePaused ctx _ => [ctx.queue]

/-- The keys the handler stores in a record. -/
def keysStored : Instruction K → List K
  | .initializeQueue ctx _ _ => [ctx.queue, ctx.authority]
  | .growIndex ctx _ => [ctx.queue]
  | .enqueueJob ctx _ _ _ _ => [ctx.queue]
  | .claimJob ctx => [ctx.worker]
  | .advanceHead _ | .completeJob _ _ | .failJob _ _ _ | .cancelJob _ | .setQueuePaused _ _ => []

/-! ### The machine -/

section
variable [DecidableEq K] (discriminators : Discriminators) (codec : KeyCodec K)

/-- The records that can be read. -/
def records (store : Store K) : Ledger K := fun k =>
  (store k).bind (readAccount discriminators codec)

/-- A slice that is there must be that of a record. -/
def checkReadable (store : Store K) (k : K) : Except ByteError Unit :=
  match store k with
  | none => .ok ()
  | some slice =>
      if (readAccount discriminators codec slice).isSome then .ok ()
      else .error (.slice .accountDidNotDeserialize)

/-- `exit` of the account at `k`; without a slice, the account is a new one. -/
def exitAccount (L : Ledger K) (store : Store K) (k : K) : Except ByteError (Store K) :=
  match L k with
  | none => .ok store
  | some data =>
      let slice := (store k).getD (List.replicate (space data) 0)
      match writeBack (discriminatorOf discriminators) codec.pubkey data slice with
      | some slice' => .ok (Function.update store k (some slice'))
      | none => .error (.slice .accountDidNotSerialize)

variable [AddressDerivation K]

def execBytes (clock : Int64) (store : Store K) (ix : Instruction K) :
    Except ByteError (Store K × List (Event K)) := do
  (accountsOf ix).forM (checkReadable discriminators codec store)
  match exec clock (records discriminators codec store) ix with
  | .error e => .error (.program e)
  | .ok (L, evs) => do
      let store ← (mutableAccountsOf ix).foldlM (exitAccount discriminators codec L) store
      pure (store, evs)

def stepBytes (store : Store K) (tx : Tx K) : Option (Store K) :=
  match execBytes discriminators codec tx.clock store tx.ix with
  | .ok (store', _) => some store'
  | .error _ => none

def noAccounts : Store K := fun _ => none

end

/-! ### What an instruction writes -/

/-- `L'` differs from `L` at the accounts `ks` only, and these exist in it. -/
structure Wrote (L L' : Ledger K) (ks : List K) : Prop where
  same : ∀ k, k ∉ ks → L' k = L k
  there : ∀ k ∈ ks, ∃ data, L' k = some data

def Each (P : Account K → Prop) (L : Ledger K) : Prop := ∀ k data, L k = some data → P data

theorem Wrote.refl (L : Ledger K) : Wrote L L [] := ⟨fun _ _ => rfl, List.forall_mem_nil _⟩

section
variable [DecidableEq K] {L L' : Ledger K} {ks : List K}

theorem Wrote.write (h : Wrote L L' ks) (k : K) (data : Account K) :
    Wrote L (write L' k data) (ks ++ [k]) := by
  constructor
  · intro k' hk'
    simp only [List.mem_append, List.mem_singleton, not_or] at hk'
    rw [write_of_ne hk'.2, h.same k' hk'.1]
  · intro k' hk'
    by_cases he : k' = k
    · exact ⟨data, by rw [he, write_self]⟩
    · rw [write_of_ne he]
      simp only [List.mem_append, List.mem_singleton, he, or_false] at hk'
      exact h.there k' hk'

theorem Each.write {P : Account K → Prop} (h : Each P L) (k : K) {data : Account K} (hdata : P data) :
    Each P (Program.write L k data) := by
  intro k' data' hk'
  by_cases he : k' = k
  · rw [he, write_self] at hk'
    cases hk'
    exact hdata
  · rw [write_of_ne he] at hk'
    exact h k' data' hk'

variable [AddressDerivation K] {clock : Int64} {ix : Instruction K} {evs : List (Event K)}

theorem exec_wrote (h : exec clock L ix = .ok (L', evs)) : Wrote L L' (mutableAccountsOf ix) := by
  have hrefl := Wrote.refl L
  cases ix with
  | initializeQueue ctx queueName maxRetries =>
    simp only [exec, execInitializeQueue, bind_ok_iff, pure_ok_iff] at h
    obtain ⟨_, _, _, _, _, _, _, _, hout⟩ := h
    cases hout
    exact ((hrefl.write _ _).write _ _).write _ _
  | growIndex ctx newSeq =>
    simp only [exec, execGrowIndex, bind_ok_iff, pure_ok_iff] at h
    obtain ⟨_, _, _, _, _, _, _, _, _, _, _, _, _, _, hout⟩ := h
    cases hout
    exact ((hrefl.write _ _).write _ _).write _ _
  | advanceHead ctx =>
    simp only [exec, execAdvanceHead, bind_ok_iff, pure_ok_iff] at h
    obtain ⟨_, _, _, _, _, _, _, _, _, _, hout⟩ := h
    cases hout
    exact hrefl.write _ _
  | enqueueJob ctx payload jobType priority executeAfter =>
    simp only [exec, execEnqueueJob, bind_ok_iff, pure_ok_iff] at h
    obtain ⟨_, _, _, _, _, _, _, _, _, _, _, _, _, _, hout⟩ := h
    cases hout
    exact (((hrefl.write _ _).write _ _).write _ _).write _ _
  | claimJob ctx =>
    simp only [exec, execClaimJob, bind_ok_iff, pure_ok_iff] at h
    obtain ⟨_, _, _, _, _, _, _, _, hout⟩ := h
    cases hout
    exact (hrefl.write _ _).write _ _
  | completeJob ctx result =>
    simp only [exec, execCompleteJob, bind_ok_iff, pure_ok_iff] at h
    obtain ⟨_, _, _, _, _, _, _, _, hout⟩ := h
    cases hout
    exact (hrefl.write _ _).write _ _
  | failJob ctx errorMessage retryAfterSecs =>
    simp only [exec, execFailJob, bind_ok_iff, pure_ok_iff] at h
    obtain ⟨_, _, _, _, _, _, _, _, _, _, _, _, hout⟩ := h
    cases hout
    exact ((hrefl.write _ _).write _ _).write _ _
  | cancelJob ctx =>
    simp only [exec, execCancelJob, bind_ok_iff, pure_ok_iff] at h
    obtain ⟨_, _, _, _, _, _, _, _, _, _, _, _, hout⟩ := h
    cases hout
    exact ((hrefl.write _ _).write _ _).write _ _
  | setQueuePaused ctx paused =>
    simp only [exec, execSetQueuePaused, bind_ok_iff, pure_ok_iff] at h
    obtain ⟨_, _, _, _, hout⟩ := h
    cases hout
    exact hrefl.write _ _

/-! ### The keys in the records -/

def KeysKnown (codec : KeyCodec K) : Account K → Prop
  | .queue q => codec.Known q.authority
  | .queueHead h => codec.Known h.authority
  | .jobIndex p => codec.Known p.queue
  | .job j => codec.Known j.queue ∧ ∀ w ∈ j.worker, codec.Known w

variable {codec : KeyCodec K}

theorem keysKnown_exec (hL : Each (KeysKnown codec) L) (hkeys : ∀ k ∈ keysStored ix, codec.Known k)
    (h : exec clock L ix = .ok (L', evs)) : Each (KeysKnown codec) L' := by
  cases ix with
  | initializeQueue ctx queueName maxRetries =>
    simp only [exec, execInitializeQueue, bind_ok_iff, checkInit_ok_iff, lift_ok_iff,
      initializeQueue_ok_iff, pure_ok_iff] at h
    obtain ⟨_, _, _, _, _, _, _, ⟨_, _, rfl⟩, hout⟩ := h
    cases hout
    have hqueue : codec.Known ctx.queue := hkeys _ (by simp [keysStored])
    have hauthority : codec.Known ctx.authority := hkeys _ (by simp [keysStored])
    refine ((hL.write _ ?_).write _ ?_).write _ ?_
    · exact hauthority
    · exact hauthority
    · exact hqueue
  | growIndex ctx newSeq =>
    simp only [exec, execGrowIndex, bind_ok_iff, loadQueue_ok_iff, loadQueueHead_ok_iff,
      loadJobIndex_ok_iff, lift_ok_iff, growIndex_ok_iff, pure_ok_iff] at h
    obtain ⟨_, _, head, hhead, tail, htail, _, _, _, _, _, _, _, ⟨_, _, _, _, rfl⟩, hout⟩ := h
    cases hout
    have hqueue : codec.Known ctx.queue := hkeys _ (by simp [keysStored])
    have hauthority := hL _ _ hhead
    have hpage := hL _ _ htail
    refine ((hL.write _ ?_).write _ ?_).write _ ?_
    · exact hauthority
    · exact hpage
    · exact hqueue
  | advanceHead ctx =>
    simp only [exec, execAdvanceHead, bind_ok_iff, loadQueueHead_ok_iff, lift_ok_iff,
      advanceHead_ok_iff, pure_ok_iff] at h
    obtain ⟨head, hhead, _, _, _, _, _, _, _, ⟨_, _, rfl⟩, hout⟩ := h
    cases hout
    have hauthority := hL _ _ hhead
    refine hL.write _ ?_
    exact hauthority
  | enqueueJob ctx payload jobType priority executeAfter =>
    simp only [exec, execEnqueueJob, bind_ok_iff, loadQueue_ok_iff, loadQueueHead_ok_iff,
      loadJobIndex_ok_iff, lift_ok_iff, enqueueJob_ok_iff, pure_ok_iff] at h
    obtain ⟨q, hq, head, hhead, tail, htail, _, _, _, _, _, _, _, ⟨_, _, _, _, _, _, _, _, rfl⟩,
      hout⟩ := h
    cases hout
    have hqueue : codec.Known ctx.queue := hkeys _ (by simp [keysStored])
    have hauthority := hL _ _ hq
    have hheadOk := hL _ _ hhead
    have hpage := hL _ _ htail
    refine (((hL.write _ ?_).write _ ?_).write _ ?_).write _ ?_
    · exact hauthority
    · exact ⟨hqueue, fun w hw => absurd hw (Option.not_mem_none w)⟩
    · exact hheadOk
    · exact hpage
  | claimJob ctx =>
    simp only [exec, execClaimJob, bind_ok_iff, loadJob_ok_iff, loadJobIndex_ok_iff, lift_ok_iff,
      claimJob_ok_iff, pure_ok_iff] at h
    obtain ⟨j, hj, p, hp, _, _, _, ⟨_, _, p', hremove, rfl⟩, hout⟩ := h
    cases hout
    have hworker : codec.Known ctx.worker := hkeys _ (by simp [keysStored])
    have hjob := hL _ _ hj
    have hpage := hL _ _ hp
    refine (hL.write _ ?_).write _ ?_
    · exact ⟨hjob.1, fun w hw => Option.mem_some.mp hw ▸ hworker⟩
    · show codec.Known p'.queue
      rw [(removeJob_fields hremove).1]
      exact hpage
  | completeJob ctx result =>
    simp only [exec, execCompleteJob, bind_ok_iff, loadQueue_ok_iff, loadJob_ok_iff, lift_ok_iff,
      completeJob_ok_iff, pure_ok_iff] at h
    obtain ⟨q, hq, j, hj, _, _, _, ⟨_, _, _, _, rfl⟩, hout⟩ := h
    cases hout
    have hauthority := hL _ _ hq
    have hjob := hL _ _ hj
    refine (hL.write _ ?_).write _ ?_
    · exact hauthority
    · exact hjob
  | failJob ctx errorMessage retryAfterSecs =>
    simp only [exec, execFailJob, bind_ok_iff, loadQueue_ok_iff, loadJob_ok_iff,
      loadJobIndex_ok_iff, lift_ok_iff, pure_ok_iff] at h
    obtain ⟨q, hq, j, hj, p, hp, _, _, _, _, r, hok, hout⟩ := h
    have hauthority := hL _ _ hq
    have hjob := hL _ _ hj
    have hpage := hL _ _ hp
    by_cases hretry : j.attempts < j.maxRetries
    · obtain ⟨_, _, rfl⟩ := (failJob_retry_iff _ _ _ _ _ _ _ _ hretry _).mp hok
      cases hout
      refine ((hL.write _ hauthority).write _ ?_).write _ ?_
      · exact ⟨hjob.1, fun w hw => absurd hw (Option.not_mem_none w)⟩
      · exact hpage
    · obtain ⟨_, _, rfl⟩ := (failJob_dead_iff _ _ _ _ _ _ _ _ hretry _).mp hok
      cases hout
      refine ((hL.write _ ?_).write _ ?_).write _ hpage
      · exact hauthority
      · exact hjob
  | cancelJob ctx =>
    simp only [exec, execCancelJob, bind_ok_iff, loadQueue_ok_iff, loadJob_ok_iff,
      loadJobIndex_ok_iff, lift_ok_iff, cancelJob_ok_iff, pure_ok_iff] at h
    obtain ⟨q, hq, j, hj, p, hp, _, _, _, _, _, ⟨_, _, p', hremove, rfl⟩, hout⟩ := h
    cases hout
    have hauthority := hL _ _ hq
    have hjob := hL _ _ hj
    have hpage := hL _ _ hp
    refine ((hL.write _ ?_).write _ ?_).write _ ?_
    · exact hauthority
    · exact hjob
    · show codec.Known p'.queue
      rw [(removeJob_fields hremove).1]
      exact hpage
  | setQueuePaused ctx paused =>
    simp only [exec, execSetQueuePaused, bind_ok_iff, loadQueue_ok_iff, lift_ok_iff,
      setQueuePaused_ok_iff, pure_ok_iff] at h
    obtain ⟨q, hq, _, ⟨_, rfl⟩, hout⟩ := h
    cases hout
    have hauthority := hL _ _ hq
    refine hL.write _ ?_
    exact hauthority

end

/-! ### Every record of a reachable ledger has an encoding -/

section
variable [DecidableEq K] [AddressDerivation K] {L : Ledger K} {Q : K}

theorem priority_le {v : QueueView K} (hL : Reachable L) (hv : Hosts L Q v) :
    ∀ (i : Nat) j, v.jobs[i]? = some j → j.priority ≤ 2 := by
  refine reachable_invariant (I := fun _ v => ∀ (i : Nat) j, v.jobs[i]? = some j → j.priority ≤ 2)
    ?_ ?_ hL hv
  · intro clock authority Q queueName maxRetries _ i j hj
    simp [initial] at hj
  · intro Q clock ix v v' evs _ h hstep
    cases hstep with
    | growIndex | advanceHead | setQueuePaused => exact h
    | enqueueJob payer payload jobType priority executeAfter hpage hpayload htype hpriority =>
      exact Kit.Lists.forall_concat h rfl hpriority
    | claimJob worker hjob | completeJob worker result hjob
    | retryJob worker errorMessage retryAfterSecs hjob
    | deadLetter worker errorMessage retryAfterSecs hjob | cancelJob hjob =>
      have hj := h _ _ hjob
      exact Kit.Lists.forall_set (P := fun _ j => Job.priority j ≤ 2) h hjob hj

/-- `hbump`: `find_program_address` returns the bump as a `u8`. -/
theorem encodable_of_reachable {codec : KeyCodec K} (hbump : ∀ s : Seeds K, U8 (bumpOf s))
    (hL : Reachable L) (hkeys : Each (KeysKnown codec) L) : Each (Encodable codec) L := by
  have hwf := reachable_wellFormed hL
  have hfits := reachable_allFit hL
  have hshort : ∀ s : String, s.utf8ByteSize ≤ 128 → ShortString s := fun s h =>
    Nat.lt_of_le_of_lt h (by decide)
  have hword : ∀ n, n ≤ u64Max → U64 n := fun n h => Nat.lt_of_le_of_lt h (by decide)
  intro k data hk
  have hkey := hkeys k data hk
  have hfit := hfits k data hk
  cases data with
  | queue q =>
    obtain ⟨v, hv, hinv, rfl⟩ := reachable_queue hL hk
    have hcount := hinv.counted
    have hjobs := hv.placed.jobCount
    have hlimit := hcount.limit
    have hname : v.queue.name.utf8ByteSize ≤ 32 := hfit
    refine ⟨hkey, hshort _ (by omega), hword _ (by omega), hword _ ?_, hword _ ?_, hword _ ?_, ?_, ?_⟩
    · exact hcount.pending ▸ (tally_le _ _).trans hlimit
    · exact hcount.processed ▸ (tally_le _ _).trans hlimit
    · exact hcount.failed ▸ (tally_le _ _).trans hlimit
    · have hretries := hinv.retries
      show v.queue.maxRetries < 256 ^ 1
      omega
    · rw [hv.placed.queueBump]
      exact hbump _
  | queueHead h =>
    obtain ⟨Q, v, hv, _, rfl⟩ := hwf.head hk
    have hinv := reachable_inv hL hv
    obtain ⟨p, hp⟩ := hinv.linked.page le_rfl
    have hbound := hinv.filled.bounded hp hinv.budget hinv.counted.limit
    have horder := hinv.linked.order
    have htotal := hinv.counted.total
    have hlimit := hinv.counted.limit
    refine ⟨hkey, hword _ (by omega), hword _ (by omega), hword _ (by omega), ?_⟩
    rw [hv.placed.headBump]
    exact hbump _
  | jobIndex p =>
    obtain ⟨v, s, hv, _, hp⟩ := hwf.page hk
    have hinv := reachable_inv hL hv
    obtain ⟨tail, htail⟩ := hinv.linked.page le_rfl
    have hbound := hinv.filled.bounded htail hinv.budget hinv.counted.limit
    have hlength := hinv.linked.length
    have hlt := (List.getElem?_eq_some_iff.mp hp).1
    obtain ⟨_, hseq, hb⟩ := hv.placed.page s p hp
    have hnext := hinv.linked.next s p hp
    have hroom := hinv.linked.room s p hp
    refine ⟨hkey, hword _ (by omega), hword _ ?_, Nat.lt_of_le_of_lt hroom (by decide), ?_, ?_⟩
    · rw [hnext]
      split <;> omega
    · intro id hid
      have hpending := hinv.indexed.pending_of_mem hp hid
      have hlimit := hinv.counted.limit
      refine hword _ ?_
      by_contra hgt
      have hnone : v.jobs[id]? = none := List.getElem?_eq_none (by omega)
      rw [pendingAt, hnone] at hpending
      cases hpending
    · rw [hb]
      exact hbump _
  | job j =>
    obtain ⟨v, hv, hinv, _, hj⟩ := reachable_job hL hk
    have hlt := (List.getElem?_eq_some_iff.mp hj).1
    have hlimit := hinv.counted.limit
    have hpriority := priority_le hL hv _ j hj
    have hsmall := (hinv.budget _ j hj).small
    have hretries := (hinv.budget _ j hj).retries
    obtain ⟨_, _, hb⟩ := hv.placed.job _ j hj
    have hjob : JobFits j := hfit
    have htype := hjob.jobType
    refine ⟨hkey.1, hword _ (by omega), hshort _ (by omega),
      Nat.lt_of_le_of_lt hjob.payload (by decide), ?_, ?_, ?_, hkey.2,
      fun r hr => hshort r (hjob.result r hr), fun e he => hshort e (hjob.errorMessage e he), ?_⟩
    · show j.priority < 256 ^ 1
      omega
    · show j.attempts < 256 ^ 1
      omega
    · show j.maxRetries < 256 ^ 1
      omega
    · rw [hb]
      exact hbump _

end

/-! ### The slices follow the records -/

section
variable {discriminators : Discriminators} {codec : KeyCodec K} {L L' : Ledger K} {store : Store K}

/-- A slice of the space of its type that holds the record. -/
structure Slice (discriminators : Discriminators) (codec : KeyCodec K) (slice : Bytes)
    (data : Account K) : Prop where
  length : slice.length = space data
  holds : Holds discriminators codec data slice

def Represents (discriminators : Discriminators) (codec : KeyCodec K) (store : Store K)
    (L : Ledger K) : Prop := ∀ k, Option.Rel (Slice discriminators codec) (store k) (L k)

theorem Represents.slice (h : Represents discriminators codec store L) {k : K} {data : Account K}
    (hk : L k = some data) : ∃ slice, store k = some slice ∧ Slice discriminators codec slice data := by
  have hrel := h k
  rw [hk] at hrel
  cases hs : store k with
  | none =>
    rw [hs] at hrel
    cases hrel
  | some slice =>
    rw [hs] at hrel
    cases hrel with
    | some hslice => exact ⟨slice, rfl, hslice⟩

theorem Represents.none (h : Represents discriminators codec store L) {k : K} (hk : L k = none) :
    store k = none := by
  have hrel := h k
  rw [hk] at hrel
  cases hs : store k with
  | none => rfl
  | some slice =>
    rw [hs] at hrel
    cases hrel

theorem records_eq (h : Represents discriminators codec store L) (henc : Each (Encodable codec) L) :
    records discriminators codec store = L := by
  funext k
  unfold records
  cases hk : L k with
  | none =>
    rw [h.none hk]
    rfl
  | some data =>
    obtain ⟨slice, hs, hslice⟩ := h.slice hk
    rw [hs, Option.bind_some]
    exact readAccount_iff.mpr ⟨henc k data hk, hslice.holds⟩

theorem checkReadable_ok (h : Represents discriminators codec store L)
    (henc : Each (Encodable codec) L) (k : K) : checkReadable discriminators codec store k = .ok () := by
  unfold checkReadable
  cases hk : L k with
  | none => rw [h.none hk]
  | some data =>
    obtain ⟨slice, hs, hslice⟩ := h.slice hk
    have hread := readAccount_iff.mpr ⟨henc k data hk, hslice.holds⟩
    simp only [hs, hread, Option.isSome_some, if_true]

theorem forM_checkReadable (h : Represents discriminators codec store L)
    (henc : Each (Encodable codec) L) (ks : List K) :
    ks.forM (checkReadable discriminators codec store) = .ok () := by
  induction ks with
  | nil => rfl
  | cons k ks ih =>
    show (checkReadable discriminators codec store k >>= fun _ =>
      ks.forM (checkReadable discriminators codec store)) = .ok ()
    rw [checkReadable_ok h henc k]
    exact ih

variable [DecidableEq K]

/-- The slice to be written over: none, or one of the right size. -/
def Ready (L : Ledger K) (store : Store K) (k : K) : Prop :=
  ∃ data, L k = some data ∧ Fits data ∧ ∀ slice ∈ store k, slice.length = space data

theorem exitAccount_ok (discriminators : Discriminators) (codec : KeyCodec K) {k : K}
    (h : Ready L store k) : ∃ data slice, L k = some data ∧ Slice discriminators codec slice data ∧
      exitAccount discriminators codec L store k = .ok (Function.update store k (some slice)) := by
  obtain ⟨data, hk, hfits, hsize⟩ := h
  have hlength : ((store k).getD (List.replicate (space data) 0)).length = space data := by
    cases hs : store k with
    | none => exact List.length_replicate
    | some slice => exact hsize slice hs
  have hroom : 8 + (serialize codec.pubkey data).length ≤ space data := serialize_le hfits
  obtain ⟨hwrite, hlen⟩ := writeBack_eq (discriminatorOf discriminators) hroom hlength
  refine ⟨data, _, hk, ⟨hlen.trans hlength, holds_of_writeBack hwrite⟩, ?_⟩
  simp only [exitAccount, hk, hwrite]

/-- Writing back a list of accounts, each at least once. -/
theorem exitAccounts_ok (discriminators : Discriminators) (codec : KeyCodec K) {ks : List K}
    (h : ∀ k ∈ ks, Ready L store k) :
    ∃ store', ks.foldlM (exitAccount discriminators codec L) store = .ok store' ∧
      (∀ k, k ∉ ks → store' k = store k) ∧
      ∀ k ∈ ks, Option.Rel (Slice discriminators codec) (store' k) (L k) := by
  induction ks generalizing store with
  | nil => exact ⟨store, rfl, fun _ _ => rfl, List.forall_mem_nil _⟩
  | cons k ks ih =>
    obtain ⟨hready, hrest⟩ := List.forall_mem_cons.mp h
    obtain ⟨data, slice, hk, hslice, hexit⟩ := exitAccount_ok discriminators codec hready
    have hnext : ∀ k' ∈ ks, Ready L (Function.update store k (some slice)) k' := by
      intro k' hk'
      obtain ⟨data', hdata', hfits, hsize⟩ := hrest k' hk'
      refine ⟨data', hdata', hfits, fun slice' hslice' => ?_⟩
      by_cases he : k' = k
      · subst he
        cases hk.symm.trans hdata'
        rw [Function.update_self] at hslice'
        cases hslice'
        exact hslice.length
      · rw [Function.update_of_ne he] at hslice'
        exact hsize slice' hslice'
    obtain ⟨store', hfold, hsame, hwritten⟩ := ih hnext
    refine ⟨store', ?_, fun k' hk' => ?_, fun k' hk' => ?_⟩
    · rw [List.foldlM_cons, hexit]
      exact hfold
    · simp only [List.mem_cons, not_or] at hk'
      rw [hsame k' hk'.2, Function.update_of_ne hk'.1]
    · by_cases hmem : k' ∈ ks
      · exact hwritten k' hmem
      · have he : k' = k := (List.mem_cons.mp hk').resolve_right hmem
        subst he
        rw [hsame k' hmem, Function.update_self, hk]
        exact .some hslice

variable [AddressDerivation K]

/-- What the two machines keep. -/
structure Paired (discriminators : Discriminators) (codec : KeyCodec K) (store : Store K)
    (L : Ledger K) : Prop where
  reachable : Reachable L
  keys : Each (KeysKnown codec) L
  represents : Represents discriminators codec store L

/-- The bytes and the records accept an instruction together and stay together. -/
theorem paired_step (hbump : ∀ s : Seeds K, U8 (bumpOf s)) {tx : Tx K}
    (h : Paired discriminators codec store L) (hkeys : ∀ k ∈ keysStored tx.ix, codec.Known k) :
    Option.Rel (Paired discriminators codec) (stepBytes discriminators codec store tx) (step L tx) := by
  have henc := encodable_of_reachable hbump h.reachable h.keys
  have hrecords := records_eq h.represents henc
  have hreadable := forM_checkReadable h.represents henc (accountsOf tx.ix)
  cases hexec : exec tx.clock L tx.ix with
  | error e =>
    have hbytes : stepBytes discriminators codec store tx = none := by
      simp only [stepBytes, execBytes, hreadable, hrecords, hexec]
      rfl
    have hstep : step L tx = none := by simp only [step, hexec]
    rw [hbytes, hstep]
    exact .none
  | ok r =>
    obtain ⟨L', evs⟩ := r
    have hstep : step L tx = some L' := by simp only [step, hexec]
    have hL' : Reachable L' := h.reachable.next hstep
    have hwrote := exec_wrote hexec
    have hready : ∀ k ∈ mutableAccountsOf tx.ix, Ready L' store k := by
      intro k hk
      obtain ⟨data, hdata⟩ := hwrote.there k hk
      refine ⟨data, hdata, reachable_allFit hL' k data hdata, fun slice hslice => ?_⟩
      -- the slice is that of the record before, whose type has not changed
      cases hold : L k with
      | none =>
        rw [h.represents.none hold] at hslice
        cases hslice
      | some old =>
        obtain ⟨slice', hs, hrep⟩ := h.represents.slice hold
        cases hs.symm.trans hslice
        obtain ⟨data', hdata', hsame⟩ := account_step (reachable_wellFormed h.reachable) hstep hold
        cases hdata.symm.trans hdata'
        exact hrep.length.trans (space_of_sameAccount hsame).symm
    obtain ⟨store', hfold, hsame, hwritten⟩ := exitAccounts_ok discriminators codec hready
    have hbytes : stepBytes discriminators codec store tx = some store' := by
      simp only [stepBytes, execBytes, hreadable, hrecords, hexec]
      simp only [hfold, bind, Except.bind, pure, Except.pure]
    rw [hbytes, hstep]
    refine .some ⟨hL', keysKnown_exec h.keys hkeys hexec, fun k => ?_⟩
    by_cases hk : k ∈ mutableAccountsOf tx.ix
    · exact hwritten k hk
    · rw [hsame k hk, hwrote.same k hk]
      exact h.represents k

theorem paired_start : Paired discriminators codec noAccounts (genesis : Ledger K) :=
  ⟨Kit.Transition.Reachable.refl _, fun _ _ hk => absurd hk (Option.not_mem_none _), fun _ => .none⟩

theorem paired_run (hbump : ∀ s : Seeds K, U8 (bumpOf s)) {txs : List (Tx K)}
    (hkeys : ∀ tx ∈ txs, ∀ k ∈ keysStored tx.ix, codec.Known k) :
    Option.Rel (Paired discriminators codec) (run (stepBytes discriminators codec) noAccounts txs)
      (run step genesis txs) := by
  have hstep : ∀ store L (tx : Tx K), Paired discriminators codec store L →
      (∀ k ∈ keysStored tx.ix, codec.Known k) →
      Option.Rel (Paired discriminators codec) (stepBytes discriminators codec store tx) (step L tx) :=
    fun _ _ _ h hC => paired_step hbump h hC
  exact run_lockstep hstep paired_start hkeys

/-- The program on slices and the program on records are one program: any list
of transactions is accepted by both or by neither, and reading all slices at
the end gives the records. No slice ever changes its length. -/
theorem bytes_agree (hbump : ∀ s : Seeds K, U8 (bumpOf s)) (txs : List (Tx K))
    (hkeys : ∀ tx ∈ txs, ∀ k ∈ keysStored tx.ix, codec.Known k) :
    (run (stepBytes discriminators codec) noAccounts txs).map (records discriminators codec) =
        run step genesis txs ∧
      ∀ store ∈ run (stepBytes discriminators codec) noAccounts txs, ∀ k, ∀ slice ∈ store k,
        ∃ data, readAccount discriminators codec slice = some data ∧ slice.length = space data := by
  have hrel : Option.Rel (Paired discriminators codec)
      (run (stepBytes discriminators codec) noAccounts txs) (run step genesis txs) :=
    paired_run hbump hkeys
  generalize run (stepBytes discriminators codec) noAccounts txs = a at hrel ⊢
  generalize run step genesis txs = b at hrel ⊢
  cases hrel with
  | none => exact ⟨rfl, fun store hstore => absurd hstore (Option.not_mem_none store)⟩
  | @some store L hpair =>
    have henc := encodable_of_reachable hbump hpair.reachable hpair.keys
    refine ⟨congrArg some (records_eq hpair.represents henc), fun store' hstore k slice hslice => ?_⟩
    cases hstore
    cases hk : L k with
    | none =>
      rw [hpair.represents.none hk] at hslice
      cases hslice
    | some data =>
      obtain ⟨slice', hs, hrep⟩ := hpair.represents.slice hk
      cases hs.symm.trans hslice
      exact ⟨data, readAccount_iff.mpr ⟨henc k data hk, hrep.holds⟩, hrep.length⟩

end

/-! ### The small run in bytes -/

def demoTag : AccountType → Vector UInt8 8
  | .queue => Vector.replicate 8 1
  | .queueHead => Vector.replicate 8 2
  | .jobIndex => Vector.replicate 8 3
  | .job => Vector.replicate 8 4

theorem demoTag_injective : Function.Injective demoTag := by
  intro t t' h
  have hfirst := congrArg (fun v => v[0]) h
  cases t <;> cases t' <;> first | rfl | cases hfirst

def demoDiscriminators : Discriminators := ⟨demoTag, demoTag_injective⟩

def demoCodec : KeyCodec Key := queueCodec "jobs"

theorem demoClaimed_encodable : Encodable demoCodec (.job demoClaimed) :=
  ⟨by decide, by decide, by decide, by decide, by decide, by decide, by decide,
    fun w hw => by cases hw; decide, fun r hr => absurd hr (Option.not_mem_none r),
    fun e he => absurd he (Option.not_mem_none e), by decide⟩

/-- The claimed job, over a slice full of old bytes. -/
theorem read_after_write_demo : ∃ slice',
    writeBack (discriminatorOf demoDiscriminators) demoCodec.pubkey (.job demoClaimed)
        (List.replicate jobSpace 7) = some slice' ∧
      slice'.length = (List.replicate jobSpace (7 : UInt8)).length ∧
      ∀ t data', (tryDeserialize demoDiscriminators demoCodec t slice' = .ok data' ↔
          t = typeOf (.job demoClaimed) ∧ data' = .job demoClaimed) ∧
        (t ≠ typeOf (.job demoClaimed) →
          tryDeserialize demoDiscriminators demoCodec t slice' =
            .error .accountDiscriminatorMismatch) :=
  read_after_write demoClaimed_encodable
    (serialize_le (reachable_allFit demo_reachable _ _ demo_claimed)) List.length_replicate

theorem bytes_agree_demo :
    (run (stepBytes demoDiscriminators demoCodec) noAccounts demoRun).map
        (records demoDiscriminators demoCodec) = run step genesis demoRun ∧
      ∀ store ∈ run (stepBytes demoDiscriminators demoCodec) noAccounts demoRun, ∀ k,
        ∀ slice ∈ store k, ∃ data, readAccount demoDiscriminators demoCodec slice = some data ∧
          slice.length = space data := by
  have hkeys : ∀ tx ∈ demoRun, ∀ k ∈ keysStored tx.ix, demoCodec.Known k := by decide
  have hbump : ∀ s : Seeds Key, U8 (bumpOf s) := fun _ => (by decide : 255 < 256 ^ 1)
  exact bytes_agree hbump demoRun hkeys

end DecQueue.ByteStore
