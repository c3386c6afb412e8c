import DecQueue.EventLog
import DecQueue.JsonParse
import DecQueue.Snapshot

/-! # The event feed of the dashboard (app/src/solana.ts)

`subscribeToQueueEvents` turns each event of a queue into one line of text. A
line leaves out who acted, when, and with what result; what is left still tells
the status and the attempts of every job, and hence all counters, at any later
moment. -/

namespace DecQueue.LiveFeed
open Kit.Fallible Kit.Transition State Handlers Outcomes Address Program View Refinement Reachability
  Invariants EventLog DecqueueCore Utf16 JsonText JsonParse

variable {K : Type}

/-! ### subscribeToQueueEvents -/

/-- ``JOB #${event.jobId.toNumber()}`` and the rest of the line. -/
def jobLine (jobId : Nat) (rest : JsString) : Except ClientError JsString := do
  let n ← toNumber jobId
  pure (utf16 "JOB #" ++ (numberToString 10 n ++ rest))

def formatEvent (toBase58 : K → JsString) : Event K → Except ClientError JsString
  | .jobEnqueued _ jobId jobType _ _ _ =>
      jobLine jobId (utf16 " [" ++ (utf16 jobType ++ utf16 "] ENQUEUED"))
  | .jobClaimed _ jobId worker _ _ =>
      let key := toBase58 worker
      jobLine jobId (utf16 " CLAIMED by " ++ (key.take 4 ++ (utf16 "..." ++ key.drop (key.length - 4))))
  | .jobCompleted _ jobId _ _ _ => jobLine jobId (utf16 " COMPLETED")
  | .jobFailed _ jobId attempts _ _ =>
      jobLine jobId (utf16 " FAILED after " ++ (numberToString 10 attempts ++ utf16 " attempts"))
  | .jobRetrying _ jobId attempt _ _ =>
      jobLine jobId (utf16 " RETRYING -> attempt " ++ numberToString 10 attempt)
  | .jobCancelled _ jobId _ _ => jobLine jobId (utf16 " CANCELLED")
  | .queuePauseChanged _ paused _ =>
      .ok (utf16 "QUEUE " ++ (if paused then utf16 "PAUSED" else utf16 "RESUMED"))
  | .queueCreated _ _ _ => .ok (utf16 "queueCreated")

def eventName : Event K → String
  | .queueCreated _ _ _ => "queueCreated"
  | .queuePauseChanged _ _ _ => "queuePauseChanged"
  | .jobEnqueued _ _ _ _ _ _ => "jobEnqueued"
  | .jobClaimed _ _ _ _ _ => "jobClaimed"
  | .jobCompleted _ _ _ _ _ => "jobCompleted"
  | .jobRetrying _ _ _ _ _ => "jobRetrying"
  | .jobFailed _ _ _ _ _ => "jobFailed"
  | .jobCancelled _ _ _ _ => "jobCancelled"

def eventNames : List String :=
  ["jobEnqueued", "jobClaimed", "jobCompleted", "jobFailed", "jobRetrying", "jobCancelled",
    "queuePauseChanged"]

/-- The guard of the listener: an event that names another queue is left out. -/
def listens (toBase58 : K → JsString) (queuePublicKey : K) (event : Event K) : Bool :=
  eventNames.contains (eventName event) &&
    match queueOf event with
    | some queue => toBase58 queue == [] || toBase58 queue == toBase58 queuePublicKey
    | none => true

/-- The line an event adds. No line is added when `toNumber` throws in the
listener. -/
def onEvent (toBase58 : K → JsString) (queuePublicKey : K) (event : Event K) : Option JsString :=
  if listens toBase58 queuePublicKey event then (formatEvent toBase58 event).toOption else none

def feed (toBase58 : K → JsString) (queuePublicKey : K) (events : List (Event K)) : List JsString :=
  events.filterMap (onEvent toBase58 queuePublicKey)

/-! ### What a line tells -/

inductive News where
  | enqueued (jobId : Nat) (jobType : String)
  | claimed (jobId : Nat)
  | completed (jobId : Nat)
  | failed (jobId attempts : Nat)
  | retrying (jobId attempt : Nat)
  | cancelled (jobId : Nat)
  | paused (paused : Bool)
  deriving DecidableEq

def newsOf : Event K → Option News
  | .jobEnqueued _ jobId jobType _ _ _ => some (.enqueued jobId jobType)
  | .jobClaimed _ jobId _ _ _ => some (.claimed jobId)
  | .jobCompleted _ jobId _ _ _ => some (.completed jobId)
  | .jobFailed _ jobId attempts _ _ => some (.failed jobId attempts)
  | .jobRetrying _ jobId attempt _ _ => some (.retrying jobId attempt)
  | .jobCancelled _ jobId _ _ => some (.cancelled jobId)
  | .queuePauseChanged _ paused _ => some (.paused paused)
  | .queueCreated _ _ _ => none

/-- The number at the head of a text. -/
def leadingNumber (text : JsString) : Nat := decimalValue (text.takeWhile isDigit)

/-- The part behind the job id. The second unit tells the lines apart, the
third one those that begin with a C. -/
def readJob (jobId : Nat) : JsString → Option News
  | _ :: 0x5B :: text => some (.enqueued jobId (toUnicode (text.take (text.length - 10))))
  | _ :: 0x43 :: 0x4C :: _ => some (.claimed jobId)
  | _ :: 0x43 :: 0x4F :: _ => some (.completed jobId)
  | _ :: 0x43 :: 0x41 :: _ => some (.cancelled jobId)
  | _ :: 0x46 :: text => some (.failed jobId (leadingNumber (text.drop 12)))
  | _ :: 0x52 :: text => some (.retrying jobId (leadingNumber (text.drop 19)))
  | _ => none

def readLine (line : JsString) : Option News :=
  match line with
  | 0x51 :: _ => some (.paused (line.length == 12))
  | _ => readJob (leadingNumber (line.drop 5)) (skipDigits (line.drop 5))

/-! ### Lines are read back -/

theorem digit_decimal : ∀ d < 10, (digit d).toNat - 0x30 = d ∧ isDigit (digit d) = true := by decide

theorem decimalValue_numberToString (n : Nat) : decimalValue (numberToString 10 n) = n := by
  have hfold : ∀ l : List Nat, (∀ d ∈ l, d < 10) →
      l.foldr (fun d m => 10 * m + ((digit d).toNat - 0x30)) 0 = Nat.ofDigits 10 l := by
    intro l hl
    induction l with
    | nil => rfl
    | cons d l ih =>
      obtain ⟨hd, hl⟩ := List.forall_mem_cons.mp hl
      rw [List.foldr_cons, ih hl, Nat.ofDigits_cons, (digit_decimal d hd).1]
      exact Nat.add_comm ..
  unfold numberToString
  split
  next hn =>
    rw [hn]
    rfl
  next =>
    rw [decimalValue, List.foldl_map, List.foldl_reverse,
      hfold _ fun d hd => Nat.digits_lt_base (by decide) hd, Nat.ofDigits_digits]

theorem isDigit_numberToString (n : Nat) : ∀ u ∈ numberToString 10 n, isDigit u = true := by
  unfold numberToString
  split
  next => exact List.forall_mem_singleton.mpr rfl
  next =>
    intro u hu
    obtain ⟨d, hd, rfl⟩ := List.mem_map.mp hu
    exact (digit_decimal d (Nat.digits_lt_base (by decide) (List.mem_reverse.mp hd))).2

/-- A number ends where the words go on. -/
theorem number_read (n : Nat) {rest : JsString} (h : ∀ u ∈ rest.head?, isDigit u = false) :
    leadingNumber (numberToString 10 n ++ rest) = n ∧ skipDigits (numberToString 10 n ++ rest) = rest := by
  have htake : rest.takeWhile isDigit = [] ∧ rest.dropWhile isDigit = rest := by
    cases rest with
    | nil => exact ⟨rfl, rfl⟩
    | cons u rest =>
      have hu := h u rfl
      simp only [List.takeWhile_cons, List.dropWhile_cons, hu, Bool.false_eq_true, if_false, and_self]
  rw [leadingNumber, skipDigits, List.takeWhile_append_of_pos (isDigit_numberToString n),
    List.dropWhile_append_of_pos (isDigit_numberToString n), htake.1, htake.2, List.append_nil,
    decimalValue_numberToString]
  exact ⟨rfl, rfl⟩

theorem leadingNumber_last (n : Nat) : leadingNumber (numberToString 10 n) = n := by
  have hnil : ∀ u ∈ ([] : JsString).head?, isDigit u = false := nofun
  have hnumber := (number_read n hnil).1
  rwa [List.append_nil] at hnumber

theorem leadingNumber_blank (n : Nat) (rest : JsString) :
    leadingNumber (numberToString 10 n ++ 0x20 :: rest) = n ∧
      skipDigits (numberToString 10 n ++ 0x20 :: rest) = 0x20 :: rest := by
  apply number_read
  intro u hu
  cases hu
  rfl

/-- A blank follows the job id. -/
theorem readLine_jobLine {jobId : Nat} {rest line : JsString} (h : jobLine jobId rest = .ok line)
    (hrest : ∃ text, rest = 0x20 :: text) : readLine line = readJob jobId rest := by
  obtain ⟨text, rfl⟩ := hrest
  simp only [jobLine, bind_ok_iff, Snapshot.toNumber_ok_iff, pure_ok_iff] at h
  obtain ⟨_, ⟨_, rfl⟩, rfl⟩ := h
  have hread : readLine (utf16 "JOB #" ++ (numberToString 10 jobId ++ 0x20 :: text)) =
      readJob (leadingNumber (numberToString 10 jobId ++ 0x20 :: text))
        (skipDigits (numberToString 10 jobId ++ 0x20 :: text)) := rfl
  obtain ⟨hnumber, hskip⟩ := leadingNumber_blank jobId text
  rw [hread, hnumber, hskip]

/-- The line of an event that has one tells its news. -/
theorem readLine_formatEvent {toBase58 : K → JsString} {event : Event K} {line : JsString}
    (hname : eventName event ∈ eventNames) (h : formatEvent toBase58 event = .ok line) :
    readLine line = newsOf event := by
  cases event with
  | queueCreated => simp [eventName, eventNames] at hname
  | queuePauseChanged _ paused =>
    cases h
    cases paused <;> rfl
  | jobEnqueued _ jobId jobType =>
    rw [readLine_jobLine h ⟨_, rfl⟩]
    have hread : readJob jobId (utf16 " [" ++ (utf16 jobType ++ utf16 "] ENQUEUED")) =
        some (.enqueued jobId (toUnicode ((utf16 jobType ++ utf16 "] ENQUEUED").take
          ((utf16 jobType ++ utf16 "] ENQUEUED").length - 10)))) := rfl
    have hlength : (utf16 jobType ++ utf16 "] ENQUEUED").length - 10 = (utf16 jobType).length := by
      rw [List.length_append]
      exact Nat.add_sub_cancel ..
    rw [hread, hlength, List.take_left, toUnicode_utf16]
    rfl
  | jobClaimed _ jobId worker =>
    rw [readLine_jobLine h ⟨_, rfl⟩]
    rfl
  | jobCompleted _ jobId =>
    rw [readLine_jobLine h ⟨_, rfl⟩]
    rfl
  | jobRetrying _ jobId attempt =>
    rw [readLine_jobLine h ⟨_, rfl⟩]
    have hread : readJob jobId (utf16 " RETRYING -> attempt " ++ numberToString 10 attempt) =
        some (.retrying jobId (leadingNumber (numberToString 10 attempt))) := rfl
    rw [hread, leadingNumber_last]
    rfl
  | jobFailed _ jobId attempts =>
    rw [readLine_jobLine h ⟨_, rfl⟩]
    have hread : readJob jobId (utf16 " FAILED after " ++ (numberToString 10 attempts ++ utf16 " attempts")) =
        some (.failed jobId (leadingNumber (numberToString 10 attempts ++ 0x20 :: utf16 "attempts"))) := rfl
    rw [hread, (leadingNumber_blank attempts _).1]
    rfl
  | jobCancelled _ jobId =>
    rw [readLine_jobLine h ⟨_, rfl⟩]
    rfl

/-! ### Which events get a line -/

/-- What the listener relies on: no address is written as the empty text, and
none but the queue's own as the queue's. -/
def Distinguishes (toBase58 : K → JsString) (Q : K) : Prop :=
  ∀ k, toBase58 k ≠ [] ∧ (toBase58 k = toBase58 Q → k = Q)

section
variable {toBase58 : K → JsString} {Q : K} {event : Event K}

/-- All events but `QueueCreated` are subscribed to, the same that name a queue. -/
theorem contains_eventName (event : Event K) :
    eventNames.contains (eventName event) = (queueOf event).isSome := by
  cases event <;> rfl

theorem listens_iff (hnames : Distinguishes toBase58 Q) :
    listens toBase58 Q event = true ↔ queueOf event = some Q := by
  rw [listens, contains_eventName]
  cases queueOf event with
  | none => simp only [Option.isSome_none, Bool.false_and, Bool.false_eq_true, reduceCtorEq]
  | some k =>
    rw [Option.isSome_some, Bool.true_and, Bool.or_eq_true, beq_iff_eq, beq_iff_eq,
      or_iff_right (hnames k).1, Option.some_inj]
    exact ⟨(hnames k).2, congrArg toBase58⟩

def News.jobId? : News → Option Nat
  | .enqueued jobId _ | .claimed jobId | .completed jobId | .failed jobId _ | .retrying jobId _
  | .cancelled jobId => some jobId
  | .paused _ => none

theorem jobLine_ok {jobId : Nat} (h : jobId < 2 ^ 53) (rest : JsString) :
    ∃ line, jobLine jobId rest = .ok line := by
  have hnumber : toNumber jobId = .ok jobId := if_pos h
  exact ⟨_, by rw [jobLine, hnumber]; rfl⟩

theorem formatEvent_ok (toBase58 : K → JsString) {news : News} (hnews : newsOf event = some news)
    (hsmall : ∀ jobId ∈ news.jobId?, jobId < 2 ^ 53) :
    ∃ line, formatEvent toBase58 event = .ok line := by
  cases event with
  | queueCreated => cases hnews
  | queuePauseChanged => exact ⟨_, rfl⟩
  | _ =>
    cases hnews
    exact jobLine_ok (hsmall _ rfl) _

end

/-! ### The board -/

structure Glance where
  jobType : String
  status : JobStatus
  attempts : Nat
  deriving DecidableEq

/-- What someone knows who reads the lines: the jobs in the order of their ids. -/
structure Board where
  jobs : List Glance
  paused : Bool
  deriving DecidableEq

def Board.change (board : Board) (jobId : Nat) (f : Glance → Glance) : Board :=
  { board with jobs := board.jobs.modify jobId f }

def note (board : Board) : News → Board
  | .enqueued _ jobType => { board with jobs := board.jobs ++ [⟨jobType, .pending, 0⟩] }
  | .claimed jobId => board.change jobId fun g =>
      { g with status := .processing, attempts := (checkedAdd u8Max g.attempts 1).getD u8Max }
  | .completed jobId => board.change jobId fun g => { g with status := .completed }
  | .failed jobId attempts => board.change jobId fun g => { g with status := .failed, attempts := attempts }
  | .retrying jobId attempt => board.change jobId fun g => { g with status := .pending, attempts := attempt }
  | .cancelled jobId => board.change jobId fun g => { g with status := .cancelled }
  | .paused paused => { board with paused := paused }

def watch (board : Board) (lines : List JsString) : Board :=
  lines.foldl (fun board line => (readLine line).elim board (note board)) board

theorem watch_append (board : Board) (lines lines' : List JsString) :
    watch board (lines ++ lines') = watch (watch board lines) lines' := List.foldl_append ..

theorem feed_append (toBase58 : K → JsString) (Q : K) (events events' : List (Event K)) :
    feed toBase58 Q (events ++ events') = feed toBase58 Q events ++ feed toBase58 Q events' :=
  List.filterMap_append ..

section
variable {toBase58 : K → JsString} {Q : K}

theorem feed_other (hnames : Distinguishes toBase58 Q) {events : List (Event K)}
    (h : ∀ event ∈ events, queueOf event ≠ some Q) : feed toBase58 Q events = [] := by
  apply List.filterMap_eq_nil_iff.mpr
  intro event hmem
  have hlisten : ¬listens toBase58 Q event = true := fun hl => h event hmem ((listens_iff hnames).mp hl)
  rw [onEvent, if_neg hlisten]

theorem watch_event (hnames : Distinguishes toBase58 Q) {event : Event K} {news : News}
    (hqueue : queueOf event = some Q) (hnews : newsOf event = some news)
    (hsmall : ∀ jobId ∈ news.jobId?, jobId < 2 ^ 53) (board : Board) :
    watch board (feed toBase58 Q [event]) = note board news := by
  obtain ⟨line, hline⟩ := formatEvent_ok toBase58 hnews hsmall
  have hlisten := (listens_iff hnames).mpr hqueue
  have hname : eventName event ∈ eventNames :=
    List.contains_iff_mem.mp ((Bool.and_eq_true ..).mp hlisten).1
  have hread : readLine line = some news := (readLine_formatEvent hname hline).trans hnews
  have hone : onEvent toBase58 Q event = some line := by
    rw [onEvent, if_pos hlisten, hline]
    rfl
  simp only [feed, List.filterMap_cons, hone, List.filterMap_nil, watch, List.foldl_cons, List.foldl_nil,
    hread, Option.elim_some]

end

/-! ### One step of a queue -/

def glance (j : Job K) : Glance := ⟨j.jobType, j.status, j.attempts⟩

def boardOf (v : QueueView K) : Board := ⟨v.jobs.map glance, v.queue.paused⟩

theorem modify_glance {jobs : List (Job K)} {i : Nat} {j j' : Job K} {f : Glance → Glance}
    (hj : jobs[i]? = some j) (hf : f (glance j) = glance j') :
    (jobs.map glance).modify i f = (jobs.set i j').map glance := by
  apply List.ext_getElem?
  intro t
  rw [List.getElem?_modify, List.getElem?_map, List.getElem?_map, Kit.Lists.getElem?_set_of_some j' hj]
  by_cases ht : i = t
  · subst ht
    simp only [hj, if_true, Option.map_some, Option.map_eq_map, hf]
  · simp only [ht, Ne.symm ht, if_false, Option.map_eq_map, Option.map_id']

section
variable [AddressDerivation K] {toBase58 : K → JsString} {Q : K} {v v' : QueueView K}

theorem watch_change (hnames : Distinguishes toBase58 Q) (hq : Placed Q v) (hsmall : v.jobs.length ≤ 2 ^ 53)
    {i : Nat} {j j' : Job K} (hj : v.jobs[i]? = some j) {event : Event K} {news : News}
    (hqueue : queueOf event = some Q) (hnews : newsOf event = some news)
    (hid : news.jobId? = some j.jobId) {f : Glance → Glance}
    (hnote : ∀ board, note board news = board.change j.jobId f) (hf : f (glance j) = glance j') :
    watch (boardOf v) (feed toBase58 Q [event]) = ⟨(v.jobs.set i j').map glance, v.queue.paused⟩ := by
  have hi := (List.getElem?_eq_some_iff.mp hj).1
  have he := (hq.job i j hj).2.1
  have hlt : ∀ jobId ∈ news.jobId?, jobId < 2 ^ 53 := by
    intro jobId hmem
    cases hid.symm.trans hmem
    omega
  rw [watch_event hnames hqueue hnews hlt, hnote, Board.change, boardOf, he, modify_glance hj hf]

/-- What a step adds to the feed turns the board before it into the board after it. -/
theorem watch_step {clock : Int64} {ix : Instruction K} {evs : List (Event K)}
    (hnames : Distinguishes toBase58 Q) (hq : Placed Q v) (h : QueueStep Q clock ix v v' evs)
    (hsmall : v'.jobs.length ≤ 2 ^ 53) : watch (boardOf v) (feed toBase58 Q evs) = boardOf v' := by
  cases h with
  | growIndex | advanceHead => rfl
  | enqueueJob =>
    rw [List.length_append, List.length_singleton] at hsmall
    have hcount := hq.jobCount
    refine (watch_event hnames rfl rfl ?_ _).trans ?_
    · intro jobId h
      cases h
      omega
    · simp only [note, boardOf, List.map_append, List.map_singleton]
      rfl
  | claimJob worker hjob =>
    rw [List.length_set] at hsmall
    have hqueue := congrArg some (hq.job _ _ hjob).1
    exact watch_change hnames hq hsmall hjob hqueue rfl rfl (fun _ => rfl) rfl
  | completeJob worker result hjob =>
    rw [List.length_set] at hsmall
    exact watch_change hnames hq hsmall hjob rfl rfl rfl (fun _ => rfl) rfl
  | retryJob worker errorMessage retryAfterSecs hjob =>
    rw [List.length_set] at hsmall
    exact watch_change hnames hq hsmall hjob rfl rfl rfl (fun _ => rfl) rfl
  | deadLetter worker errorMessage retryAfterSecs hjob =>
    rw [List.length_set] at hsmall
    exact watch_change hnames hq hsmall hjob rfl rfl rfl (fun _ => rfl) rfl
  | cancelJob hjob =>
    rw [List.length_set] at hsmall
    exact watch_change hnames hq hsmall hjob rfl rfl rfl (fun _ => rfl) rfl
  | setQueuePaused paused =>
    refine (watch_event hnames rfl rfl ?_ _).trans rfl
    intro jobId h
    cases h

theorem jobs_length_le {clock : Int64} {ix : Instruction K} {evs : List (Event K)}
    (h : QueueStep Q clock ix v v' evs) : v.jobs.length ≤ v'.jobs.length := by
  cases h with
  | growIndex | advanceHead | setQueuePaused => exact Nat.le_refl _
  | enqueueJob =>
    rw [List.length_append]
    exact Nat.le_add_right ..
  | claimJob | completeJob | retryJob | deadLetter | cancelJob => rw [List.length_set]

end

/-! ### Over a run -/

section
variable [AddressDerivation K] [DecidableEq K] {toBase58 : K → JsString} {L M : Ledger K} {Q : K}

/-- The feed of a dashboard that subscribes at `L`, every event delivered once
and in order. -/
def feedFrom (toBase58 : K → JsString) (Q : K) (L : Ledger K) (txs : List (Tx K)) : List JsString :=
  feed toBase58 Q (outputs step emitted L txs)

omit [DecidableEq K] in
theorem feed_noStep (hnames : Distinguishes toBase58 Q) {clock : Int64} {ix : Instruction K}
    {evs : List (Event K)} (h : NoStep clock L Q ix evs) : feed toBase58 Q evs = [] := by
  cases h with
  | create => exact feed_other hnames (by simp [queueOf])
  | other hne hw hstep =>
    refine feed_other hnames fun e he hq => hne ?_
    exact Option.some.inj (hq.symm.trans (queueOf_step hw.placed hstep e he))

theorem watch_run (hnames : Distinguishes toBase58 Q) (hL : Reachable L) {v : QueueView K}
    (hv : Hosts L Q v) {txs : List (Tx K)} (hrun : run step L txs = some M) :
    ∃ w, Hosts M Q w ∧
      (w.jobs.length ≤ 2 ^ 53 → watch (boardOf v) (feedFrom toBase58 Q L txs) = boardOf w) := by
  apply run_history (P := fun M txs => ∃ w, Hosts M Q w ∧
    (w.jobs.length ≤ 2 ^ 53 → watch (boardOf v) (feedFrom toBase58 Q L txs) = boardOf w)) _ _ hrun
  · exact ⟨v, hv, fun _ => rfl⟩
  · intro M txs tx M' hrun ih hstep
    obtain ⟨u, hu, hboard⟩ := ih
    have heffect := effect_emitted (reachable_wellFormed (hL.extend hrun)) hstep
    rw [feedFrom, outputs_snoc tx hrun, feed_append, ← feedFrom]
    cases heffect.effectAt Q with
    | created _ _ _ _ hfree => exact absurd hu (hfree u)
    | @stepped u₀ w hu₀ hw hq =>
      cases hu.unique hu₀
      refine ⟨w, hw, fun hsmall => ?_⟩
      rw [watch_append, hboard ((jobs_length_le hq).trans hsmall), watch_step hnames hu.placed hq hsmall]
    | untouched hsame hno =>
      rw [feed_noStep hnames hno, List.append_nil]
      exact ⟨u, (hsame u).mpr hu, hboard⟩

def glanceAt (L : Ledger K) (Q : K) (jobId : Nat) : Option Glance :=
  match L (address (.job Q jobId)) with
  | some (.job job) => some (glance job)
  | _ => none

/-- The board is right about every job of the queue, and so about its counters. -/
structure Tells (L : Ledger K) (Q : K) (board : Board) : Prop where
  job : ∀ jobId, board.jobs[jobId]? = glanceAt L Q jobId
  queue : ∃ queue, L Q = some (.queue queue) ∧ board.paused = queue.paused ∧
    board.jobs.length = queue.jobCount ∧
    board.jobs.countP (fun g => active g.status) = queue.pendingCount ∧
    board.jobs.countP (fun g => g.status == .completed) = queue.processedCount ∧
    board.jobs.countP (fun g => g.status == .failed) = queue.failedCount

omit [DecidableEq K] in
theorem glanceAt_eq {v : QueueView K} (hv : Hosts L Q v) (jobId : Nat) :
    glanceAt L Q jobId = (boardOf v).jobs[jobId]? := by
  rw [glanceAt, hv.view.jobAt, boardOf, List.getElem?_map]
  cases v.jobs[jobId]? <;> rfl

omit [AddressDerivation K] [DecidableEq K] in
theorem countP_glance (f : JobStatus → Bool) (jobs : List (Job K)) :
    (jobs.map glance).countP (fun g => f g.status) = tally f jobs := by
  rw [List.countP_map]
  rfl

omit [DecidableEq K] in
theorem tells_boardOf {v : QueueView K} (hv : Hosts L Q v) (hinv : Inv v) : Tells L Q (boardOf v) where
  job jobId := (glanceAt_eq hv jobId).symm
  queue := by
    refine ⟨v.queue, hv.view.queueAt, rfl, ?_, ?_, ?_, ?_⟩
    · rw [hv.placed.jobCount, boardOf, List.length_map]
    · rw [boardOf, countP_glance, hinv.counted.pending]
    · rw [boardOf, countP_glance (· == .completed), hinv.counted.processed]
    · rw [boardOf, countP_glance (· == .failed), hinv.counted.failed]

omit [DecidableEq K] in
theorem Tells.eq {v : QueueView K} {board : Board} (h : Tells L Q board) (hv : Hosts L Q v) :
    board = boardOf v := by
  obtain ⟨queue, hqueue, hpaused, _⟩ := h.queue
  cases hv.view.queueAt.symm.trans hqueue
  have hjobs : board.jobs = (boardOf v).jobs := by
    apply List.ext_getElem?
    intro jobId
    rw [h.job, glanceAt_eq hv]
  cases board
  cases hjobs
  cases hpaused
  rfl

/-- Who starts with the right board and reads every line has the right board
after any run. -/
theorem feed_follows (hnames : Distinguishes toBase58 Q) (hL : Reachable L) {board : Board}
    (hboard : Tells L Q board) {txs : List (Tx K)} (hrun : run step L txs = some M)
    (hsmall : ∀ queue, M Q = some (.queue queue) → queue.jobCount ≤ 2 ^ 53) :
    Tells M Q (watch board (feedFrom toBase58 Q L txs)) := by
  obtain ⟨queue, hqueue, _⟩ := hboard.queue
  obtain ⟨v, hv, _, _⟩ := reachable_queue hL hqueue
  obtain ⟨w, hw, hwatch⟩ := watch_run hnames hL hv hrun
  have hle : w.jobs.length ≤ 2 ^ 53 := by
    rw [← hw.placed.jobCount]
    exact hsmall w.queue hw.view.queueAt
  rw [hboard.eq hv, hwatch hle]
  exact tells_boardOf hw (reachable_inv (hL.extend hrun) hw)

end

/-! ### The feed of the small queue -/

/-- A key in base 58, as far as the small queue needs one. -/
def demoBase58 (k : Key) : JsString :=
  if k = demoQueue then utf16 "Q" else
    match k with
    | .wallet n => utf16 "Wallet" ++ numberToString 10 n
    | _ => utf16 "P"

theorem demoBase58_distinguishes : Distinguishes demoBase58 demoQueue := by
  have hqueue : demoBase58 demoQueue = utf16 "Q" := rfl
  intro k
  rw [hqueue]
  unfold demoBase58
  split
  next hk => exact ⟨by decide, fun _ => hk⟩
  next =>
    split
    next =>
      constructor
      · intro h
        cases h
      · intro h
        have hhead : (0x57 : UInt16) = 0x51 := (List.cons.inj h).1
        exact absurd hhead (by decide)
    next => exact ⟨by decide, fun h => absurd h (by decide)⟩

theorem feed_follows_demo : ∃ board, Tells (ledgerAfter demoStart) demoQueue board ∧
    feedFrom demoBase58 demoQueue (ledgerAfter demoStart) [⟨3, claimAt demoQueue (.wallet 1) 0 0⟩] =
      [utf16 "JOB #0 CLAIMED by Wall...let1"] ∧
    Tells (ledgerAfter demoRun) demoQueue (watch board [utf16 "JOB #0 CLAIMED by Wall...let1"]) := by
  have hline : feedFrom demoBase58 demoQueue (ledgerAfter demoStart)
      [⟨3, claimAt demoQueue (.wallet 1) 0 0⟩] = [utf16 "JOB #0 CLAIMED by Wall...let1"] := by decide
  obtain ⟨v, hv, hinv, _⟩ := reachable_queue Snapshot.demoStart_reachable Snapshot.demoStart_queue
  refine ⟨boardOf v, tells_boardOf hv hinv, hline, ?_⟩
  rw [← hline]
  apply feed_follows demoBase58_distinguishes Snapshot.demoStart_reachable (tells_boardOf hv hinv)
    (ledgerAfter_extend demoRun_accepted)
  intro queue hqueue
  cases demo_queue.symm.trans hqueue
  decide

end DecQueue.LiveFeed
