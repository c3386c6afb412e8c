import DecQueue.JsonText
import DecQueue.Records
import DecQueue.Client
import DecQueue.Conservation

/-! # The length of a report (client/worker.ts)

What the worker sends when it has executed a job. Both reports are cut to a
number of code units: the result to 120, the error message to 128. The program
limits both to 128 bytes. A report passes when the part that is left after the
cut has few enough units that take more than one byte. -/

namespace DecQueue.ReportLength
open Kit.Fallible State Handlers Outcomes Address Program View Reachability Conservation DecqueueCore
  Utf16 JsonText Records Client

variable {K : Type}

/-! ### Executing a job -/

/-- Values other than objects have none of the properties the worker reads. -/
def property (payload : Json) (name : String) : Option Json :=
  match payload with
  | .object properties => properties.lookup (utf16 name)
  | _ => none

/-- Reading a property of `null` throws, with the message of the engine. -/
def readProperty (payload : Json) (name : String) : Except JsString (Option Json) :=
  match payload with
  | .null => .error (utf16 ("Cannot read properties of null (reading '" ++ name ++ "')"))
  | _ => .ok (property payload name)

/-- `value === true`. -/
def isTrue : Option Json → Bool
  | some (.bool b) => b
  | _ => false

/-- `value ?? fallback`. -/
def coalesce (value : Option Json) (fallback : Json) : Json :=
  match value with
  | none | some .null => fallback
  | some v => v

def compactJson (value : Json) : JsString := (stringify value).take 120

def text (s : String) : Json := .string (utf16 s)

def renderResult (job : Records.JobRecord K Json) : Except JsString JsString := do
  let ok := (utf16 "ok", Json.bool true)
  if job.jobType = utf16 "send-email" then
    let recipient ← readProperty job.payload "to"
    pure (compactJson (.object [ok, (utf16 "to", coalesce recipient (text "unknown")),
      (utf16 "ref", .string (utf16 "msg_" ++ numberToString 36 job.jobId))]))
  else if job.jobType = utf16 "webhook-call" then
    let url ← readProperty job.payload "url"
    pure (compactJson (.object [ok, (utf16 "target", coalesce url (text "unknown")),
      (utf16 "code", .number (decimal 202))]))
  else if job.jobType = utf16 "image-resize" then
    let imageId ← readProperty job.payload "imageId"
    pure (compactJson (.object [ok,
      (utf16 "asset", coalesce imageId (.string (utf16 "img_" ++ (decimal job.jobId).text))),
      (utf16 "variant", text "thumbnail")]))
  else if job.jobType = utf16 "daily-report" then
    let reportId ← readProperty job.payload "reportId"
    pure (compactJson (.object [ok,
      (utf16 "report", coalesce reportId (.string (utf16 "report_" ++ (decimal job.jobId).text)))]))
  else if job.jobType = utf16 "audit-log" then
    pure (compactJson (.object [ok,
      (utf16 "entry", .string (utf16 "audit_" ++ (decimal job.jobId).text))]))
  else
    pure (compactJson (.object [ok, (utf16 "handledBy", text "decqueue-worker"),
      (utf16 "type", .string job.jobType)]))

def executeJob (job : Records.JobRecord K Json) : Except JsString JsString := do
  let fail ← readProperty job.payload "fail"
  let shouldFail ← readProperty job.payload "shouldFail"
  let simulateFailure ← readProperty job.payload "simulateFailure"
  if isTrue fail || isTrue shouldFail || isTrue simulateFailure then
    .error (utf16 "Job payload requested a simulated failure")
  else
    match ← readProperty job.payload "throwMessage" with
    | some (.string throwMessage) =>
        if 0 < (trim throwMessage).length then .error (trim throwMessage) else renderResult job
    | _ => renderResult job

/-- What `processReadyJobs` reports: the message is cut there and once more in
`failWithStrategy`. -/
def outcome (job : Records.JobRecord K Json) : Except String String :=
  match executeJob job with
  | .ok jobResult => .ok (toUnicode jobResult)
  | .error message => .error (toUnicode ((message.take 128).take 128))

def reportText : Except String String → String
  | .ok result => result
  | .error errorMessage => errorMessage

/-! ### The guard -/

section
variable [AddressDerivation K] [DecidableEq K]

/-- The report of a job has at most 128 bytes, and the program never rejects
it for its length. -/
structure ReportPasses (W : Worker K) (job : Records.JobRecord K Json) : Prop where
  bytes : (reportText (outcome job)).utf8ByteSize ≤ 128
  accepted : ∀ held clock L, exec clock L (W.instruction job.publicKey (report held (outcome job))) ≠
    .error (.custom .resultTooLarge)

omit [AddressDerivation K] in
theorem completeJob_tooLarge {clock : Int64} {queueKey worker : K} {queue : Queue K} {job : Job K}
    {result : String}
    (h : completeJob clock queueKey worker queue job (some result) = .error .resultTooLarge) :
    128 < result.utf8ByteSize := by
  simp only [completeJob, resultFits, bind_error_iff, require_error_iff, require_ok_iff, okOr_error_iff,
    pure_error_iff, reduceCtorEq, and_false, and_true, exists_const, false_or, or_false] at h
  omega

omit [AddressDerivation K] in
theorem failJob_tooLarge {clock : Int64} {queueKey worker : K} {queue : Queue K} {job : Job K}
    {page : JobIndex K} {errorMessage : String} {retryAfterSecs : Int64}
    (h : failJob clock queueKey worker queue job page errorMessage retryAfterSecs =
      .error .resultTooLarge) : 128 < errorMessage.utf8ByteSize := by
  simp only [failJob, bind_error_iff, require_error_iff, require_ok_iff, reduceCtorEq, and_false,
    and_true, exists_const, false_or] at h
  rcases h with ⟨_, _, hlong | ⟨_, h⟩⟩
  · omega
  · split at h
    · rcases (bind_error_iff _ _ _).mp h with he | ⟨_, _, he⟩
      · cases pushJob_error he
      · cases he
    · rcases (bind_error_iff _ _ _).mp h with he | ⟨_, _, he⟩
      · cases ((okOr_error_iff _ _ _).mp he).2
      · cases he

/-- A result that is too long is refused while the job is processed, and the job stays so. -/
theorem complete_refused {clock : Int64} {L : Ledger K} {ctx : CompleteJob K} {queue : Queue K} {job : Job K}
    {result : String} (hqueue : L ctx.queue = some (.queue queue)) (hjob : L ctx.job = some (.job job))
    (hown : job.queue = ctx.queue) (hstatus : job.status = .processing)
    (hworker : job.worker = some ctx.worker) (hlong : 128 < result.utf8ByteSize) :
    exec clock L (.completeJob ctx (some result)) = .error (.custom .resultTooLarge) := by
  have htoo : completeJob clock ctx.queue ctx.worker queue job (some result) = .error .resultTooLarge := by
    simp only [completeJob, resultFits, bind_error_iff, require_error_iff, require_ok_iff, hstatus, hworker,
      exists_const, not_true_eq_false, false_and, false_or, true_and, Nat.not_le.mpr hlong, not_false_eq_true,
      true_or]
  simp only [exec, execCompleteJob, bind_error_iff, loadQueue_ok_iff, loadJob_ok_iff, require_error_iff,
    require_ok_iff, lift_error_iff]
  exact .inr ⟨queue, hqueue, .inr ⟨job, hjob, .inr ⟨(), hown, .inl ⟨_, htoo, rfl⟩⟩⟩⟩

theorem reportPasses_iff_bytes (W : Worker K) (job : Records.JobRecord K Json) :
    ReportPasses W job ↔ (reportText (outcome job)).utf8ByteSize ≤ 128 := by
  refine ⟨ReportPasses.bytes, fun hle => ⟨hle, fun held clock L h => ?_⟩⟩
  cases hout : outcome job with
  | ok result =>
    rw [hout] at h hle
    obtain ⟨_, _, _, _, _, he⟩ := execCompleteJob_custom h
    exact absurd hle (Nat.not_le.mpr (completeJob_tooLarge he))
  | error errorMessage =>
    rw [hout] at h hle
    rcases execFailJob_custom h with he | ⟨_, _, _, _, _, _, he⟩
    · cases he
    · exact absurd hle (Nat.not_le.mpr (failJob_tooLarge he))

end

/-! ### Cutting -/

/-- A text between two parts in ASCII: what is left of the three when they are
cut to `limit` units takes at most 128 bytes. -/
def CutFits (limit : Nat) (before middle after : JsString) : Prop :=
  min limit (before.length + middle.length + after.length) +
    extraBytes (middle.take (limit - before.length)) ≤ 128

theorem cut_bytes_iff (limit : Nat) {before after : JsString} (hbefore : Ascii before)
    (middle : JsString) (hafter : Ascii after) :
    (toUnicode ((before ++ middle ++ after).take limit)).utf8ByteSize ≤ 128 ↔
      CutFits limit before middle after := by
  have hextra : extraBytes ((before ++ middle ++ after).take limit) =
      extraBytes (middle.take (limit - before.length)) := by
    rw [List.append_assoc, List.take_append, List.take_append, extraBytes_ascii_append (hbefore.take _),
      extraBytes_append_ascii _ (hafter.take _)]
  rw [utf8ByteSize_toUnicode, hextra, List.length_take, List.length_append, List.length_append, CutFits]

theorem cut_bytes_of_ascii {limit : Nat} (hlimit : limit ≤ 128) {s : JsString} (h : Ascii s) :
    (toUnicode (s.take limit)).utf8ByteSize ≤ 128 := by
  rw [utf8ByteSize_toUnicode, extraBytes_ascii (h.take limit), List.length_take]
  omega

/-! ### What is shown of a job -/

/-- A result, split at the one value that depends on the job's data. -/
structure Shown where
  before : List (JsString × Json)
  name : JsString
  value : Json
  after : List (JsString × Json)

def Shown.object (s : Shown) : Json := .object (s.before ++ (s.name, s.value) :: s.after)

def shown (job : Records.JobRecord K Json) : Shown :=
  let ok := (utf16 "ok", Json.bool true)
  if job.jobType = utf16 "send-email" then
    ⟨[ok], utf16 "to", coalesce (property job.payload "to") (text "unknown"),
      [(utf16 "ref", .string (utf16 "msg_" ++ numberToString 36 job.jobId))]⟩
  else if job.jobType = utf16 "webhook-call" then
    ⟨[ok], utf16 "target", coalesce (property job.payload "url") (text "unknown"),
      [(utf16 "code", .number (decimal 202))]⟩
  else if job.jobType = utf16 "image-resize" then
    ⟨[ok], utf16 "asset",
      coalesce (property job.payload "imageId") (.string (utf16 "img_" ++ (decimal job.jobId).text)),
      [(utf16 "variant", text "thumbnail")]⟩
  else if job.jobType = utf16 "daily-report" then
    ⟨[ok], utf16 "report",
      coalesce (property job.payload "reportId") (.string (utf16 "report_" ++ (decimal job.jobId).text)), []⟩
  else if job.jobType = utf16 "audit-log" then
    ⟨[ok], utf16 "entry", .string (utf16 "audit_" ++ (decimal job.jobId).text), []⟩
  else ⟨[ok, (utf16 "handledBy", text "decqueue-worker")], utf16 "type", .string job.jobType, []⟩

theorem readProperty_eq {payload : Json} (h : payload ≠ .null) (name : String) :
    readProperty payload name = .ok (property payload name) := by
  unfold readProperty
  split
  next => exact absurd rfl h
  next => rfl

theorem renderResult_eq {job : Records.JobRecord K Json} (h : job.payload ≠ .null) :
    renderResult job = .ok (compactJson (shown job).object) := by
  unfold renderResult shown
  simp only [readProperty_eq h]
  split_ifs <;> rfl

theorem shown_plain (job : Records.JobRecord K Json) :
    Plain (shown job).before ∧ Ascii (shown job).name ∧ Plain (shown job).after := by
  have hok : Plain [(utf16 "ok", Json.bool true)] := List.forall_mem_singleton.mpr (by decide)
  have hnil : Plain [] := List.forall_mem_nil _
  unfold shown
  split_ifs
  case pos =>
    have hid := numberToString_ascii (show 1 < 36 by decide) le_rfl job.jobId
    have hmsg : Ascii (utf16 "msg_") := by decide
    have href : Plain [(utf16 "ref", .string (utf16 "msg_" ++ numberToString 36 job.jobId))] :=
      List.forall_mem_singleton.mpr
        ⟨(show Ascii (utf16 "ref") by decide), quoteString_ascii (hmsg.append hid)⟩
    exact ⟨hok, (show Ascii (utf16 "to") by decide), href⟩
  case pos =>
    have hcode : Plain [(utf16 "code", .number (decimal 202))] :=
      List.forall_mem_singleton.mpr ⟨by decide, (decimal 202).ascii⟩
    exact ⟨hok, (show Ascii (utf16 "target") by decide), hcode⟩
  case pos =>
    have hvariant : Plain [(utf16 "variant", text "thumbnail")] :=
      List.forall_mem_singleton.mpr (by decide)
    exact ⟨hok, (show Ascii (utf16 "asset") by decide), hvariant⟩
  case pos => exact ⟨hok, (show Ascii (utf16 "report") by decide), hnil⟩
  case pos => exact ⟨hok, (show Ascii (utf16 "entry") by decide), hnil⟩
  case neg =>
    have hhandled : Plain [(utf16 "ok", Json.bool true), (utf16 "handledBy", text "decqueue-worker")] :=
      List.forall_mem_cons.mpr ⟨by decide, List.forall_mem_singleton.mpr (by decide)⟩
    exact ⟨hhandled, (show Ascii (utf16 "type") by decide), hnil⟩

/-- The result of a job fits: of the text of the shown value, the part inside
the first 120 units has few enough units beyond ASCII. -/
def ResultTextFits (job : Records.JobRecord K Json) : Prop :=
  CutFits 120 (textBefore (shown job).before (shown job).name) (stringify (shown job).value)
    (textAfter (shown job).after)

theorem result_bytes_iff (job : Records.JobRecord K Json) :
    (toUnicode (compactJson (shown job).object)).utf8ByteSize ≤ 128 ↔ ResultTextFits job := by
  obtain ⟨hbefore, hname, hafter⟩ := shown_plain job
  rw [compactJson, Shown.object, stringify_object]
  exact cut_bytes_iff 120 (textBefore_ascii hbefore hname) _ (textAfter_ascii hafter)

/-! ### The condition -/

def simulatesFailure (payload : Json) : Bool :=
  isTrue (property payload "fail") || isTrue (property payload "shouldFail") ||
    isTrue (property payload "simulateFailure")

def thrownMessage (payload : Json) : Option JsString :=
  match property payload "throwMessage" with
  | some (.string throwMessage) =>
      if 0 < (trim throwMessage).length then some (trim throwMessage) else none
  | _ => none

/-- The payload makes the worker report a fixed message, or the message it
asks for fits, or it asks for none and the result fits. -/
def ReportFits (job : Records.JobRecord K Json) : Prop :=
  job.payload = .null ∨ simulatesFailure job.payload = true ∨
    match thrownMessage job.payload with
    | some message => CutFits 128 [] message []
    | none => ResultTextFits job

theorem executeJob_null {job : Records.JobRecord K Json} (h : job.payload = .null) :
    executeJob job = .error (utf16 "Cannot read properties of null (reading 'fail')") := by
  simp only [executeJob, h, readProperty]
  rfl

theorem executeJob_eq {job : Records.JobRecord K Json} (h : job.payload ≠ .null) :
    executeJob job =
      if simulatesFailure job.payload then .error (utf16 "Job payload requested a simulated failure")
      else match thrownMessage job.payload with
        | some message => .error message
        | none => .ok (compactJson (shown job).object) := by
  have hbind : ∀ (x : Option Json) (f : Option Json → Except JsString JsString),
      ((.ok x : Except JsString (Option Json)) >>= f) = f x := fun _ _ => rfl
  simp only [executeJob, readProperty_eq h, renderResult_eq h, hbind, simulatesFailure, thrownMessage]
  congr 1
  cases property job.payload "throwMessage" with
  | none => rfl
  | some v =>
    cases v with
    | string throwMessage =>
      by_cases hempty : 0 < (trim throwMessage).length
      · simp only [if_pos hempty]
      · simp only [if_neg hempty]
    | null | bool _ | number _ | array _ | object _ => rfl

theorem outcome_error {job : Records.JobRecord K Json} {message : JsString}
    (h : executeJob job = .error message) :
    reportText (outcome job) = toUnicode (message.take 128) := by
  simp only [outcome, h, reportText, List.take_take, Nat.min_self]

theorem outcome_ok {job : Records.JobRecord K Json} {jobResult : JsString}
    (h : executeJob job = .ok jobResult) : reportText (outcome job) = toUnicode jobResult := by
  simp only [outcome, h, reportText]

theorem outcome_bytes_iff (job : Records.JobRecord K Json) :
    (reportText (outcome job)).utf8ByteSize ≤ 128 ↔ ReportFits job := by
  by_cases hnull : job.payload = .null
  · have hfits := cut_bytes_of_ascii (show 128 ≤ 128 by decide)
      (show Ascii (utf16 "Cannot read properties of null (reading 'fail')") by decide)
    rw [outcome_error (executeJob_null hnull)]
    exact iff_of_true hfits (.inl hnull)
  have hexec := executeJob_eq hnull
  by_cases hsim : simulatesFailure job.payload = true
  · have hfits := cut_bytes_of_ascii (show 128 ≤ 128 by decide)
      (show Ascii (utf16 "Job payload requested a simulated failure") by decide)
    rw [if_pos hsim] at hexec
    rw [outcome_error hexec]
    exact iff_of_true hfits (.inr (.inl hsim))
  rw [if_neg hsim] at hexec
  rw [ReportFits, or_iff_right hnull, or_iff_right hsim]
  cases hthrown : thrownMessage job.payload with
  | some message =>
    rw [hthrown] at hexec
    rw [outcome_error hexec]
    simpa only [List.nil_append, List.append_nil] using
      cut_bytes_iff 128 (List.forall_mem_nil _) message (List.forall_mem_nil _)
  | none =>
    rw [hthrown] at hexec
    rw [outcome_ok hexec]
    exact result_bytes_iff job

/-- The report of a job passes exactly when it fits. -/
theorem report_passes_iff [AddressDerivation K] [DecidableEq K] (W : Worker K)
    (job : Records.JobRecord K Json) : ReportPasses W job ↔ ReportFits job :=
  (reportPasses_iff_bytes W job).trans (outcome_bytes_iff job)

theorem resultTextFits_of_ascii {job : Records.JobRecord K Json} (h : Ascii (stringify (shown job).value)) :
    ResultTextFits job := by
  unfold ResultTextFits CutFits
  rw [extraBytes_ascii (h.take _)]
  omega

/-- An audit log shows nothing but the id of the job, so its result always fits. -/
theorem auditLog_fits {job : Records.JobRecord K Json} (h : job.jobType = utf16 "audit-log") :
    ResultTextFits job := by
  have hentry : (shown job).value = .string (utf16 "audit_" ++ (decimal job.jobId).text) := by
    unfold shown
    rw [h, if_neg (by decide), if_neg (by decide), if_neg (by decide), if_neg (by decide), if_pos rfl]
  have haudit : Ascii (utf16 "audit_") := by decide
  apply resultTextFits_of_ascii
  rw [hentry]
  exact quoteString_ascii (haudit.append (decimal job.jobId).ascii)

/-! ### An address with accents -/

/-- The letter U+00E9, two bytes long, 110 times. -/
def accents : JsString := List.replicate 110 0xE9

def accentedPayload : Json := .object [(utf16 "to", .string accents)]

def accentedBytes : Bytes := (toUnicode (stringify accentedPayload)).toUTF8.data.toList

/-- The parser on this one payload. -/
def accentedParse (payload : Bytes) : Except String Json :=
  if payload = accentedBytes then .ok accentedPayload else .error "Unexpected token"

def accentedStart : List (Tx Key) :=
  [⟨0, initializeAt (.wallet 0) "jobs" 3⟩,
    ⟨1, enqueueAt demoQueue (.wallet 5) 0 0 accentedBytes "send-email" 1 0⟩]

def accentedRun : List (Tx Key) := accentedStart ++ [⟨3, claimAt demoQueue (.wallet 1) 0 0⟩]

def accentedJob : Records.JobRecord Key Json :=
  ⟨address (.job demoQueue 0), 0, utf16 "send-email", accentedPayload, .pending, 1, some 1000, some 1000,
    0, 3, none, none, none, none, none⟩

def demoWorker : Worker Key := ⟨.wallet 1, demoQueue, 30, defaultHybridFeeConfig⟩

def accentedAccount : Job Key :=
  ⟨demoQueue, 0, "send-email", accentedBytes, .pending, 1, 1, 1, 0, 3, none, none, none, none, none, 255⟩

theorem accented_pending :
    ledgerAfter accentedStart (address (.job demoQueue 0)) = some (.job accentedAccount) := by
  decide +kernel

theorem accented_claimed : ledgerAfter accentedRun (address (.job demoQueue 0)) =
    some (.job (locked 3 (.wallet 1) accentedAccount)) := by
  decide +kernel

theorem accented_queue : ledgerAfter accentedRun demoQueue =
    some (.queue ⟨.wallet 0, "jobs", 1, 1, 0, 0, 3, false, 0, 255⟩) := by
  decide +kernel

theorem accented_fetched :
    getJob accentedParse (ledgerAfter accentedStart) (address (.job demoQueue 0)) = .ok accentedJob := by
  have hfetch : fetchJob (ledgerAfter accentedStart) (address (.job demoQueue 0)) =
      .ok accentedAccount := by
    simp only [fetchJob, loadJob, accented_pending]
  have hparse : parsePayload accentedParse accentedAccount.payload = .ok accentedPayload := by
    simp only [parsePayload, accentedParse, accentedAccount, if_pos]
  simp only [getJob, bind_ok_iff, pure_ok_iff]
  exact ⟨accentedAccount, hfetch, 0, rfl, accentedPayload, hparse, some 1000, rfl, some 1000, rfl,
    none, rfl, none, rfl, rfl⟩

def accentedResult : String := toUnicode (compactJson (shown accentedJob).object)

theorem accented_outcome : outcome accentedJob = .ok accentedResult := by
  have hexec : executeJob accentedJob = .ok (compactJson (shown accentedJob).object) := by
    have hobject : accentedJob.payload ≠ .null := fun hnull => by cases hnull
    have hquiet : ¬simulatesFailure accentedJob.payload = true := by decide
    rw [executeJob_eq hobject, if_neg hquiet]
    rfl
  simp only [outcome, hexec, accentedResult]

theorem accented_long : 128 < accentedResult.utf8ByteSize := by
  have hfits : ¬ResultTextFits accentedJob := by
    unfold ResultTextFits CutFits
    decide +kernel
  rw [← Nat.not_le]
  exact fun hle => hfits ((result_bytes_iff accentedJob).mp hle)

/-- The payload fits and its job is claimed, but the worker cannot complete it. -/
theorem report_refused :
    serializeJobPayload (.ok (some (stringify accentedPayload))) = .ok accentedAccount.payload ∧
      accentedAccount.payload.length ≤ maxJobPayloadBytes ∧
      getJob accentedParse (ledgerAfter accentedStart) (address (.job demoQueue 0)) = .ok accentedJob ∧
      ¬ReportPasses demoWorker accentedJob ∧
      exec 4 (ledgerAfter accentedRun) (demoWorker.instruction accentedJob.publicKey
        (report 1 (outcome accentedJob))) = .error (.custom .resultTooLarge) := by
  have hbytes : serializeJobPayload (.ok (some (stringify accentedPayload))) =
      .ok accentedAccount.payload := by
    simp only [serializeJobPayload, accentedAccount, accentedBytes]
  refine ⟨hbytes, by decide +kernel, accented_fetched, fun h => ?_, ?_⟩
  · have hle := h.bytes
    rw [accented_outcome] at hle
    exact absurd hle (Nat.not_le.mpr accented_long)
  · rw [accented_outcome]
    exact complete_refused accented_queue accented_claimed rfl rfl rfl accented_long

end DecQueue.ReportLength
