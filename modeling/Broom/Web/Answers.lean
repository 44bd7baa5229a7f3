import Broom.Api.Scans
import Broom.Api.StartJob
import Broom.Service.Confirmed
import Broom.Service.Tenants
import Broom.Web.Counts

/-!
# What the pages read of the server's answers

The handlers answer in JSON, with a status; the client of the pages parses the text, takes
an error out of an answer that is not a success, and checks everything else against a
schema. A slice is an array or null, and both are accepted.
-/

namespace Broom.Web

open Broom.Api Broom.Core Broom.Engine Broom.Jobs Broom.Service

/-! ## The server's JSON -/

namespace Encoding

open Broom.Engine.Encoding

/-- The elements of a slice that was made. -/
def array {α : Type} (put : α → Json) (as : List α) : Json := .arr (as.map put)

def foundFields (f : Jobs.FoundResource) : List (String × Option Json) :=
  [("resourceType", some (.str f.resourceType)),
    ("region", some (.str f.region)),
    ("identifier", some (.str f.identifier)),
    ("nukable", some (.bool f.nukable)),
    ("reason", Codec.string.omitZero f.reason)]

def resultFields (r : Jobs.DeleteResult) : List (String × Option Json) :=
  [("resourceType", some (.str r.resourceType)),
    ("region", some (.str r.region)),
    ("identifier", some (.str r.identifier)),
    ("success", some (.bool r.success)),
    ("warning", Codec.bool.omitZero r.warning),
    ("error", Codec.string.omitZero r.error),
    ("note", Codec.string.omitZero r.note)]

def errorFields (e : Jobs.GeneralError) : List (String × Option Json) :=
  [("resourceType", some (.str e.resourceType)),
    ("message", some (.str e.message)),
    ("error", some (.str e.error))]

def stateName : State → String
  | .queued => "queued"
  | .running => "running"
  | .succeeded => "succeeded"
  | .failed => "failed"
  | .cancelled => "cancelled"

variable (fmt : GoFormat)

def snapshotFields (s : Snapshot) : List (String × Option Json) :=
  [("id", some (.str s.id)),
    ("mode", some (.str s.mode.name)),
    ("state", some (.str (stateName s.state))),
    ("phase", Codec.string.omitZero s.phase),
    ("accountId", some (.str s.accountId)),
    ("spec", some ((spec fmt).put s.spec)),
    ("createdAt", some (.str (fmt.time s.createdAt))),
    ("startedAt", s.startedAt.map fun t => .str (fmt.time t)),
    ("finishedAt", s.finishedAt.map fun t => .str (fmt.time t)),
    ("error", Codec.string.omitZero s.error),
    ("lastSeq", some (Codec.nat.put s.lastSeq)),
    ("scanned", some (Codec.nat.put s.scanned)),
    ("found", some (array (fun f => .record (foundFields f)) s.found)),
    ("results", some (array (fun r => .record (resultFields r)) s.results)),
    ("errors", some (array (fun e => .record (errorFields e)) s.errors)),
    ("summary", s.summary.map summary.put),
    ("logTail", if s.logTail = [] then none else some (array .str s.logTail))]

def briefFields (b : Brief) : List (String × Option Json) :=
  [("id", some (.str b.id)),
    ("mode", some (.str b.mode.name)),
    ("state", some (.str (stateName b.state))),
    ("phase", Codec.string.omitZero b.phase),
    ("accountId", some (.str b.accountId)),
    ("regions", some (Codec.string.list.put b.regions)),
    ("resourceTypes", some (Codec.string.list.put b.resourceTypes)),
    ("olderThan", b.olderThan.map fun d => .str (fmt.duration d)),
    ("createdAt", some (.str (fmt.time b.createdAt))),
    ("startedAt", b.startedAt.map fun t => .str (fmt.time t)),
    ("finishedAt", b.finishedAt.map fun t => .str (fmt.time t)),
    ("error", Codec.string.omitZero b.error),
    ("scanned", some (Codec.nat.put b.scanned)),
    ("found", some (Codec.nat.put b.found)),
    ("selected", some (Codec.nat.put b.selected)),
    ("deleted", some (Codec.nat.put b.deleted)),
    ("warned", some (Codec.nat.put b.warned)),
    ("failed", some (Codec.nat.put b.failed)),
    ("errors", some (Codec.nat.put b.errors)),
    ("summary", b.summary.map summary.put)]

end Encoding

/-- An answer of a handler: its status and the text of its body. -/
structure Answer where
  status : Nat
  body : List Char

/-- Write a value and a newline. -/
def writeJSON (status : Nat) (v : Json) : Answer := ⟨status, v.render ++ ['\n']⟩

def writeError (e : ApiError) : Answer :=
  writeJSON e.status (.record [("error", some (.record
    [("code", some (.str e.code)), ("message", some (.str e.message))]))])

/-- The answer of a reply; an event stream is none, and a job that is still to be started has
none yet. -/
def replyAnswer (fmt : GoFormat) : Reply → Option Answer
  | .error e => some (writeError e)
  | .jobs briefs => some (writeJSON 200 (.record
      [("jobs", some (Encoding.array (fun b => .record (Encoding.briefFields fmt b)) briefs))]))
  | .job (some s) => some (writeJSON 200 (.record (Encoding.snapshotFields fmt s)))
  | .job none => none
  | .state s => some (writeJSON 200 (.record [("state", some (.str (Encoding.stateName s)))]))
  | .events _ _ | .start _ => none

/-! ## The client -/

namespace Schema

/-- A slice, which is an array or null, or left out. -/
def arr {α : Type} (item : Json → Option α) : Option Json → Option (List α)
  | none | some .null => some []
  | some (.arr items) => items.mapM item
  | some _ => none

variable (skips : Bool)

/-- A slice that may be left out as such. It is up to the library whether the schema of the
slice is skipped then, or makes an empty one. -/
def optionalArr {α : Type} (item : Json → Option α) (field : Option Json) :
    Option (Option (List α)) :=
  if skips ∧ field = none then some none else (arr item field).map some

def integer : Json → Option Int
  | .num n => some n
  | _ => none

def state : Json → Option State
  | .str s => [.queued, .running, .succeeded, .failed, .cancelled].find? fun state =>
      Encoding.stateName state = s
  | _ => none

def selection (v : Json) : Option Selection := do
  let resourceType ← required string (v.get? "resourceType")
  let region ← required string (v.get? "region")
  let identifier ← required string (v.get? "identifier")
  return { resourceType := resourceType, region := region, identifier := identifier }

def spec (v : Json) : Option Spec := do
  let mode ← required mode (v.get? "mode")
  let regions ← arr string (v.get? "regions")
  let resourceTypes ← arr string (v.get? "resourceTypes")
  let olderThan ← optional string (v.get? "olderThan")
  let excludeIamUserName ← optional string (v.get? "excludeIamUserName")
  let selections ← optionalArr skips selection (v.get? "selections")
  let parallelism ← optional integer (v.get? "parallelism")
  return { mode := mode, regions := regions, resourceTypes := resourceTypes,
           olderThan := olderThan, excludeIamUserName := excludeIamUserName,
           selections := selections, parallelism := parallelism }

def found (v : Json) : Option FoundResource := do
  let resourceType ← required string (v.get? "resourceType")
  let region ← required string (v.get? "region")
  let identifier ← required string (v.get? "identifier")
  let nukable ← required boolean (v.get? "nukable")
  let reason ← optional string (v.get? "reason")
  return { resourceType := resourceType, region := region, identifier := identifier,
           nukable := nukable, reason := reason }

def result (v : Json) : Option DeleteResult := do
  let resourceType ← required string (v.get? "resourceType")
  let region ← required string (v.get? "region")
  let identifier ← required string (v.get? "identifier")
  let success ← required boolean (v.get? "success")
  let warning ← optional boolean (v.get? "warning")
  let error ← optional string (v.get? "error")
  let note ← optional string (v.get? "note")
  return { resourceType := resourceType, region := region, identifier := identifier,
           success := success, warning := warning, error := error, note := note }

def generalError (v : Json) : Option GeneralError := do
  let resourceType ← required string (v.get? "resourceType")
  let message ← required string (v.get? "message")
  let error ← required string (v.get? "error")
  return { resourceType := resourceType, message := message, error := error }

/-- The schema of snapshots. -/
def job (v : Json) : Option Job := do
  let id ← required string (v.get? "id")
  let mode ← required mode (v.get? "mode")
  let state ← required state (v.get? "state")
  let phase ← optional string (v.get? "phase")
  let accountId ← required string (v.get? "accountId")
  let spec ← required (spec skips) (v.get? "spec")
  let createdAt ← required string (v.get? "createdAt")
  let startedAt ← optional string (v.get? "startedAt")
  let finishedAt ← optional string (v.get? "finishedAt")
  let error ← optional string (v.get? "error")
  let lastSeq ← required number (v.get? "lastSeq")
  let scanned ← required number (v.get? "scanned")
  let found ← arr found (v.get? "found")
  let results ← arr result (v.get? "results")
  let errors ← arr generalError (v.get? "errors")
  let summary ← optional summary (v.get? "summary")
  let logTail ← optionalArr skips string (v.get? "logTail")
  return { id := id, mode := mode, state := state, phase := phase, accountId := accountId,
           spec := spec, createdAt := createdAt, startedAt := startedAt,
           finishedAt := finishedAt, error := error, lastSeq := lastSeq, scanned := scanned,
           found := found, results := results, errors := errors, summary := summary,
           logTail := logTail }

/-- The schema of the list view. -/
def brief (v : Json) : Option JobBrief := do
  let id ← required string (v.get? "id")
  let mode ← required mode (v.get? "mode")
  let state ← required state (v.get? "state")
  let phase ← optional string (v.get? "phase")
  let accountId ← required string (v.get? "accountId")
  let regions ← arr string (v.get? "regions")
  let resourceTypes ← arr string (v.get? "resourceTypes")
  let olderThan ← optional string (v.get? "olderThan")
  let createdAt ← required string (v.get? "createdAt")
  let startedAt ← optional string (v.get? "startedAt")
  let finishedAt ← optional string (v.get? "finishedAt")
  let error ← optional string (v.get? "error")
  let scanned ← required number (v.get? "scanned")
  let found ← required number (v.get? "found")
  let selected ← required number (v.get? "selected")
  let deleted ← required number (v.get? "deleted")
  let warned ← required number (v.get? "warned")
  let failed ← required number (v.get? "failed")
  let errors ← required number (v.get? "errors")
  let summary ← optional summary (v.get? "summary")
  return { id := id, mode := mode, state := state, phase := phase, accountId := accountId,
           regions := regions, resourceTypes := resourceTypes, olderThan := olderThan,
           createdAt := createdAt, startedAt := startedAt, finishedAt := finishedAt,
           error := error, scanned := scanned, found := found, selected := selected,
           deleted := deleted, warned := warned, failed := failed, errors := errors,
           summary := summary }

/-- The schema of the listing. -/
def jobs (v : Json) : Option (List JobBrief) := arr brief (v.get? "jobs")

/-- The schema of the answer to a cancellation. -/
def cancelled (v : Json) : Option State := required state (v.get? "state")

end Schema

/-- Slices that were left out may be read as empty ones. -/
def Spec.parsed (skips : Bool) (s : Spec) : Spec :=
  if skips then s else { s with selections := some (s.selections.getD []) }

def Job.parsed (skips : Bool) (job : Job) : Job :=
  { job with
    spec := job.spec.parsed skips
    logTail := if skips then job.logTail else some (job.logTail.getD []) }

/-- What a call of the client comes to. -/
inductive Fetched (α : Type)
  | ok (value : α)
  | apiError (status : Nat) (code message : String)
  /-- The schema refuses the answer. -/
  | invalid
  deriving DecidableEq, Repr

/-- White space between the tokens of a text. -/
def isBlank (c : Char) : Bool := c ∈ [' ', '\t', '\n', '\r']

/-- `JSON.parse`; there may be white space behind the value. -/
def parseText (text : List Char) : Option Json :=
  match Json.readValue (text.length + 1) text with
  | some (v, rest) => if rest.all isBlank then some v else none
  | none => none

/-- The client's reading of an answer. A body that is no JSON is null. -/
def request {α : Type} (schema : Json → Option α) (a : Answer) : Fetched α :=
  let body := (parseText a.body).getD .null
  if 200 ≤ a.status ∧ a.status < 300 then
    match schema body with
    | some value => .ok value
    | none => .invalid
  else
    let err := (body.get? "error").getD .null
    .apiError a.status (((err.get? "code").bind Schema.string).getD "http_error")
      (((err.get? "message").bind Schema.string).getD ("HTTP " ++ toString a.status))

/-! ## Reading what was written -/

theorem parseText_writeJSON (status : Nat) (v : Json) :
    parseText (writeJSON status v).body = some v := by
  have hlt : v.render.length < (v.render ++ ['\n']).length + 1 := by
    rw [List.length_append]
    omega
  have hread := Json.readValue_render v hlt (show Json.Delimits ['\n'] by simp [Json.Delimits])
  rw [parseText, writeJSON, hread]
  rfl

/-- A value that the schema accepts arrives. -/
theorem request_writeJSON {α : Type} {schema : Json → Option α} {status : Nat} {v : Json}
    {value : α} (hok : 200 ≤ status ∧ status < 300) (h : schema v = some value) :
    request schema (writeJSON status v) = .ok value := by
  rw [request, parseText_writeJSON, Option.getD_some, h]
  exact if_pos hok

/-- An error arrives with its status, its code and its message. -/
theorem request_writeError {α : Type} (schema : Json → Option α) {e : ApiError}
    (h : 300 ≤ e.status) :
    request schema (writeError e) = .apiError e.status e.code e.message := by
  rw [request, writeError, parseText_writeJSON, Option.getD_some]
  exact if_neg fun hok => absurd hok.2 (Nat.not_lt.mpr h)

namespace Schema

open Broom.Web.Encoding

@[simp] theorem required_state (s : State) :
    required state (some (.str (stateName s))) = some s := by
  cases s <;> decide

theorem mapM_map {α β γ : Type} {item : β → Option γ} {put : α → β} {f : α → γ} {as : List α}
    (h : ∀ a ∈ as, item (put a) = some (f a)) : (as.map put).mapM item = some (as.map f) := by
  induction as with
  | nil => rfl
  | cons a as ih =>
    rw [List.map_cons, List.mapM_cons, h a List.mem_cons_self,
      ih fun b hb => h b (List.mem_cons_of_mem a hb)]
    rfl

theorem arr_array {α β : Type} {item : Json → Option β} {put : α → Json} {f : α → β}
    {as : List α} (h : ∀ a ∈ as, item (put a) = some (f a)) :
    arr item (some (array put as)) = some (as.map f) := mapM_map h

@[simp] theorem arr_strings (as : List String) :
    arr string (some (Codec.string.list.put as)) = some as := by
  cases as with
  | nil => rfl
  | cons a as =>
    have h : ((a :: as).map Json.str).mapM string = some ((a :: as).map id) :=
      mapM_map fun _ _ => rfl
    rw [List.map_id] at h
    exact h

@[simp] theorem optional_map {α : Type} (f : α → String) (o : Option α) :
    optional string (o.map fun a => .str (f a)) = some (o.map f) := by
  cases o <;> rfl

@[simp] theorem optional_integer (n : Int) :
    optional integer (Codec.int.omitZero n) = some (if n = 0 then none else some n) := by
  unfold Codec.omitZero
  by_cases h : n = 0
  · rw [if_pos h, if_pos (show n = Codec.int.zero from h)]
    rfl
  · rw [if_neg h, if_neg (show ¬ n = Codec.int.zero from h)]
    rfl

theorem required_mode {m : Mode} (h : m = .scan ∨ m = .nuke) :
    required mode (some (.str m.name)) = some m := by
  rcases h with rfl | rfl <;> rfl

theorem selection_put (s : Selection) :
    selection (.record (Engine.Encoding.selectionFields s)) = some s := by
  have hn : ((Engine.Encoding.selectionFields s).map Prod.fst).Nodup := by
    simp [Engine.Encoding.selectionFields]
  simp only [selection, Json.get?_record hn]
  simp [Engine.Encoding.selectionFields, List.lookup_cons, Codec.string]

/-- An empty slice that is left out may be read as an empty one. -/
theorem optionalArr_omitEmpty (skips : Bool) {α : Type} {item : Json → Option α}
    {put : α → Json} {as : List α} (h : ∀ a ∈ as, item (put a) = some a) :
    optionalArr skips item (if as = [] then none else some (array put as)) =
      some (if skips ∧ as = [] then none else some as) := by
  by_cases has : as = []
  · subst has
    cases skips <;> rfl
  · have harr : arr item (some (array put as)) = some (as.map id) := arr_array h
    rw [List.map_id] at harr
    simp only [optionalArr, has, if_false, and_false, reduceCtorEq, harr]
    rfl

theorem spec_put (skips : Bool) (fmt : GoFormat) {s : Engine.Spec}
    (h : s.mode = .scan ∨ s.mode = .nuke) :
    spec skips (.record (Engine.Encoding.specFields fmt s)) =
      some ((encodeSpec ⟨fmt.time, fmt.duration⟩ s).parsed skips) := by
  have hn : ((Engine.Encoding.specFields fmt s).map Prod.fst).Nodup := by
    simp [Engine.Encoding.specFields]
  have hmode : required mode (some (Engine.Encoding.mode.put s.mode)) = some s.mode :=
    required_mode h
  have holder : optional string (s.olderThan.map (Engine.Encoding.duration fmt).put) =
      some (s.olderThan.map fmt.duration) := optional_map fmt.duration s.olderThan
  have hselections : Engine.Encoding.selection.list.omitZero s.selections =
      if s.selections = [] then none else
        some (array (fun s => .record (Engine.Encoding.selectionFields s)) s.selections) := by
    cases s.selections <;> rfl
  simp only [spec, Json.get?_record hn]
  simp only [Engine.Encoding.specFields, List.lookup_cons, hselections]
  simp [hmode, holder, optionalArr_omitEmpty skips fun s _ => selection_put s]
  cases skips <;> by_cases hsel : s.selections = [] <;> simp [encodeSpec, Spec.parsed, hsel]

@[simp] theorem required_boolean (b : Bool) : required boolean (some (.bool b)) = some b := rfl

theorem found_put (f : Jobs.FoundResource) :
    found (.record (foundFields f)) = some (encodeFound f) := by
  have hn : ((foundFields f).map Prod.fst).Nodup := by simp [foundFields]
  simp only [found, Json.get?_record hn]
  simp [foundFields, List.lookup_cons, encodeFound]

theorem result_put (r : Jobs.DeleteResult) :
    result (.record (resultFields r)) = some (encodeResult r) := by
  have hn : ((resultFields r).map Prod.fst).Nodup := by simp [resultFields]
  simp only [result, Json.get?_record hn]
  simp [resultFields, List.lookup_cons, encodeResult]

theorem generalError_put (e : Jobs.GeneralError) :
    generalError (.record (errorFields e)) = some (encodeError e) := by
  have hn : ((errorFields e).map Prod.fst).Nodup := by simp [errorFields]
  simp only [generalError, Json.get?_record hn]
  simp [errorFields, List.lookup_cons, encodeError]

/-- A summary that is there is one of a scan or of a clean-up. -/
theorem optional_summary {o : Option Summary} (h : ∀ s ∈ o, s.mode = .scan ∨ s.mode = .nuke) :
    optional summary (o.map Engine.Encoding.summary.put) = some o := by
  cases o with
  | none => rfl
  | some s =>
    rw [Option.map_some, optional, summary_put (h s rfl)]
    rfl

/-- The schema accepts a snapshot, with its values. -/
theorem job_put (skips : Bool) (fmt : GoFormat) {s : Snapshot}
    (hmode : s.mode = .scan ∨ s.mode = .nuke)
    (hspec : s.spec.mode = .scan ∨ s.spec.mode = .nuke)
    (hsummary : ∀ sum ∈ s.summary, sum.mode = .scan ∨ sum.mode = .nuke) :
    job skips (.record (snapshotFields fmt s)) =
      some ((encodeSnapshot ⟨fmt.time, fmt.duration⟩ s).parsed skips) := by
  have hn : ((snapshotFields fmt s).map Prod.fst).Nodup := by simp [snapshotFields]
  have hs : required (spec skips) (some ((Engine.Encoding.spec fmt).put s.spec)) =
      some ((encodeSpec ⟨fmt.time, fmt.duration⟩ s.spec).parsed skips) := spec_put skips fmt hspec
  simp only [job, Json.get?_record hn]
  simp only [snapshotFields, List.lookup_cons]
  simp [required_mode hmode, hs, optional_summary hsummary,
    arr_array fun f _ => found_put f, arr_array fun r _ => result_put r,
    arr_array fun e _ => generalError_put e,
    optionalArr_omitEmpty skips fun (line : String) _ => (rfl : string (.str line) = some line)]
  cases skips <;> by_cases hlog : s.logTail = [] <;> simp [encodeSnapshot, Job.parsed, hlog]

/-- The schema accepts a list view, with its values. -/
theorem brief_put (fmt : GoFormat) {b : Brief} (hmode : b.mode = .scan ∨ b.mode = .nuke)
    (hsummary : ∀ sum ∈ b.summary, sum.mode = .scan ∨ sum.mode = .nuke) :
    brief (.record (briefFields fmt b)) =
      some (encodeBrief ⟨fmt.time, fmt.duration⟩ b) := by
  have hn : ((briefFields fmt b).map Prod.fst).Nodup := by simp [briefFields]
  simp only [brief, Json.get?_record hn]
  simp only [briefFields, List.lookup_cons]
  simp [required_mode hmode, optional_summary hsummary, encodeBrief]

end Schema

/-! ## What the calls bring -/

/-- What a page gets of a call that succeeded. -/
inductive Data
  | jobs (briefs : List JobBrief)
  | job (job : Job)
  | state (s : State)
  | started (jobId : String) (job : Job)
  deriving DecidableEq, Repr

/-- The answer to a request that started a job. -/
def acceptedAnswer (fmt : GoFormat) (id : String) (s : Snapshot) : Answer :=
  writeJSON 202 (.record [("job", some (.record (Encoding.snapshotFields fmt s))),
    ("jobId", some (.str id))])

/-- The schema of the answer to a request that starts a job. -/
def Schema.started (skips : Bool) (v : Json) : Option Data := do
  let jobId ← required string (v.get? "jobId")
  let job ← required (Schema.job skips) (v.get? "job")
  return .started jobId job

/-- The client's reading of the answer to a request about jobs. It does not read the event
stream. -/
def readAnswer (skips : Bool) : JobRequest → Answer → Option (Fetched Data)
  | .listJobs, a => some (request (fun v => (Schema.jobs v).map .jobs) a)
  | .getJob _, a => some (request (fun v => (Schema.job skips v).map .job) a)
  | .cancelJob _, a => some (request (fun v => (Schema.cancelled v).map .state) a)
  | .createNuke _, a => some (request (Schema.started skips) a)
  | .jobEvents _ _, _ => none

/-- What a reply tells the page that asked. -/
def told (skips : Bool) (wf : WireFormat) : JobRequest → Reply → Option (Fetched Data)
  | .jobEvents _ _, _ => none
  | _, .error e => some (.apiError e.status e.code e.message)
  | _, .jobs briefs => some (.ok (.jobs (briefs.map (encodeBrief wf))))
  | _, .job s => s.map fun s => .ok (.job ((encodeSnapshot wf s).parsed skips))
  | _, .state s => some (.ok (.state s))
  | _, .events _ _ | _, .start _ => none

/-- What a snapshot takes over of its job. -/
theorem snapshot_own {j : Jobs.Job} {s : Snapshot} (h : j.snapshot = some s) :
    s.mode = j.spec.mode ∧ s.spec = j.spec ∧ s.summary = j.summary := by
  unfold Jobs.Job.snapshot at h
  obtain ⟨found, -, h⟩ := Option.bind_eq_some_iff.mp h
  obtain ⟨results, -, h⟩ := Option.bind_eq_some_iff.mp h
  obtain rfl := Option.some.inj h
  exact ⟨rfl, rfl, rfl⟩

/-- A job whose views the client can read. -/
structure Legible (j : Jobs.Job) : Prop where
  consistent : j.Consistent
  mode : j.spec.mode = .scan ∨ j.spec.mode = .nuke
  summary : ∀ s ∈ j.summary, s.mode = .scan ∨ s.mode = .nuke

namespace Legible

variable {j : Jobs.Job}

/-- The list view of the job arrives. -/
theorem brief_read (h : Legible j) (fmt : GoFormat) :
    Schema.brief (.record (Encoding.briefFields fmt j.brief)) =
      some (encodeBrief ⟨fmt.time, fmt.duration⟩ j.brief) :=
  Schema.brief_put fmt h.mode h.summary

/-- The job has a snapshot, and it arrives. -/
theorem snapshot_read (h : Legible j) (fmt : GoFormat) (skips : Bool) :
    ∃ s, j.snapshot = some s ∧ Schema.job skips (.record (Encoding.snapshotFields fmt s)) =
      some ((encodeSnapshot ⟨fmt.time, fmt.duration⟩ s).parsed skips) := by
  obtain ⟨s, hs, -⟩ := h.consistent.snapshot
  obtain ⟨hmode, hspec, hsummary⟩ := snapshot_own hs
  refine ⟨s, hs, Schema.job_put skips fmt ?_ ?_ ?_⟩
  · rw [hmode]
    exact h.mode
  · rw [hspec]
    exact h.mode
  · rw [hsummary]
    exact h.summary

/-- Every operation keeps a job legible, if the workers' summaries are. -/
theorem step (h : Legible j) {op : JobOp} (hop : ∀ ev now, op = .publish ev now → Emittable ev) :
    Legible (j.step op) := by
  have hspec : (j.step op).spec = j.spec :=
    congrArg (fun p : String × String × String × Engine.Spec => p.2.2.2) (j.identity_step op)
  refine ⟨(h.consistent.step op).1, by rw [hspec]; exact h.mode, ?_⟩
  have hsame (hagg : (j.step op).toAggregates = j.toAggregates) :
      ∀ s ∈ (j.step op).summary, s.mode = .scan ∨ s.mode = .nuke := by
    rw [hagg]
    exact h.summary
  cases op with
  | publish ev now =>
    rw [Jobs.Job.step, (j.publish_same ev now).1]
    have hev : ∀ s ∈ (j.stamp ev now).summary, s.mode = .scan ∨ s.mode = .nuke := hop ev now rfl
    -- only a summary event replaces the summary
    unfold aggregate
    repeat' split
    all_goals first | exact h.summary | exact hev
  | setState s errMsg now => exact hsame (j.setState_same s errMsg now).1
  | subscribe afterSeq => exact hsame rfl
  | unsubscribe i => exact hsame (congrArg (fun b : Jobs.Job => b.toAggregates)
      (j.body_unsubscribe i) :)
  | receive i => exact hsame (congrArg (fun b : Jobs.Job => b.toAggregates) (j.body_receive i) :)
  | install => exact hsame rfl

/-- A new job is legible. -/
theorem entry {r : Ready} (h : r.spec.mode = .scan ∨ r.spec.mode = .nuke) (id : String)
    (now : Nat) : Legible (r.entry id now).job :=
  ⟨newJob_consistent .., h, by simp [Ready.entry, newJob]⟩

theorem moves {e e' : Entry} {a : EntryAct} (h : Legible e.job) (hm : e.Moves a e')
    (ha : ∀ ev now, a = .publish ev now → Emittable ev) : Legible e'.job := by
  have hset (s : State) (errMsg : String) (now : Nat) : Legible (e.job.setState s errMsg now) :=
    @step _ h (.setState s errMsg now) fun _ _ hop => JobOp.noConfusion hop
  cases hm with
  | install hs => exact @step _ h .install fun _ _ hop => JobOp.noConfusion hop
  | setRunning | fail | finish | cancelEarly => exact hset ..
  | publish ev now hs hw =>
    refine @step _ h (.publish ev now) fun ev' now' hop => ?_
    obtain ⟨rfl, rfl⟩ := JobOp.publish.inj hop
    exact ha ev now rfl
  | watch op hop =>
    refine h.step fun ev now heq => ?_
    subst heq
    cases hop
  | _ => exact h

end Legible

/-! ## Errors -/

/-- The errors of a handler have the status of one. -/
def Refuses {α : Type} (x : Except ApiError α) : Prop := ∀ e, x = .error e → 300 ≤ e.status

namespace Refuses

variable {α β : Type}

theorem ok (a : α) : Refuses (.ok a : Except ApiError α) := fun _ h => by cases h

theorem error {e : ApiError} (h : 300 ≤ e.status) : Refuses (.error e : Except ApiError α) :=
  fun _ he => Except.error.inj he ▸ h

theorem bind {x : Except ApiError α} {f : α → Except ApiError β} (hx : Refuses x)
    (hf : ∀ a, Refuses (f a)) : Refuses (x >>= f) := by
  cases x with
  | error e => exact error (hx e rfl)
  | ok a => exact hf a

theorem guard {p : Prop} [Decidable p] {e : ApiError} {k : PUnit → Except ApiError β}
    (he : 300 ≤ e.status) (hk : Refuses (k ⟨⟩)) :
    Refuses (if p then (throw e : Except ApiError PUnit) >>= k else k ⟨⟩) := by
  split
  · exact error he
  · exact hk

end Refuses

theorem refuses_check (req : CreateNukeRequest) (identity : Identity) :
    Refuses (req.check identity) := by
  unfold CreateNukeRequest.check
  refine .guard (show 300 ≤ 400 by decide) (.guard (show 300 ≤ 400 by decide) ?_)
  split
  · exact .error (show 300 ≤ 400 by decide)
  · exact .ok _

theorem refuses_checkScan (sid : String) (scan : Option Jobs.Job) :
    Refuses (checkScan sid scan) := by
  cases scan with
  | none => exact .error (show 300 ≤ 404 by decide)
  | some scan =>
    unfold checkScan
    refine .guard (show 300 ≤ 404 by decide) (.guard (show 300 ≤ 409 by decide) ?_)
    exact .ok scan

theorem refuses_choose (found : PlainMap String Jobs.FoundResource) (sels : List Selection)
    (c : Chosen) : Refuses (choose found sels c) := by
  induction sels generalizing c with
  | nil => exact .ok _
  | cons sel sels ih =>
    rw [choose]
    split
    · exact .error (show 300 ≤ 400 by decide)
    · split
      · exact .error (show 300 ≤ 400 by decide)
      · exact ih _

/-- A refused clean-up is an error. -/
theorem refuses_handleCreateNuke (sid : String) (identity : Identity)
    (get : String → Option Jobs.Job) (req : CreateNukeRequest) :
    Refuses (handleCreateNuke sid identity get req) := by
  refine (refuses_check req identity).bind fun _ =>
    (refuses_checkScan sid _).bind fun scan => ?_
  have hchoose := refuses_choose scan.found req.selections {}
  unfold CreateNukeRequest.spec
  cases hc : choose scan.found req.selections {} with
  | error e => exact .error (hchoose e hc)
  | ok c => exact .ok _

/-- A refused scan is an error. -/
theorem refuses_scan (quote : String → String) (cat : Catalog) (req : CreateScanRequest)
    (identity : Identity) : Refuses (req.spec quote cat identity) := by
  unfold CreateScanRequest.spec
  refine .bind ?_ fun _ => .bind ?_ fun _ => .ok _
  · cases validateScanInputs quote cat req.regions req.resourceTypes with
    | error msg => exact .error (show 300 ≤ 400 by decide)
    | ok out => exact .ok out
  · unfold olderThan
    split
    · exact .ok none
    · split
      · exact .error (show 300 ≤ 400 by decide)
      · exact .ok _

/-- A job that is not started is an error. -/
theorem refuses_startJob (start : Starting) (spec : Engine.Spec) :
    Refuses (startJob start spec) := by
  intro err h
  have hstatus := startJob_error h
  simp only [List.mem_cons, List.not_mem_nil, or_false] at hstatus
  omega

/-! ## Runs of the server -/

/-- Everything that becomes a job of the server is legible. -/
structure Legibles (s : Server) : Prop where
  entries : s.All fun e => Legible e.job
  ready : ∀ r ∈ s.ready, r.spec.mode = .scan ∨ r.spec.mode = .nuke
  authorized : ∀ r ∈ s.authorized, r.spec.mode = .scan ∨ r.spec.mode = .nuke

section

variable {limits : Limits} {s s' : Server} {act : Service.Act}

theorem Legibles.step (h : Legibles s) (hm : s.Moves limits act s')
    (hact : ∀ ev ∈ act.published, Emittable ev) : Legibles s' := by
  have hentries : s'.All fun e => Legible e.job := by
    refine h.entries.step hm (fun r hr id now => .entry (h.authorized r hr) id now) ?_
    intro i a e e' heff he hj hmove
    refine hj.moves hmove ?_
    rintro ev now rfl
    rw [Server.publish_of_effect heff] at hact
    exact hact ev rfl
  cases hm with
  | createScan regions resourceTypes olderThan hs =>
    refine ⟨hentries, fun r hr => ?_, h.authorized⟩
    rcases List.mem_append.mp hr with hr | hr
    · exact h.ready r hr
    · obtain rfl := List.mem_singleton.mp hr
      exact .inl rfl
  | choose hk hs he hspec =>
    refine ⟨hentries, fun r hr => ?_, h.authorized⟩
    rcases List.mem_append.mp hr with hr | hr
    · exact h.ready r hr
    · obtain rfl := List.mem_singleton.mp hr
      exact .inr (spec_ok hspec).1
  | expired => exact ⟨hentries, fun r hr => h.ready r (List.mem_of_mem_eraseIdx hr), h.authorized⟩
  | credentials hk =>
    refine ⟨hentries, fun r hr => h.ready r (List.mem_of_mem_eraseIdx hr), fun r hr => ?_⟩
    rcases List.mem_append.mp hr with hr | hr
    · exact h.authorized r hr
    · obtain rfl := List.mem_singleton.mp hr
      exact h.ready r (List.mem_of_getElem? hk)
  | admitJob | refuse =>
    exact ⟨hentries, h.ready, fun r hr => h.authorized r (List.mem_of_mem_eraseIdx hr)⟩
  | _ => exact ⟨hentries, h.ready, h.authorized⟩

theorem legibles_of_execute {acts : List Service.Act}
    (hrun : execute (Server.step limits) {} acts = some s)
    (hemit : ∀ act ∈ acts, ∀ ev ∈ act.published, Emittable ev) : Legibles s :=
  (along_of_forall fun act hact _ => hemit act hact :
      Along (Server.step limits) (fun _ act => ∀ ev ∈ act.published, Emittable ev) {}
        acts).invariant hrun Legibles ⟨by simp [Server.All], by simp, by simp⟩
    fun _ _ _ hs hact h => h.step (Server.moves_of_step hs) hact

end

/-- A job that was started arrives with its identifier. -/
theorem Schema.started_put {skips : Bool} {v : Json} {job : Job}
    (h : Schema.job skips v = some job) (id : String) :
    Schema.started skips (.record [("job", some v), ("jobId", some (.str id))]) =
      some (.started id job) := by
  have hn : (([("job", some v), ("jobId", some (.str id))] :
      List (String × Option Json)).map Prod.fst).Nodup := by
    simp
  simp only [Schema.started, Json.get?_record hn]
  simp [List.lookup_cons, required, h, string]

/-- The list views of legible jobs arrive in their order. -/
theorem jobs_read {es : List Entry} (h : ∀ e ∈ es, Legible e.job) (fmt : GoFormat) :
    Schema.jobs (.record [("jobs", some (Encoding.array
        (fun b => .record (Encoding.briefFields fmt b)) (es.map fun e => e.job.brief)))]) =
      some ((es.map fun e => e.job.brief).map (encodeBrief ⟨fmt.time, fmt.duration⟩)) := by
  have hbriefs : ∀ b ∈ es.map fun e => e.job.brief,
      Schema.brief (.record (Encoding.briefFields fmt b)) =
        some (encodeBrief ⟨fmt.time, fmt.duration⟩ b) := by
    intro b hb
    obtain ⟨e, he, rfl⟩ := List.mem_map.mp hb
    exact (h e he).brief_read fmt
  have hn : (([("jobs", some (Encoding.array (fun b => .record (Encoding.briefFields fmt b))
      (es.map fun e => e.job.brief)))] : List (String × Option Json)).map Prod.fst).Nodup := by
    simp
  rw [Schema.jobs, Json.get?_record hn]
  exact Schema.arr_array hbriefs

/-- The state of a job arrives. -/
theorem state_read (s : State) :
    Schema.cancelled (.record [("state", some (.str (Encoding.stateName s)))]) = some s := by
  cases s <;> decide

/-- What a reply tells reaches the page that asked. -/
theorem Legibles.told_eq {s s' : Server} (h : Legibles s) (fmt : GoFormat) (skips : Bool)
    {sid : String} {r : JobRequest} {reply : Reply} (hserves : s.Serves sid r reply s') :
    reply ≠ .job none ∧ (replyAnswer fmt reply).bind (readAnswer skips r) =
      told skips ⟨fmt.time, fmt.duration⟩ r reply := by
  obtain ⟨sess, -, hanswers⟩ := hserves
  have hok : 200 ≤ 200 ∧ 200 < 300 := by decide
  have hnotFound {id : String} {err : ApiError} (herr : s.jobFor sid id = .error err) :
      300 ≤ err.status := by
    rw [(Server.jobFor_error herr).1]
    decide
  cases hanswers with
  | @listJobs out hlist =>
    refine ⟨(fun h => by cases h), ?_⟩
    have hes : ∀ e ∈ out, Legible e.job := fun e he => by
      obtain ⟨i, hi⟩ := List.mem_iff_getElem?.mp (List.mem_filter.mp (hlist.perm.mem_iff.mp he)).1
      exact h.entries i e hi
    exact congrArg some
      (request_writeJSON hok (congrArg (Option.map Data.jobs) (jobs_read hes fmt)))
  | getJob id =>
    unfold Server.handleGetJob
    cases hfor : s.jobFor sid id with
    | error err =>
      exact ⟨(fun h => by cases h), congrArg some (request_writeError _ (hnotFound hfor))⟩
    | ok p =>
      obtain ⟨i, e⟩ := p
      obtain ⟨-, hi, -⟩ := Server.jobFor_ok hfor
      obtain ⟨snap, hsnap, hread⟩ := (h.entries i e hi).snapshot_read fmt skips
      dsimp only
      rw [hsnap]
      exact ⟨(fun h => by cases h), congrArg some
        (request_writeJSON hok (congrArg (Option.map Data.job) hread))⟩
  | noEvents after herr => exact ⟨(fun h => by cases h), rfl⟩
  | jobEvents hfor hrun => exact ⟨(fun h => by cases h), rfl⟩
  | cancelJob id now =>
    cases hfor : s.jobFor sid id with
    | error err =>
      have herr : (s.handleCancelJob sid id now).1 = .error err := by
        rw [Server.handleCancelJob, hfor]
      rw [herr]
      exact ⟨(fun h => by cases h), congrArg some (request_writeError _ (hnotFound hfor))⟩
    | ok p =>
      obtain ⟨i, e⟩ := p
      rw [Server.handleCancelJob_eq hfor]
      exact ⟨(fun h => by cases h), congrArg some (request_writeJSON hok
        (congrArg (Option.map Data.state) (state_read _)))⟩
  | createNuke body =>
    unfold Server.handleNuke
    cases hnuke : handleCreateNuke sid sess.identity (fun id => (s.get id).map fun p => p.2.job)
        body with
    | error err =>
      exact ⟨(fun h => by cases h), congrArg some (request_writeError _
        (refuses_handleCreateNuke sid sess.identity _ body err hnuke))⟩
    | ok spec => exact ⟨(fun h => by cases h), rfl⟩

/-- In every run of the server whose workers summarize scans and clean-ups, a page reads from
the answer to its request exactly what the server replied, and from the answer to a request
that started a job the job itself. A request that did not start one, for whatever reason,
arrives as the error that it is. -/
theorem answers_arrive {limits : Limits} {acts : List Service.Act} {s : Server}
    (hrun : execute (Server.step limits) {} acts = some s)
    (hemit : ∀ act ∈ acts, ∀ ev ∈ act.published, Emittable ev) (fmt : GoFormat) (skips : Bool) :
    (∀ {sid : String} {r : JobRequest} {reply : Reply} {s' : Server}, s.Serves sid r reply s' →
      reply ≠ .job none ∧ (replyAnswer fmt reply).bind (readAnswer skips r) =
        told skips ⟨fmt.time, fmt.duration⟩ r reply) ∧
    (∀ e ∈ s.entries, ∃ snap, e.job.snapshot = some snap ∧
      request (Schema.started skips) (acceptedAnswer fmt e.job.id snap) =
        .ok (.started e.job.id ((encodeSnapshot ⟨fmt.time, fmt.duration⟩ snap).parsed skips))) ∧
    (∀ (sid : String) (identity : Identity) (get : String → Option Jobs.Job)
        (body : CreateNukeRequest) (start : Starting) (err : ApiError),
      (handleCreateNuke sid identity get body >>= startJob start) = .error err →
        request (Schema.started skips) (writeError err) =
          .apiError err.status err.code err.message) ∧
    ∀ (quote : String → String) (cat : Catalog) (identity : Identity) (body : CreateScanRequest)
        (start : Starting) (err : ApiError),
      (body.spec quote cat identity >>= startJob start) = .error err →
        request (Schema.started skips) (writeError err) =
          .apiError err.status err.code err.message := by
  have hlegible := legibles_of_execute hrun hemit
  refine ⟨fun hserves => hlegible.told_eq fmt skips hserves, fun e he => ?_,
    fun sid identity get body start err h => request_writeError _
      ((refuses_handleCreateNuke sid identity get body).bind (refuses_startJob start) err h),
    fun quote cat identity body start err h => request_writeError _
      ((refuses_scan quote cat body identity).bind (refuses_startJob start) err h)⟩
  obtain ⟨i, hi⟩ := List.mem_iff_getElem?.mp he
  obtain ⟨snap, hsnap, hread⟩ := (hlegible.entries i e hi).snapshot_read fmt skips
  exact ⟨snap, hsnap, request_writeJSON (by decide) (Schema.started_put hread e.job.id)⟩

instance : DecidablePred Emittable := fun ev =>
  inferInstanceAs (Decidable (∀ s ∈ ev.summary, s.mode = .scan ∨ s.mode = .nuke))

/-- A scan that has written its summary. -/
def summarized : List Service.Act :=
  admitted ++ [.entry 0 .install, .entry 0 .launch, .entry 0 (.setRunning 2),
    .entry 0 (.publish { type := .summary, summary := some { mode := .scan, found := 1 } } 3)]

/-- The page of the scan reads its summary. -/
theorem summarized_arrives :
    ∃ s snap, execute (Server.step ⟨1, 4⟩) {} summarized = some s ∧
      snap.summary = some { mode := .scan, found := 1 } ∧
      (replyAnswer smallFormat (.job (some snap))).bind (readAnswer true (.getJob "j")) =
        some (.ok (.job ((encodeSnapshot ⟨smallFormat.time, smallFormat.duration⟩ snap).parsed
          true))) := by
  obtain ⟨s, snap, hrun, hsum, hreply⟩ : ∃ s snap,
      execute (Server.step ⟨1, 4⟩) {} summarized = some s ∧
        snap.summary = some { mode := .scan, found := 1 } ∧
        s.Serves "s" (.getJob "j") (.job (some snap)) s :=
    ⟨_, _, rfl, rfl, _, rfl, .getJob "j"⟩
  have hemit : ∀ act ∈ summarized, ∀ ev ∈ act.published, Emittable ev := by decide
  exact ⟨s, snap, hrun, hsum, ((answers_arrive hrun hemit smallFormat true).1 hreply).2⟩

end Broom.Web
