import Broom.Jobs.Job

/-!
# What the browser knows of jobs

The shapes that the browser parses, and how the server's values arrive in them.
Fields the wire omits are none here.
-/

namespace Broom.Web

open Broom.Core Broom.Engine

/-! ## The page's data -/

structure FoundResource where
  resourceType : String
  region : String
  identifier : String
  nukable : Bool
  reason : Option String
  deriving DecidableEq, Repr

structure DeleteResult where
  resourceType : String
  region : String
  identifier : String
  success : Bool
  warning : Option Bool
  error : Option String
  note : Option String
  deriving DecidableEq, Repr

structure GeneralError where
  resourceType : String
  message : String
  error : String
  deriving DecidableEq, Repr

/-- The specification of a job. -/
structure Spec where
  mode : Mode
  regions : List String
  resourceTypes : List String
  olderThan : Option String
  excludeIamUserName : Option String
  selections : Option (List Selection)
  parallelism : Option Int
  deriving DecidableEq, Repr

/-- The page's copy of a job. -/
structure Job where
  id : String
  mode : Mode
  state : Jobs.State
  phase : Option String
  accountId : String
  spec : Spec
  createdAt : String
  startedAt : Option String
  finishedAt : Option String
  error : Option String
  lastSeq : Nat
  scanned : Nat
  found : List FoundResource
  results : List DeleteResult
  errors : List GeneralError
  summary : Option Summary
  logTail : Option (List String)
  deriving DecidableEq, Repr

/-- The list view of a job, with counts instead of lists. -/
structure JobBrief where
  id : String
  mode : Mode
  state : Jobs.State
  phase : Option String
  accountId : String
  regions : List String
  resourceTypes : List String
  olderThan : Option String
  createdAt : String
  startedAt : Option String
  finishedAt : Option String
  error : Option String
  scanned : Nat
  found : Nat
  selected : Nat
  deleted : Nat
  warned : Nat
  failed : Nat
  errors : Nat
  summary : Option Summary
  deriving DecidableEq, Repr

/-- An event as the page parses it. -/
structure JobEvent where
  seq : Nat
  type : EventType
  phase : Option String
  message : Option String
  resourceType : Option String
  region : Option String
  identifier : Option String
  nukable : Option Bool
  reason : Option String
  success : Option Bool
  warning : Option Bool
  error : Option String
  note : Option String
  summary : Option Summary
  deriving DecidableEq, Repr

def FoundResource.key (f : FoundResource) : String :=
  selectionKey f.resourceType f.region f.identifier

def DeleteResult.key (r : DeleteResult) : String :=
  selectionKey r.resourceType r.region r.identifier

/-! ## Derived views -/

/-- Reduce a live snapshot to the list view. -/
def briefOf (job : Job) : JobBrief where
  id := job.id
  mode := job.mode
  state := job.state
  phase := job.phase
  accountId := job.accountId
  regions := job.spec.regions
  resourceTypes := job.spec.resourceTypes
  olderThan := job.spec.olderThan
  createdAt := job.createdAt
  startedAt := job.startedAt
  finishedAt := job.finishedAt
  error := job.error
  scanned := job.scanned
  found := job.found.length
  selected := (job.spec.selections.map List.length).getD 0
  deleted := job.results.countP fun r => r.success
  warned := job.results.countP fun r => !r.success && r.warning.getD false
  failed := job.results.countP fun r => !r.success && !r.warning.getD false
  errors := job.errors.length
  summary := job.summary

/-! ## The wire -/

/-- A string that the wire omits when it is empty. -/
def omitEmpty (s : String) : Option String := if s = "" then none else some s

/-- A flag that the wire omits when it is false. -/
def omitFalse (b : Bool) : Option Bool := if b then some true else none

@[simp] theorem getD_omitEmpty (s : String) : (omitEmpty s).getD "" = s := by
  by_cases h : s = "" <;> simp [omitEmpty, h]

theorem omitEmpty_eq_some {s t : String} (ht : t ≠ "") : omitEmpty s = some t ↔ s = t := by
  by_cases h : s = "" <;> simp [omitEmpty, h, Ne.symm ht]

/-- An event on the wire. -/
def encodeEvent (ev : Event) : JobEvent where
  seq := ev.seq
  type := ev.type
  phase := omitEmpty ev.phase
  message := omitEmpty ev.message
  resourceType := omitEmpty ev.resourceType
  region := omitEmpty ev.region
  identifier := omitEmpty ev.identifier
  nukable := ev.nukable
  reason := omitEmpty ev.reason
  success := ev.success
  warning := omitFalse ev.warning
  error := omitEmpty ev.error
  note := omitEmpty ev.note
  summary := ev.summary

def encodeFound (f : Jobs.FoundResource) : FoundResource where
  resourceType := f.resourceType
  region := f.region
  identifier := f.identifier
  nukable := f.nukable
  reason := omitEmpty f.reason

def encodeResult (r : Jobs.DeleteResult) : DeleteResult where
  resourceType := r.resourceType
  region := r.region
  identifier := r.identifier
  success := r.success
  warning := omitFalse r.warning
  error := omitEmpty r.error
  note := omitEmpty r.note

def encodeError (e : Jobs.GeneralError) : GeneralError where
  resourceType := e.resourceType
  message := e.message
  error := e.error

/-- How the server writes times and durations. -/
structure WireFormat where
  time : Nat → String
  duration : Int → String

def encodeSpec (wf : WireFormat) (s : Engine.Spec) : Spec where
  mode := s.mode
  regions := s.regions
  resourceTypes := s.resourceTypes
  olderThan := s.olderThan.map wf.duration
  excludeIamUserName := omitEmpty s.excludeIAMUserName
  selections := if s.selections = [] then none else some s.selections
  parallelism := if s.parallelism = 0 then none else some s.parallelism

/-- A snapshot on the wire. -/
def encodeSnapshot (wf : WireFormat) (s : Jobs.Snapshot) : Job where
  id := s.id
  mode := s.mode
  state := s.state
  phase := omitEmpty s.phase
  accountId := s.accountId
  spec := encodeSpec wf s.spec
  createdAt := wf.time s.createdAt
  startedAt := s.startedAt.map wf.time
  finishedAt := s.finishedAt.map wf.time
  error := omitEmpty s.error
  lastSeq := s.lastSeq
  scanned := s.scanned
  found := s.found.map encodeFound
  results := s.results.map encodeResult
  errors := s.errors.map encodeError
  summary := s.summary
  logTail := if s.logTail = [] then none else some s.logTail

end Broom.Web
