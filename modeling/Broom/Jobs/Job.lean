import Broom.Core.OrderedMap
import Broom.Engine.Spec
import Mathlib.Data.Finset.Card
import Mathlib.Data.Finset.Insert

/-!
# Jobs

A job collects the events of one run, keeps the aggregates that its snapshots show,
and fans the events out to subscribers over buffered channels. Every operation is
one critical section of the job's mutex.
-/

namespace Broom.Jobs

open Broom.Core Broom.Engine

/-! ## Data -/

/-- The lifecycle state of a job. -/
inductive State
  | queued
  | running
  | succeeded
  | failed
  | cancelled
  deriving DecidableEq, Repr

/-- The state is final. -/
def State.terminal : State → Bool
  | .succeeded | .failed | .cancelled => true
  | .queued | .running => false

/-- The number of log lines a job keeps. -/
def maxLogLines : Nat := 2000

/-- A discovered resource. -/
structure FoundResource where
  resourceType : String
  region : String
  identifier : String
  nukable : Bool
  reason : String
  deriving DecidableEq, Repr

/-- The outcome for one resource in a nuke run. -/
structure DeleteResult where
  resourceType : String
  region : String
  identifier : String
  success : Bool
  warning : Bool
  error : String
  note : String
  deriving DecidableEq, Repr

/-- An error of the scan itself, such as a lister that failed for a type. -/
structure GeneralError where
  resourceType : String
  message : String
  error : String
  deriving DecidableEq, Repr

/-- What a job gathers from its events. -/
structure Aggregates where
  logs : List String := []
  summary : Option Summary := none
  found : PlainMap String FoundResource := ∅
  foundOrd : List String := []
  results : PlainMap String DeleteResult := ∅
  resOrd : List String := []
  genErrs : List GeneralError := []
  phase : String := ""
  /-- The pairs of a type and a region that reported progress, joined by a bar. -/
  scanned : Finset String := ∅

/-- A buffered channel of events. -/
structure Chan where
  buffer : List Event
  capacity : Nat
  closed : Bool := false
  deriving DecidableEq, Repr

/-- One scan or nuke run. -/
structure Job extends Aggregates where
  id : String
  sessionId : String
  accountId : String
  spec : Spec
  createdAt : Nat
  state : State := .queued
  startedAt : Nat := 0
  finishedAt : Nat := 0
  errMsg : String := ""
  seq : Nat := 0
  events : List Event := []
  /-- All channels ever handed out; a subscription is named by its position. -/
  chans : List Chan := []
  subs : List Nat := []
  /-- The cancel function of the worker's context is installed. -/
  cancel : Bool := false
  /-- A channel was closed twice or used after it was closed. -/
  panicked : Bool := false

def newJob (id sessionId accountId : String) (spec : Spec) (now : Nat) : Job where
  id := id
  sessionId := sessionId
  accountId := accountId
  spec := spec
  createdAt := now

/-! ## Aggregation -/

/-- The found resource of an event. -/
def foundOf (ev : Event) : FoundResource where
  resourceType := ev.resourceType
  region := ev.region
  identifier := ev.identifier
  nukable := ev.nukable = none ∨ ev.nukable = some true
  reason := ev.reason

/-- The outcome in an event. -/
def resultOf (ev : Event) : DeleteResult where
  resourceType := ev.resourceType
  region := ev.region
  identifier := ev.identifier
  success := ev.success = some true
  warning := ev.warning
  error := ev.error
  note := ev.note

/-- Take one event into the aggregates. -/
def aggregate (a : Aggregates) (ev : Event) : Aggregates :=
  match ev.type with
  | .phase =>
    if ev.phase = "rescan" then
      -- the rescan of a nuke run supersedes anything found earlier
      { a with phase := ev.phase, found := ∅, foundOrd := [], genErrs := [] }
    else { a with phase := ev.phase }
  | .scanProgress => { a with scanned := insert (ev.resourceType ++ "|" ++ ev.region) a.scanned }
  | .resourceFound =>
    { a with foundOrd := if ev.key ∈ a.found then a.foundOrd else a.foundOrd ++ [ev.key]
             found := a.found.insert ev.key (foundOf ev) }
  | .generalError => { a with genErrs := a.genErrs ++ [⟨ev.resourceType, ev.message, ev.error⟩] }
  | .resourceDeleted =>
    { a with resOrd := if ev.key ∈ a.results then a.resOrd else a.resOrd ++ [ev.key]
             results := a.results.insert ev.key (resultOf ev) }
  | .summary => { a with summary := ev.summary }
  | .log => if a.logs.length < maxLogLines then { a with logs := a.logs ++ [ev.message] } else a
  | .nukeProgress | .fatal => a

/-! ## Channels -/

namespace Job

/-- Close a channel; closing it twice panics. -/
def closeChan (j : Job) (i : Nat) : Job :=
  match j.chans[i]? with
  | some ch =>
    if ch.closed then { j with panicked := true }
    else { j with chans := j.chans.set i { ch with closed := true } }
  | none => j

/-- Drop a subscription and close its channel. -/
def drop (j : Job) (i : Nat) : Job := { j.closeChan i with subs := j.subs.erase i }

/-- Hand an event to a subscriber, or drop it if its buffer is full. Sending on a
closed channel panics. -/
def deliver (ev : Event) (j : Job) (i : Nat) : Job :=
  match j.chans[i]? with
  | some ch =>
    if ch.closed then { j with panicked := true }
    else if ch.buffer.length < ch.capacity then
      { j with chans := j.chans.set i { ch with buffer := ch.buffer ++ [ev] } }
    else j.drop i
  | none => j

/-! ## Operations -/

/-- Move to a state, unless the job is already in a final one. -/
def setState (j : Job) (s : State) (errMsg : String) (now : Nat) : Job :=
  if j.state.terminal then j
  else
    let j := { j with state := s, startedAt := if s = .running then now else j.startedAt }
    if s.terminal then
      { j.subs.foldl drop j with finishedAt := now, errMsg := errMsg }
    else j

/-- Move a job that never started into the failed state. -/
def fail (j : Job) (msg : String) (now : Nat) : Job := j.setState .failed msg now

/-- The event as the job records it. -/
def stamp (j : Job) (ev : Event) (now : Nat) : Event :=
  { ev with seq := j.seq + 1, atTime := if ev.atTime = 0 then now else ev.atTime }

/-- The job with one more event recorded. -/
def record (j : Job) (ev : Event) : Job :=
  { j with
    seq := j.seq + 1
    events := j.events ++ [ev]
    toAggregates := aggregate j.toAggregates ev }

/-- Append an event and fan it out. -/
def publish (j : Job) (ev : Event) (now : Nat) : Job :=
  j.subs.foldl (deliver (j.stamp ev now)) (j.record (j.stamp ev now))

/-- The recorded events that a subscription starts with. -/
def backlog (j : Job) (afterSeq : Int) : List Event :=
  if 0 < afterSeq ∧ afterSeq ≤ j.events.length then j.events.drop afterSeq.toNat else j.events

/-- Open a channel that first replays the events after a sequence number. Its position
is the number of channels handed out before. -/
def subscribe (j : Job) (afterSeq : Int) : Job :=
  let ch := { buffer := j.backlog afterSeq, capacity := (j.backlog afterSeq).length + 1024,
              closed := j.state.terminal }
  { j with chans := j.chans ++ [ch]
           subs := if j.state.terminal then j.subs else j.subs ++ [j.chans.length] }

/-- The function that a subscription returns. -/
def unsubscribe (j : Job) (i : Nat) : Job := if i ∈ j.subs then j.drop i else j

/-- Take the next event out of a channel. -/
def receive (j : Job) (i : Nat) : Option (Event × Job) :=
  match j.chans[i]? with
  | some { buffer := ev :: rest, capacity, closed } =>
    some (ev, { j with chans := j.chans.set i { buffer := rest, capacity, closed } })
  | _ => none

end Job

/-! ## Snapshots -/

/-- The JSON view of a job. -/
structure Snapshot where
  id : String
  mode : Mode
  state : State
  phase : String
  accountId : String
  spec : Spec
  createdAt : Nat
  startedAt : Option Nat
  finishedAt : Option Nat
  error : String
  lastSeq : Nat
  scanned : Nat
  found : List FoundResource
  results : List DeleteResult
  errors : List GeneralError
  summary : Option Summary
  logTail : List String
  deriving DecidableEq, Repr

/-- A time that is set. -/
def setTime (t : Nat) : Option Nat := if t = 0 then none else some t

/-- Build the JSON view; a listed key without an entry is a nil pointer. -/
def Job.snapshot (j : Job) : Option Snapshot := do
  let found ← j.foundOrd.mapM (j.found.lookup ·)
  let results ← j.resOrd.mapM (j.results.lookup ·)
  return {
    id := j.id
    mode := j.spec.mode
    state := j.state
    phase := j.phase
    accountId := j.accountId
    spec := j.spec
    createdAt := j.createdAt
    startedAt := setTime j.startedAt
    finishedAt := setTime j.finishedAt
    error := j.errMsg
    lastSeq := j.seq
    scanned := j.scanned.card
    found := found
    results := results
    errors := j.genErrs
    summary := j.summary
    logTail := j.logs.drop (j.logs.length - 50) }

end Broom.Jobs
