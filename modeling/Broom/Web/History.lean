import Broom.Web.Api
import Mathlib.Data.List.Sort

/-!
# The browser's history

The history is one stored list of entries. Every operation on it is one link of a
serial chain, so each reads and writes the list as a whole.
-/

namespace Broom.Web

open Broom.Engine

/-- The state of an entry: a job's state, or lost when the server no longer knows. -/
inductive HistoryState
  | job (s : Jobs.State)
  | lost
  deriving DecidableEq, Repr

structure HistoryEntry where
  id : String
  kind : Mode
  accountId : String
  createdAt : String
  finishedAt : Option String
  state : HistoryState
  regions : List String
  resourceTypes : List String
  olderThan : Option String
  /-- The number of resources a clean-up was asked to delete. -/
  selected : Option Nat
  summary : Option Summary
  found : Option (List FoundResource)
  results : Option (List DeleteResult)
  errors : Option (List GeneralError)
  error : Option String

/-- The number of entries kept. -/
def maxHistory : Nat := 50

def isHistoryTerminal : HistoryState → Bool
  | .job s => s.terminal
  | .lost => true

/-- A count that is left out when it is zero. -/
def omitZero (n : Nat) : Option Nat := if n = 0 then none else some n

/-- The full record of a job snapshot. -/
def toHistory (job : Job) : HistoryEntry where
  id := job.id
  kind := job.mode
  accountId := job.accountId
  createdAt := job.createdAt
  finishedAt := job.finishedAt
  state := .job job.state
  regions := job.spec.regions
  resourceTypes := job.spec.resourceTypes
  olderThan := job.spec.olderThan
  selected := omitZero ((job.spec.selections.map List.length).getD 0)
  summary := job.summary
  found := some job.found
  results := some job.results
  errors := some job.errors
  error := job.error

/-- The placeholder of a run that is still going. -/
def briefToHistory (b : JobBrief) : HistoryEntry where
  id := b.id
  kind := b.mode
  accountId := b.accountId
  createdAt := b.createdAt
  finishedAt := b.finishedAt
  state := .job b.state
  regions := b.regions
  resourceTypes := b.resourceTypes
  olderThan := b.olderThan
  selected := omitZero b.selected
  summary := b.summary
  found := none
  results := none
  errors := none
  error := b.error

/-- What the history takes from the JavaScript runtime. -/
structure Runtime where
  localeCompare : String → String → Ordering
  /-- The milliseconds of a date, if it parses. -/
  getTime : String → Option Int

/-! ## Operations -/

section operations

variable (rt : Runtime)

/-- Whether one string may stand before another, newest first. -/
def newestFirst (x y : String) : Bool := rt.localeCompare y x ≠ .gt

/-- The stored part of a list. -/
def write (all : List HistoryEntry) : List HistoryEntry := all.take maxHistory

def getHistory (all : List HistoryEntry) (id : String) : Option HistoryEntry :=
  all.find? fun e => e.id = id

/-- Insert or replace the entry with the same id, newest first. -/
def saveHistory (all : List HistoryEntry) (entry : HistoryEntry) : List HistoryEntry :=
  write ((entry :: all.filter fun e => e.id ≠ entry.id).insertionSort fun x y =>
    newestFirst rt x.createdAt y.createdAt)

/-- An unfinished entry that the server does not list and that is old enough. -/
def isLost (alive : List String) (now graceMs : Int) (e : HistoryEntry) : Bool :=
  !(isHistoryTerminal e.state || alive.contains e.id ||
    (rt.getTime e.createdAt).any fun t => now - graceMs < t)

/-- Mark as lost what the server no longer lists. -/
def markLostHistory (all : List HistoryEntry) (alive : List String) (now graceMs : Int) :
    List HistoryEntry :=
  if all.any (isLost rt alive now graceMs) then
    write (all.map fun e => if isLost rt alive now graceMs e then { e with state := .lost } else e)
  else all

def deleteHistory (all : List HistoryEntry) (id : String) : List HistoryEntry :=
  write (all.filter fun e => e.id ≠ id)

end operations

end Broom.Web
