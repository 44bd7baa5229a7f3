import Broom.Web.Api

/-!
# The browser's reducer

`applyEvents` keeps the page's copy of a job live. It rebuilds its keyed maps from
the lists of the job at the start of every batch and writes them back at the end if
an event touched them.
-/

namespace Broom.Web

open Broom.Core Broom.Engine

/-! ## The reducer -/

/-- The local variables of the reducer's loop. -/
structure Loop where
  next : Job
  found : OrderedMap String FoundResource
  results : OrderedMap String DeleteResult
  foundDirty : Bool := false
  resultsDirty : Bool := false
  /-- The page's set of scanned pairs, shared by all batches. -/
  scanned : Finset String

/-- A field in a template literal. -/
def interpolated (field : Option String) : String := field.getD "undefined"

/-- One turn of the loop. -/
def applyEvent (st : Loop) (ev : JobEvent) : Loop :=
  -- a duplicate from a replay
  if ev.seq ≤ st.next.lastSeq then st
  else
    let next := { st.next with lastSeq := ev.seq }
    match ev.type with
    | .phase =>
      if ev.phase = some "rescan" then
        { st with next := { next with phase := ev.phase, errors := [], scanned := 0 }
                  found := .empty, foundDirty := true, scanned := ∅ }
      else { st with next := { next with phase := ev.phase } }
    | .scanProgress =>
      let scanned := insert (interpolated ev.resourceType ++ "|" ++ interpolated ev.region)
        st.scanned
      { st with next := { next with scanned := max next.scanned scanned.card }, scanned := scanned }
    | .resourceFound =>
      let r : FoundResource :=
        { resourceType := ev.resourceType.getD "", region := ev.region.getD "",
          identifier := ev.identifier.getD "", nukable := ev.nukable.getD true,
          reason := ev.reason }
      { st with next := next, found := st.found.set r.key r, foundDirty := true }
    | .generalError =>
      let e : GeneralError :=
        { resourceType := ev.resourceType.getD "", message := ev.message.getD "",
          error := ev.error.getD "" }
      { st with next := { next with errors := next.errors ++ [e] } }
    | .resourceDeleted =>
      let r : DeleteResult :=
        { resourceType := ev.resourceType.getD "", region := ev.region.getD "",
          identifier := ev.identifier.getD "", success := ev.success.getD false,
          warning := ev.warning, error := ev.error, note := ev.note }
      { st with next := next, results := st.results.set r.key r, resultsDirty := true }
    | .summary => { st with next := { next with summary := ev.summary } }
    | .fatal => { st with next := { next with error := ev.error } }
    | .log =>
      let lines := next.logTail.getD [] ++ [ev.message.getD ""]
      { st with next := { next with logTail := some (lines.drop (lines.length - 50)) } }
    | .nukeProgress => { st with next := next }

/-- The loop's variables before the first event of a batch. -/
def Loop.start (job : Job) (scanned : Finset String) : Loop where
  next := job
  found := .ofValues FoundResource.key job.found
  results := .ofValues DeleteResult.key job.results
  scanned := scanned

/-- The job after the last event of a batch. -/
def Loop.finish (st : Loop) : Job :=
  { st.next with
    found := if st.foundDirty then st.found.values else st.next.found
    results := if st.resultsDirty then st.results.values else st.next.results }

/-- Apply a batch of events to the page's job and to its set of scanned pairs. -/
def applyEvents (job : Job) (scanned : Finset String) (events : List JobEvent) :
    Job × Finset String :=
  let st := events.foldl applyEvent (Loop.start job scanned)
  (st.finish, st.scanned)

/-- Apply several batches. -/
def applyBatches (job : Job) (scanned : Finset String) (batches : List (List JobEvent)) :
    Job × Finset String :=
  batches.foldl (fun p batch => applyEvents p.1 p.2 batch) (job, scanned)

end Broom.Web
