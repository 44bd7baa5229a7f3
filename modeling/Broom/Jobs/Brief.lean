import Broom.Jobs.View

/-!
# The list view of a job

A brief has counts where the snapshot has lists. The outcomes are counted over the
plain map, the found resources by their listed keys.
-/

namespace Broom.Jobs

open Broom.Core Broom.Engine

/-- Everything a snapshot has except the lists, which are replaced by counts. -/
structure Brief where
  id : String
  mode : Mode
  state : State
  phase : String
  accountId : String
  regions : List String
  resourceTypes : List String
  /-- Only a positive duration is shown. -/
  olderThan : Option Int
  createdAt : Nat
  startedAt : Option Nat
  finishedAt : Option Nat
  error : String
  scanned : Nat
  found : Nat
  /-- The resources a nuke job was asked to delete. -/
  selected : Nat
  deleted : Nat
  warned : Nat
  failed : Nat
  errors : Nat
  summary : Option Summary
  deriving DecidableEq, Repr

/-- Build the list view. -/
def Job.brief (j : Job) : Brief where
  id := j.id
  mode := j.spec.mode
  state := j.state
  phase := j.phase
  accountId := j.accountId
  regions := j.spec.regions
  resourceTypes := j.spec.resourceTypes
  olderThan := j.spec.olderThan.filter (0 < ·)
  createdAt := j.createdAt
  startedAt := setTime j.startedAt
  finishedAt := setTime j.finishedAt
  error := j.errMsg
  scanned := j.scanned.card
  found := j.foundOrd.length
  selected := j.spec.selections.length
  deleted := j.results.values.countP fun r => r.success
  warned := j.results.values.countP fun r => !r.success && r.warning
  failed := j.results.values.countP fun r => !r.success && !r.warning
  errors := j.genErrs.length
  summary := j.summary

/-- What a snapshot and the list view of a job have in common. -/
theorem Job.brief_of_snapshot {j : Job} {s : Snapshot} (hj : j.Consistent)
    (h : j.snapshot = some s) : j.brief =
      { id := s.id, mode := s.mode, state := s.state, phase := s.phase, accountId := s.accountId,
        regions := s.spec.regions, resourceTypes := s.spec.resourceTypes,
        olderThan := s.spec.olderThan.filter (0 < ·), createdAt := s.createdAt,
        startedAt := s.startedAt, finishedAt := s.finishedAt, error := s.error,
        scanned := s.scanned, found := s.found.length, selected := s.spec.selections.length,
        deleted := s.results.countP fun r => r.success,
        warned := s.results.countP fun r => !r.success && r.warning,
        failed := s.results.countP fun r => !r.success && !r.warning,
        errors := s.errors.length, summary := s.summary } := by
  have hfound : j.foundOrd.length = (viewOf j.events).found.values.length := by
    rw [hj.shows.found.ord_eq, OrderedMap.keys, OrderedMap.values, List.length_map, List.length_map]
  have hresults (p : DeleteResult → Bool) :
      j.results.values.countP p = (viewOf j.events).results.values.countP p :=
    hj.shows.results.perm.countP_eq p
  unfold Job.snapshot at h
  rw [hj.shows.found.values, hj.shows.results.values] at h
  obtain rfl := Option.some.inj h
  simp only [Job.brief, hfound, hresults]

end Broom.Jobs
