import Broom.Core.Pool
import Broom.Core.Word
import Broom.Engine.Emitter
import Mathlib.Algebra.GroupWithZero.Nat
import Mathlib.Data.Finset.Card
import Mathlib.Data.Finset.Dedup

/-!
# Deleting the confirmed identifiers

`nukeSelected` walks the regions of an account in parallel, the global
pseudo-region last, and deletes only the confirmed identifiers. A region's walk
is a sequential program over the operations it shares with the rest of the
world: reading the context, marking a key as seen, reporting, and calling the
nuker. What the nuker replies is left open, and so is the moment at which the
context is cancelled.
-/

namespace Broom.Engine

open Broom.Core

/-- The region name of the global pseudo-region. -/
def globalRegion : String := "global"

/-- An error, with the answers of cloud-nuke's two classifiers for it. -/
structure GoError where
  message : String
  warning : Bool := false
  throttling : Bool := false
  deriving DecidableEq, Repr

/-- The result of one identifier in a nuker's reply. -/
structure NukeResult where
  identifier : String
  error : Option GoError := none
  deriving DecidableEq, Repr

/-- One resource type of a region as the rescan listed it. -/
structure AwsResource where
  resourceName : String
  resourceIdentifiers : List String
  maxBatchSize : Int
  deriving DecidableEq, Repr

/-- The listed resources by region, in registry order; nothing for an unknown region. -/
abbrev Account := String → List AwsResource

/-- What the walk takes from cloud-nuke's utility package. -/
structure CloudNuke where
  /-- Cut a list of identifiers into batches. -/
  split : List String → Int → List (List String)
  defaultParallelism : Nat
  split_flatten : ∀ ids limit, (split ids limit).flatten = ids
  split_ne_nil : ∀ ids limit, ids ≠ [] → [] ∉ split ids limit
  split_length : ∀ ids limit, 0 < limit → ∀ batch ∈ split ids limit, (batch.length : Int) ≤ limit
  defaultParallelism_pos : 0 < defaultParallelism

/-- The batching of cloud-nuke: consecutive pieces of at most the limit. -/
def CloudNuke.standard : CloudNuke where
  split ids limit := chunks limit.natAbs ids
  defaultParallelism := 10
  split_flatten ids limit := flatten_chunks _ ids
  split_ne_nil _ _ h := ne_nil_of_mem_chunks h
  split_length ids limit h batch hb := by
    have hle := length_le_of_mem_chunks (by omega) hb
    omega
  defaultParallelism_pos := by decide

/-- What the walk reports back to the caller. -/
structure NukeStats where
  /-- Identifiers passed to a nuker. -/
  attempted : Nat := 0
  /-- Identifiers the rescan found that were not confirmed. -/
  notSelected : Nat := 0
  /-- Confirmed identifiers that no longer exist. -/
  alreadyGone : Nat := 0
  deriving DecidableEq, Repr

/-- The pauses of the walk. -/
inductive Delay
  | batchDelay
  | throttleDelay
  deriving DecidableEq, Repr

/-- What a region's walk asks of the world around it. -/
inductive NukeOp
  /-- Is the context done? -/
  | ctxErr
  /-- The name and the identifiers of a resource are read. -/
  | resourceIdentifiers (region : String) (res : AwsResource)
  | markSeen (key : String)
  | emit (report : Report)
  | nuke (resourceType region : String) (batch : List String)
  | sleepCtx (delay : Delay)

/-- The answers to the operations of a walk. -/
abbrev NukeOp.Ans : NukeOp → Type
  | .ctxErr => Bool
  | .nuke _ _ _ => List NukeResult × Option GoError
  | _ => Unit

abbrev NukeM := Prog NukeOp NukeOp.Ans

def ctxErr : NukeM Bool := .call .ctxErr .ret
def resourceIdentifiers (region : String) (res : AwsResource) : NukeM Unit :=
  .call (.resourceIdentifiers region res) .ret
def markSeen (key : String) : NukeM Unit := .call (.markSeen key) .ret
def emit (report : Report) : NukeM Unit := .call (.emit report) .ret
def nuke (resourceType region : String) (batch : List String) :
    NukeM (List NukeResult × Option GoError) := .call (.nuke resourceType region batch) .ret
def sleepCtx (delay : Delay) : NukeM Unit := .call (.sleepCtx delay) .ret

/-- Report in order. -/
def emitAll : List Report → NukeM Unit
  | [] => pure ()
  | report :: reports => do
    emit report
    emitAll reports

/-- The report of one result in a nuker's reply. -/
def resultReport (resourceType region : String) (result : NukeResult) : Report :=
  .resourceDeleted resourceType region result.identifier result.error.isNone
    (result.error.any GoError.warning) ((result.error.map GoError.message).getD "")

/-- The reports a bare error makes for the identifiers of the batch without a result. -/
def bareReports (resourceType region : String) (batch : List String)
    (results : List NukeResult) : Option GoError → List Report
  | none => []
  | some err => (batch.filter fun id => id ∉ results.map NukeResult.identifier).map fun id =>
      .resourceDeleted resourceType region id false err.warning err.message

/-- The error of the walk when it stops at a done context. -/
def ctxCanceled : String := "context canceled"

/-- The inner loop: nuke the batches of one resource. The flag of the result says
that the walk returned at a done context. -/
def nukeBatches (resourceType region : String) :
    List (List String) → NukeStats → List String → NukeM (NukeStats × List String × Bool)
  | [], stats, errors => pure (stats, errors, false)
  | batch :: batches, stats, errors => do
    if ← ctxErr then return (stats, [ctxCanceled], true)
    emit (.nukeProgress resourceType region batch.length)
    let stats := { stats with attempted := stats.attempted + batch.length }
    let (results, err) ← nuke resourceType region batch
    emitAll (results.map (resultReport resourceType region))
    emitAll (bareReports resourceType region batch results err)
    match err with
    | some e =>
      if e.throttling then
        -- the rest of the loop body is skipped, its pause included
        sleepCtx .throttleDelay
        nukeBatches resourceType region batches stats errors
      else
        if batches ≠ [] then sleepCtx .batchDelay
        nukeBatches resourceType region batches stats
          (errors ++ ["[" ++ region ++ "] " ++ resourceType ++ ": " ++ e.message])
    | none =>
      if batches ≠ [] then sleepCtx .batchDelay
      nukeBatches resourceType region batches stats errors

/-- Keep the confirmed identifiers of a resource, marking each as seen. -/
def confirmedIds (resourceType region : String) (selected : Finset String) :
    List String → NukeStats → NukeM (List String × NukeStats)
  | [], stats => pure ([], stats)
  | id :: ids, stats => do
    if selectionKey resourceType region id ∈ selected then
      markSeen (selectionKey resourceType region id)
      let (rest, stats) ← confirmedIds resourceType region selected ids stats
      return (id :: rest, stats)
    else
      confirmedIds resourceType region selected ids
        { stats with notSelected := stats.notSelected + 1 }

/-- The outer loop: walk the resources of a region in registry order. -/
def nukeResources (cn : CloudNuke) (region : String) (selected : Finset String) :
    List AwsResource → NukeStats → List String → NukeM (NukeStats × List String)
  | [], stats, errors => pure (stats, errors)
  | res :: list, stats, errors => do
    if ← ctxErr then return (stats, [ctxCanceled])
    resourceIdentifiers region res
    let (ids, stats) ← confirmedIds res.resourceName region selected res.resourceIdentifiers stats
    if ids = [] then
      nukeResources cn region selected list stats errors
    else
      let (stats, errors, stopped) ←
        nukeBatches res.resourceName region (cn.split ids res.maxBatchSize) stats errors
      if stopped then return (stats, errors)
      nukeResources cn region selected list stats errors

/-- The walk of one region. -/
def nukeRegionSelected (cn : CloudNuke) (region : String) (list : List AwsResource)
    (selected : Finset String) : NukeM (NukeStats × List String) :=
  nukeResources cn region selected list {} []

/-! ## The parallel walk -/

/-- What the walks share: the context, the seen keys and the reports made so far. -/
structure World where
  ctxDone : Bool := false
  seen : Finset String := ∅
  reports : List Report := []

/-- The only step of the environment. -/
inductive Env
  | cancel
  deriving DecidableEq, Repr

/-- A step of the parallel walk. -/
abbrev Step := Label Env NukeOp.Ans

/-- The effect of a step; none if its answer is not what the world would give. -/
def World.step (w : World) : Step → Option World
  | .env .cancel => some { w with ctxDone := true }
  | .act _ ⟨.ctxErr, done⟩ => if done = w.ctxDone then some w else none
  | .act _ ⟨.markSeen key, _⟩ => some { w with seen := insert key w.seen }
  | .act _ ⟨.emit report, _⟩ => some { w with reports := w.reports ++ [report] }
  | .act _ ⟨.nuke _ _ _, _⟩ => some w
  | .act _ ⟨.resourceIdentifiers _ _, _⟩ => some w
  | .act _ ⟨.sleepCtx _, _⟩ => some w

/-- The world after a whole trace. -/
def World.run (w : World) : List Step → Option World
  | [] => some w
  | l :: τ => (w.step l).bind fun w => w.run τ

/-- The number of regions walked at once. -/
def effectiveParallelism (cn : CloudNuke) (parallelism : Int) : Nat :=
  if parallelism ≤ 0 then cn.defaultParallelism else parallelism.toNat

/-- The walks of the regions that meet a condition, in the order of the region list. -/
def regionWalks (cn : CloudNuke) (account : Account) (selected : Finset String)
    (regions : List String) : List (NukeM (NukeStats × List String)) :=
  regions.map fun region => nukeRegionSelected cn region (account region) selected

/-- The regional regions of a list. -/
def regionals (regions : List String) : List String := regions.filter (· ≠ globalRegion)

/-- The occurrences of the global pseudo-region in a list. -/
def globals (regions : List String) : List String := regions.filter (· = globalRegion)

/-- The report that closes out a confirmed key the walk has not seen. -/
def goneReport (key : String) : Report :=
  .resourceGone (splitKey key).1 (splitKey key).2.1 (splitKey key).2.2

/-- One run of `nukeSelected`: the interleaved regional walks, the walks of the
global pseudo-region one after another, and the order in which the unseen keys
are closed out. -/
structure NukeSelected (cn : CloudNuke) (account : Account) (regions : List String)
    (selected : Finset String) (parallelism : Int) where
  regional : List Step
  regionalEnd : Pool NukeOp NukeOp.Ans (NukeStats × List String)
  regional_run : Pool.Run (effectiveParallelism cn parallelism)
    (Pool.ofList (regionWalks cn account selected (regionals regions))) regional regionalEnd
  regional_complete : regionalEnd.Complete
  global : List Step
  globalEnd : Pool NukeOp NukeOp.Ans (NukeStats × List String)
  global_run : Pool.Run 1
    (Pool.ofList (regionWalks cn account selected (globals regions))) global globalEnd
  global_complete : globalEnd.Complete
  world : World
  world_run : World.run {} (regional ++ global) = some world
  gone : List String
  gone_perm : gone.Perm (selected \ world.seen).toList

namespace NukeSelected

variable {cn : CloudNuke} {account : Account} {regions : List String} {selected : Finset String}
  {parallelism : Int}

/-- The trace of all walks. -/
def trace (run : NukeSelected cn account regions selected parallelism) : List Step :=
  run.regional ++ run.global

/-- Everything the run reports, in order. -/
def reports (run : NukeSelected cn account regions selected parallelism) : List Report :=
  run.world.reports ++ run.gone.map goneReport

/-- The results of the walks in the order they returned. -/
def results (run : NukeSelected cn account regions selected parallelism) :
    List (NukeStats × List String) :=
  (run.regionalEnd.finished ++ run.globalEnd.finished).map Prod.snd

/-- The merged statistics. -/
def stats (run : NukeSelected cn account regions selected parallelism) : NukeStats where
  attempted := (run.results.map fun r => r.1.attempted).sum
  notSelected := (run.results.map fun r => r.1.notSelected).sum
  alreadyGone := run.gone.length

/-- The errors of the walks, aggregated. -/
def errors (run : NukeSelected cn account regions selected parallelism) : List String :=
  run.results.flatMap Prod.snd

end NukeSelected

end Broom.Engine
