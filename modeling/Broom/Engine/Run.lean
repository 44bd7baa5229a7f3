import Broom.Engine.NukeRun

/-!
# The worker's run

`Run` rescans the account and, in nuke mode, deletes what was confirmed. The rescan
is cloud-nuke's and enters as a parameter: what it reports, which resources it
lists, and which listings failed. A failed listing leaves no trace but a report.
-/

namespace Broom.Engine

open Broom.Core

/-! ## Validation -/

/-- White space in the sense of Go's `unicode.IsSpace`. -/
def isSpace (c : Char) : Bool :=
  c.toNat ∈ [0x09, 0x0A, 0x0B, 0x0C, 0x0D, 0x20, 0x85, 0xA0, 0x1680, 0x2028, 0x2029, 0x202F,
    0x205F, 0x3000] ∨ (0x2000 ≤ c.toNat ∧ c.toNat ≤ 0x200A)

/-- The mistakes that validation finds. -/
inductive SpecError
  | invalidMode (mode : String)
  | noResourceType
  | invalidRegion (region : String)
  | noSelection
  | parallelismRange
  deriving DecidableEq, Repr

/-- The text of a mistake; `quote` is Go's quoting of strings. -/
def SpecError.message (quote : String → String) : SpecError → String
  | .invalidMode mode => "invalid mode " ++ quote mode
  | .noResourceType => "at least one resource type is required"
  | .invalidRegion region => "invalid region " ++ quote region
  | .noSelection => "nuke mode requires at least one selection"
  | .parallelismRange => "parallelism out of range"

/-- A name that no regional region has. -/
def badRegion (region : String) : Bool := region = globalRegion ∨ region.toList.all isSpace

/-- Check the spec before any call to AWS. -/
def Spec.validate (s : Spec) : Except SpecError Unit := do
  if let .other name := s.mode then throw (.invalidMode name)
  if s.resourceTypes = [] then throw .noResourceType
  if let some region := s.regions.find? badRegion then throw (.invalidRegion region)
  if s.mode = .nuke ∧ s.selections = [] then throw .noSelection
  if s.parallelism < 0 ∨ 32 < s.parallelism then throw .parallelismRange

/-! ## The rescan -/

/-- The rescan's inputs. -/
structure Query where
  regions : List String
  resourceTypes : List String
  excludeFirstSeen : Bool
  excludeAfter : Option Int
  parallelism : Int
  deriving DecidableEq, Repr

/-- Turn a spec into the rescan's inputs. `isGlobal` is the catalog's table of global
types and `now` the clock in nanoseconds. -/
def buildQuery (isGlobal : String → Bool) (now : Int) (spec : Spec) : Query where
  regions := if spec.resourceTypes.any isGlobal then spec.regions ++ [globalRegion]
    else spec.regions
  resourceTypes := spec.resourceTypes
  excludeFirstSeen := spec.olderThan.isNone
  excludeAfter := (spec.olderThan.filter (0 < ·)).map (now - ·)
  parallelism := spec.parallelism

/-- What the rescan of some regions does. A listing that fails is reported as a general
error of its type, and its region's list goes without the type. -/
structure Rescan (regions : List String) where
  reports : List Report
  account : Account
  err : Option String := none
  /-- The pairs of a type and a region whose listing failed. -/
  failed : Finset (String × String)
  reports_outcome : ∀ r ∈ reports, r.outcome = none
  failed_reported : ∀ p ∈ failed, ∃ description error,
    .generalError p.1 description error ∈ reports
  failed_left_out : ∀ p ∈ failed, ∀ res ∈ account p.2, res.resourceName ≠ p.1
  failed_nulFree : ∀ p ∈ failed, NulFree p.1 ∧ NulFree p.2
  regions_nulFree : ∀ region ∈ regions, NulFree region
  types_nulFree : ∀ region, ∀ res ∈ account region, NulFree res.resourceName

/-! ## The run -/

/-- Everything a run of the worker leaves to its surroundings: the rescan, the delete
phase that would follow it, and the context after each of the two. -/
structure Surroundings (cn : CloudNuke) (isGlobal : String → Bool) (now : Int) (spec : Spec) where
  rescan : Rescan (buildQuery isGlobal now spec).regions
  /-- The context is done when the rescan returns. -/
  ctxDone : Bool
  delete : NukeSelected cn rescan.account (buildQuery isGlobal now spec).regions
    (selectionKeys spec.selections) (buildQuery isGlobal now spec).parallelism
  /-- The context is done when the delete phase returns. -/
  ctxDoneAfter : Bool
  ctxDone_mono : delete.world.ctxDone = true → ctxDoneAfter = true

/-- How a run fails. -/
inductive RunError
  | scanFailed (message : String)
  | canceled
  deriving DecidableEq, Repr

/-- The text of a failure. -/
def RunError.message : RunError → String
  | .scanFailed message => "scan failed: " ++ message
  | .canceled => ctxCanceled

section run

variable {cn : CloudNuke} {isGlobal : String → Bool} {now : Int} {spec : Spec}

/-- The emitter when the rescan has returned. -/
def Surroundings.rescanned (x : Surroundings cn isGlobal now spec) (em : Emitter) : Emitter :=
  (em.phase (if spec.mode = .nuke then "rescan" else "scan")
    ("scanning " ++ toString (buildQuery isGlobal now spec).regions.length ++ " region(s), " ++
      toString spec.resourceTypes.length ++ " resource type(s)")).onEvents x.rescan.reports

/-- The emitter when the delete phase has returned. -/
def Surroundings.deleted (x : Surroundings cn isGlobal now spec) (em : Emitter) : Emitter :=
  ((x.rescanned em).phase "nuke" ("deleting " ++ toString (selectionKeys spec.selections).card ++
    " confirmed resource(s)")).onEvents x.delete.reports

/-- Execute a spec. -/
def run (x : Surroundings cn isGlobal now spec) (em : Emitter) : Emitter × Except RunError Unit :=
  match x.rescan.err with
  | some message => (x.rescanned em, .error (.scanFailed message))
  | none =>
    if x.ctxDone then (x.rescanned em, .error .canceled)
    else if spec.mode = .scan then ((x.rescanned em).summaryEvent .scan 0, .ok ())
    else if x.ctxDoneAfter then (x.deleted em, .error .canceled)
    else ((x.deleted em).summaryEvent .nuke x.delete.stats.notSelected, .ok ())

end run

/-- The emitter of a fresh worker. -/
def Emitter.new (now : Nat → Nat) : Emitter where
  now := now

/-- The worker process: the emitter it leaves behind and its exit status. The spec has
been decoded, or not, from standard input. -/
def runWorker {cn : CloudNuke} {isGlobal : String → Bool} {now : Int} (quote : String → String)
    (clock : Nat → Nat) (input : Except String Spec)
    (x : ∀ spec, input = .ok spec → Surroundings cn isGlobal now spec) : Emitter × Nat :=
  let em := Emitter.new clock
  match input with
  | .error message => (em.fatal ("decode spec: " ++ message), 2)
  | .ok spec =>
    match spec.validate with
    | .error e => (em.fatal ("invalid spec: " ++ e.message quote), 2)
    | .ok () =>
      match run (x spec rfl) em with
      | (em, .error .canceled) => (em.fatal "cancelled", 1)
      | (em, .error e) => (em.fatal e.message, 1)
      | (em, .ok ()) => (em, 0)

/-- A run that returns no error has written its summary last. -/
theorem run_summary {cn : CloudNuke} {isGlobal : String → Bool} {now : Int} {spec : Spec}
    {x : Surroundings cn isGlobal now spec} {em : Emitter} (h : (run x em).2 = .ok ()) :
    ∃ ev ∈ (run x em).1.written, ev.type = .summary := by
  unfold run at h ⊢
  have hlast (em : Emitter) (mode : Mode) (n : Nat) :
      ∃ ev ∈ (em.summaryEvent mode n).written, ev.type = .summary :=
    ⟨_, List.mem_append_right _ (List.mem_singleton_self _), rfl⟩
  cases herr : x.rescan.err with
  | some message => simp [herr] at h
  | none =>
    rw [herr] at h
    dsimp only at h ⊢
    split at h
    · cases h
    · rename_i hctx
      rw [if_neg hctx]
      split at h
      · rename_i hscan
        rw [if_pos hscan]
        exact hlast ..
      · rename_i hnuke
        rw [if_neg hnuke]
        split at h
        · cases h
        · rename_i hafter
          rw [if_neg hafter]
          exact hlast ..

/-- A worker that exits cleanly has written its summary. -/
theorem runWorker_summary {cn : CloudNuke} {isGlobal : String → Bool} {now : Int}
    {quote : String → String} {clock : Nat → Nat} {input : Except String Spec}
    {x : ∀ spec, input = .ok spec → Surroundings cn isGlobal now spec}
    (h : (runWorker quote clock input x).2 = 0) :
    ∃ ev ∈ (runWorker quote clock input x).1.written, ev.type = .summary := by
  unfold runWorker at h ⊢
  cases input with
  | error message => exact absurd h (Nat.succ_ne_zero _)
  | ok spec =>
    dsimp only at h ⊢
    cases hv : spec.validate with
    | error e =>
      rw [hv] at h
      exact absurd h (Nat.succ_ne_zero _)
    | ok u =>
      rw [hv] at h
      dsimp only at h ⊢
      rcases hr : run (x spec rfl) (Emitter.new clock) with ⟨em, (_ | _) | _⟩
      · rw [hr] at h
        exact absurd h (Nat.succ_ne_zero _)
      · rw [hr] at h
        exact absurd h (Nat.succ_ne_zero _)
      · have hsummary := @run_summary _ _ _ _ (x spec rfl) (Emitter.new clock) (by rw [hr])
        rw [hr] at hsummary
        exact hsummary

end Broom.Engine
