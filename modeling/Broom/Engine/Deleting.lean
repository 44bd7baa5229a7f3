import Broom.Engine.Run

/-!
# Interrupted delete phases

A worker can be stopped at any moment of its delete phase. Whatever part of the phase it
has run, the batches it passed to nukers consist of identifiers that the rescan listed and
that were confirmed.
-/

namespace Broom.Engine

open Broom.Core Broom.Core.Pool

/-! ## Calls of one region -/

/-- A nuker gets only confirmed identifiers of one listed resource. -/
def NukeOp.Confirmed (account : Account) (selected : Finset String) : NukeOp → Prop
  | .nuke t g batch => ∃ res ∈ account g, res.resourceName = t ∧
      ∀ id ∈ batch, id ∈ res.resourceIdentifiers ∧ selectionKey t g id ∈ selected
  | _ => True

section

variable {account : Account} {selected : Finset String}

theorem always_emitAll (reports : List Report) :
    (emitAll reports).Always (NukeOp.Confirmed account selected) := by
  induction reports with
  | nil => trivial
  | cons report reports ih => exact Prog.Always.bind (Prog.always_perform.mpr trivial) fun _ => ih

/-- The inner loop passes on the batches it is given. -/
theorem always_nukeBatches {t g : String} {batches : List (List String)}
    (h : ∀ batch ∈ batches, NukeOp.Confirmed account selected (.nuke t g batch))
    (stats : NukeStats) (errors : List String) :
    (nukeBatches t g batches stats errors).Always (NukeOp.Confirmed account selected) := by
  induction batches generalizing stats errors with
  | nil => trivial
  | cons batch batches ih =>
    have hrest := ih fun b hb => h b (List.mem_cons_of_mem _ hb)
    have hpause (delay : Delay) (rest : NukeM (NukeStats × List String × Bool))
        (hr : rest.Always (NukeOp.Confirmed account selected)) :
        (do if batches ≠ [] then sleepCtx delay
            rest).Always (NukeOp.Confirmed account selected) := by
      split
      · exact Prog.Always.bind (Prog.always_perform.mpr trivial) fun _ => hr
      · exact hr
    refine Prog.Always.bind (Prog.always_perform.mpr trivial) fun done => ?_
    cases done with
    | true => trivial
    | false =>
      refine Prog.Always.bind (Prog.always_perform.mpr trivial) fun _ => ?_
      refine Prog.Always.bind (Prog.always_perform.mpr (h batch (List.mem_cons_self ..))) ?_
      rintro ⟨results, err⟩
      refine Prog.Always.bind (always_emitAll _) fun _ => ?_
      refine Prog.Always.bind (always_emitAll _) fun _ => ?_
      cases err with
      | none => exact hpause _ _ (hrest _ _)
      | some e =>
        dsimp only
        split
        · exact Prog.Always.bind (Prog.always_perform.mpr trivial) fun _ => hrest _ _
        · exact hpause _ _ (hrest _ _)

theorem always_confirmedIds (t g : String) (ids : List String) (stats : NukeStats) :
    (confirmedIds t g selected ids stats).Always (NukeOp.Confirmed account selected) := by
  induction ids generalizing stats with
  | nil => trivial
  | cons id ids ih =>
    rw [confirmedIds]
    split
    · refine Prog.Always.bind (Prog.always_perform.mpr trivial) fun _ => ?_
      exact Prog.Always.bind (ih _) fun _ => trivial
    · exact ih _

/-- The batches of a listed resource are confirmed. -/
theorem confirmed_of_mem_split (cn : CloudNuke) {region : String} {res : AwsResource}
    (hres : res ∈ account region) {batch : List String}
    (h : batch ∈ cn.split (confirmed region selected res) res.maxBatchSize) :
    NukeOp.Confirmed account selected (.nuke res.resourceName region batch) := by
  refine ⟨res, hres, rfl, fun id hid => ?_⟩
  have hmem : id ∈ (cn.split (confirmed region selected res) res.maxBatchSize).flatten :=
    List.mem_flatten.mpr ⟨batch, h, hid⟩
  rw [cn.split_flatten] at hmem
  simpa [confirmed] using hmem

/-- The outer loop calls nukers for listed resources only. -/
theorem always_nukeResources (cn : CloudNuke) {region : String} {list : List AwsResource}
    (hlist : ∀ res ∈ list, res ∈ account region) (stats : NukeStats) (errors : List String) :
    (nukeResources cn region selected list stats errors).Always
      (NukeOp.Confirmed account selected) := by
  induction list generalizing stats errors with
  | nil => trivial
  | cons res list ih =>
    have hrest := ih fun r hr => hlist r (List.mem_cons_of_mem _ hr)
    refine Prog.Always.bind (Prog.always_perform.mpr trivial) fun done => ?_
    cases done with
    | true => trivial
    | false =>
      refine Prog.Always.bind (Prog.always_perform.mpr trivial) fun _ => ?_
      refine Prog.Always.bind_exec (always_confirmedIds ..) fun τ out hexec => ?_
      obtain ⟨-, rfl⟩ := exec_confirmedIds.mp hexec
      dsimp only
      split
      · exact hrest _ _
      · refine Prog.Always.bind (always_nukeBatches (fun batch hb => ?_) _ _) ?_
        · exact confirmed_of_mem_split cn (hlist res (List.mem_cons_self ..)) hb
        · rintro ⟨stats, errors, stopped⟩
          dsimp only
          split
          · trivial
          · exact hrest _ _

end

/-! ## Interrupted phases -/

/-- The steps of a delete phase, cut short anywhere: among the regional walks, or among the
global ones, which wait for the regional walks to return. -/
inductive PartialWalk (cn : CloudNuke) (account : Account) (regions : List String)
    (selected : Finset String) (parallelism : Int) : List Step → Prop
  | regional {τ : List Step} {r : Pool NukeOp NukeOp.Ans (NukeStats × List String)}
      (hrun : Pool.Run (effectiveParallelism cn parallelism)
        (Pool.ofList (regionWalks cn account selected (regionals regions))) τ r) :
    PartialWalk cn account regions selected parallelism τ
  | global {τ τ' : List Step} {r r' : Pool NukeOp NukeOp.Ans (NukeStats × List String)}
      (hrun : Pool.Run (effectiveParallelism cn parallelism)
        (Pool.ofList (regionWalks cn account selected (regionals regions))) τ r)
      (hcomplete : r.Complete)
      (hglobal : Pool.Run 1
        (Pool.ofList (regionWalks cn account selected (globals regions))) τ' r') :
    PartialWalk cn account regions selected parallelism (τ ++ τ')

/-- A delete phase that was not cut short. -/
theorem NukeSelected.partialWalk {cn : CloudNuke} {account : Account} {regions : List String}
    {selected : Finset String} {parallelism : Int}
    (x : NukeSelected cn account regions selected parallelism) :
    PartialWalk cn account regions selected parallelism x.trace :=
  .global x.regional_run x.regional_complete x.global_run

/-- A worker somewhere in its delete phase. -/
structure Deleting (cn : CloudNuke) (isGlobal : String → Bool) (now : Int) (spec : Spec) where
  rescan : Rescan (buildQuery isGlobal now spec).regions
  rescan_ok : rescan.err = none
  mode_ne : spec.mode ≠ .scan
  trace : List Step
  walk : PartialWalk cn rescan.account (buildQuery isGlobal now spec).regions
    (selectionKeys spec.selections) (buildQuery isGlobal now spec).parallelism trace
  world : World
  world_run : World.run {} trace = some world

/-- A worker whose delete phase has returned. -/
def Deleting.ofRun {cn : CloudNuke} {isGlobal : String → Bool} {now : Int} {spec : Spec}
    (rescan : Rescan (buildQuery isGlobal now spec).regions)
    (x : NukeSelected cn rescan.account (buildQuery isGlobal now spec).regions
      (selectionKeys spec.selections) (buildQuery isGlobal now spec).parallelism)
    (hok : rescan.err = none) (hmode : spec.mode ≠ .scan) : Deleting cn isGlobal now spec where
  rescan := rescan
  rescan_ok := hok
  mode_ne := hmode
  trace := x.trace
  walk := x.partialWalk
  world := x.world
  world_run := x.world_run

/-- All calls of a delete phase are confirmed, wherever it is cut short. -/
theorem PartialWalk.confirmed {cn : CloudNuke} {account : Account} {regions : List String}
    {selected : Finset String} {parallelism : Int} {τ : List Step}
    (h : PartialWalk cn account regions selected parallelism τ) :
    ∀ a ∈ acts τ, NukeOp.Confirmed account selected a.1 := by
  have hall {limit : Nat} {regions : List String} {τ : List Step}
      {r : Pool NukeOp NukeOp.Ans (NukeStats × List String)}
      (hrun : Pool.Run limit (Pool.ofList (regionWalks cn account selected regions)) τ r) :
      ∀ a ∈ acts τ, NukeOp.Confirmed account selected a.1 := by
    refine hrun.always fun i q hq => ?_
    have hmem : q ∈ regionWalks cn account selected regions := by
      rw [unfinished_ofList] at hq
      obtain ⟨p, hp, hpair⟩ := List.mem_map.mp hq
      obtain ⟨-, rfl⟩ := Prod.mk.inj hpair
      exact List.fst_mem_of_mem_zipIdx hp
    obtain ⟨region, -, rfl⟩ := List.mem_map.mp hmem
    exact always_nukeResources cn (fun _ hres => hres) _ _
  cases h with
  | regional hrun => exact hall hrun
  | global hrun hcomplete hglobal =>
    intro a ha
    rw [acts_append] at ha
    exact (List.mem_append.mp ha).elim (hall hrun a) (hall hglobal a)

/-- An identifier in a call is listed under its type and region, and confirmed. -/
theorem Deleting.confirmed {cn : CloudNuke} {isGlobal : String → Bool} {now : Int} {spec : Spec}
    (x : Deleting cn isGlobal now spec) {c : NukeCall} (hc : c ∈ nukeCalls (acts x.trace))
    {id : String} (hid : id ∈ c.batch) :
    (∃ res ∈ x.rescan.account c.region, res.resourceName = c.resourceType ∧
      id ∈ res.resourceIdentifiers) ∧
      ∃ s ∈ spec.selections, s.key = selectionKey c.resourceType c.region id := by
  obtain ⟨a, ha, hcall⟩ := List.mem_filterMap.mp hc
  have hconf := x.walk.confirmed a ha
  obtain ⟨op, ans⟩ := a
  cases op with
  | nuke t g batch =>
    obtain ⟨results, err⟩ := ans
    obtain rfl := Option.some.inj hcall
    obtain ⟨res, hres, hname, hids⟩ := hconf
    obtain ⟨hlisted, hkey⟩ := hids id hid
    refine ⟨⟨res, hres, hname, hlisted⟩, ?_⟩
    simpa [selectionKeys] using hkey
  | _ => cases hcall

end Broom.Engine
