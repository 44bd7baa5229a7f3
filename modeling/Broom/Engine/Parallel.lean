import Broom.Core.Schedule
import Broom.Engine.Batches

/-!
# Parallel regions

Where the nukers of one region do not depend on another, the parallel walk of
`nukeSelected` does what the walks of its regions do alone: the calls of each
region, the reports as a multiset and the statistics are those of walking the
regions one after another. The calls of the global pseudo-region come last.
-/

namespace Broom.Engine

open Broom.Core Broom.Core.Pool

/-- Nukers whose replies depend on their own region only: on what was called there
before and what it replied. -/
abbrev RegionNuker :=
  String → List NukeCall → String → List String → List NukeResult × Option GoError

/-- The answers to a region's walk under a context that is never done. -/
def RegionNuker.oracle (nuker : RegionNuker) : Oracle NukeOp.Ans
  | _, .ctxErr => false
  | history, .nuke t g batch => nuker g (nukeCalls history) t batch
  | _, .resourceIdentifiers _ _ => ()
  | _, .markSeen _ => ()
  | _, .emit _ => ()
  | _, .sleepCtx _ => ()

/-- The calls of one region in a trace of all walks. -/
def callsOf (region : String) (τ : List Step) : List NukeCall :=
  (nukeCalls (acts τ)).filter (·.region = region)

/-- Every reply in a trace is the nuker's to the earlier calls of the same region. -/
def RegionNuker.Replies (nuker : RegionNuker) (τ : List Step) : Prop :=
  ∀ before i t g batch reply after, τ = before ++ .act i ⟨.nuke t g batch, reply⟩ :: after →
    reply = nuker g (callsOf g before) t batch

/-! ## Walking the regions one after another -/

/-- The walk of one region with nothing else going on. -/
def walkAlone (cn : CloudNuke) (account : Account) (selected : Finset String)
    (nuker : RegionNuker) (region : String) :
    List (Act NukeOp.Ans) × NukeStats × List String :=
  (nukeRegionSelected cn region (account region) selected).follow nuker.oracle []

/-- The keys seen when the regions are walked one after another. -/
def seenInTurn (cn : CloudNuke) (account : Account) (selected : Finset String)
    (nuker : RegionNuker) (regions : List String) : Finset String :=
  (regions.flatMap fun region =>
    marks (walkAlone cn account selected nuker region).1).toFinset

/-- What is reported when the regions are walked one after another. -/
def reportsInTurn (cn : CloudNuke) (account : Account) (selected : Finset String)
    (nuker : RegionNuker) (regions : List String) : Multiset Report :=
  (regions.flatMap fun region => reportsOf (walkAlone cn account selected nuker region).1) +
    (selected \ seenInTurn cn account selected nuker regions).val.map goneReport

/-- The statistics when the regions are walked one after another. -/
def statsInTurn (cn : CloudNuke) (account : Account) (selected : Finset String)
    (nuker : RegionNuker) (regions : List String) : NukeStats where
  attempted := (regions.map fun region =>
    (walkAlone cn account selected nuker region).2.1.attempted).sum
  notSelected := (regions.map fun region =>
    (walkAlone cn account selected nuker region).2.1.notSelected).sum
  alreadyGone := (selected \ seenInTurn cn account selected nuker regions).card

/-! ## The calls of one region -/

@[simp] theorem callsOf_append (region : String) (τ τ' : List Step) :
    callsOf region (τ ++ τ') = callsOf region τ ++ callsOf region τ' := by
  simp [callsOf]

/-- Where each walk calls in its own region and no region occurs twice, the calls of
a region are those of its walk. -/
theorem callsOf_eq_project {regions : List String} (hn : regions.Nodup) {τ : List Step}
    (hτ : ∀ j a c, .act j a ∈ τ → nukeCall a = some c → regions[j]? = some c.region)
    {i : Nat} {region : String} (hi : regions[i]? = some region) :
    callsOf region τ = nukeCalls (project i τ) := by
  induction τ with
  | nil => rfl
  | cons l τ ih =>
    have ht := ih fun j a c ha => hτ j a c (List.mem_cons_of_mem _ ha)
    cases l with
    | env e => exact ht
    | act j a =>
      rw [project_act, callsOf, acts_act, nukeCalls_cons, List.filter_append, ← callsOf, ht]
      cases hcall : nukeCall a with
      | none =>
        split
        · rw [nukeCalls_cons, hcall]
          rfl
        · rfl
      | some c =>
        have hj := hτ j a c (List.mem_cons_self ..) hcall
        by_cases hij : j = i
        · subst hij
          obtain rfl : c.region = region := Option.some.inj (hj.symm.trans hi)
          rw [if_pos rfl, nukeCalls_cons, hcall]
          simp
        · have hne : c.region ≠ region := by
            rintro rfl
            exact hij ((List.getElem?_inj (List.getElem?_eq_some_iff.mp hj).1 hn).mp
              (hj.trans hi.symm))
          simp [hij, hne]

namespace Walks

variable {cn : CloudNuke} {account : Account} {selected : Finset String}
  {regions : List String} {τ : List Step} {finished : List (Nat × NukeStats × List String)}

/-- A walk calls nukers of its own region. -/
theorem region_of_call (h : Walks cn account selected regions τ finished) {i : Nat}
    {a : Act NukeOp.Ans} {c : NukeCall} (ha : .act i a ∈ τ) (hc : nukeCall a = some c) :
    regions[i]? = some c.region := by
  have hlt := List.mem_range.mp (h.own i a ha)
  obtain ⟨r, -, hw⟩ := h.at_number (List.getElem?_eq_getElem hlt)
  have hmem : c ∈ nukeCalls (project i τ) :=
    List.mem_filterMap.mpr ⟨a, mem_project.mpr ha, hc⟩
  rw [hw.calls_region c hmem]
  exact List.getElem?_eq_getElem hlt

/-- The calls of a pool are in its regions. -/
theorem region_mem (h : Walks cn account selected regions τ finished) {c : NukeCall}
    (hc : c ∈ nukeCalls (acts τ)) : c.region ∈ regions := by
  obtain ⟨a, ha, hcall⟩ := List.mem_filterMap.mp hc
  obtain ⟨i, hi⟩ := mem_acts.mp ha
  exact List.mem_of_getElem? (h.region_of_call hi hcall)

/-- A pool makes no call in a foreign region. -/
theorem callsOf_eq_nil (h : Walks cn account selected regions τ finished) {region : String}
    (hregion : region ∉ regions) : callsOf region τ = [] := by
  apply List.filter_eq_nil_iff.mpr
  intro c hc hr
  exact hregion (of_decide_eq_true hr ▸ h.region_mem hc)

/-- Inside a live trace in which the region nukers reply, every walk of a pool is
answered from its own past. -/
theorem answers (h : Walks cn account selected regions τ finished) (hn : regions.Nodup)
    {nuker : RegionNuker} {earlier later : List Step}
    (hreply : nuker.Replies (earlier ++ (τ ++ later))) (hgo : ¬ Stopped (acts τ))
    (hfirst : ∀ region ∈ regions, callsOf region earlier = []) (i : Nat) :
    nuker.oracle.Answers [] (project i τ) := by
  rintro before ⟨op, r⟩ after he
  obtain ⟨σ, σ', hτ, hσ⟩ := exists_of_project_eq he
  have hmem : Label.act i ⟨op, r⟩ ∈ τ := by
    rw [hτ]
    simp
  cases op with
  | ctxErr =>
    cases r with
    | false => rfl
    | true => exact absurd (mem_acts.mpr ⟨i, hmem⟩) hgo
  | nuke t g batch =>
    have hcalls : callsOf g σ = nukeCalls before := by
      rw [← hσ]
      refine callsOf_eq_project hn (fun j a c ha hc => h.region_of_call ?_ hc)
        (h.region_of_call hmem rfl)
      rw [hτ]
      exact List.mem_append_left _ ha
    have hg : callsOf g earlier = [] :=
      hfirst g (List.mem_of_getElem? (h.region_of_call hmem rfl))
    have hr := hreply (earlier ++ σ) i t g batch r (σ' ++ later) (by rw [hτ]; simp)
    rw [callsOf_append, hg, List.nil_append, hcalls] at hr
    exact hr
  | _ => rfl

end Walks

/-- What a complete pool does under the region nukers: the walks alone. -/
theorem pool_inTurn {cn : CloudNuke} {account : Account} {selected : Finset String}
    {nuker : RegionNuker} {regions : List String} {limit : Nat} {τ : List Step}
    {r : Pool NukeOp NukeOp.Ans (NukeStats × List String)}
    (hrun : Pool.Run limit (Pool.ofList (regionWalks cn account selected regions)) τ r)
    (hc : r.Complete) (hans : ∀ i, nuker.oracle.Answers [] (project i τ)) :
    (∀ i region, regions[i]? = some region →
        project i τ = (walkAlone cn account selected nuker region).1) ∧
      (acts τ).Perm (regions.flatMap fun region =>
        (walkAlone cn account selected nuker region).1) ∧
      (r.finished.map Prod.snd).Perm (regions.map fun region =>
        (walkAlone cn account selected nuker region).2) := by
  obtain ⟨hproject, hacts, hresults⟩ := hrun.follow hc hans
  rw [regionWalks, List.flatMap_map] at hacts
  rw [regionWalks, List.map_map] at hresults
  refine ⟨fun i region hi => hproject i _ ?_, hacts, hresults⟩
  rw [regionWalks, List.getElem?_map, hi]
  rfl

theorem mem_regionals {region : String} {regions : List String} :
    region ∈ regionals regions ↔ region ∈ regions ∧ region ≠ globalRegion := by
  simp [regionals]

theorem mem_globals {region : String} {regions : List String} :
    region ∈ globals regions ↔ region ∈ regions ∧ region = globalRegion := by
  simp [globals]

/-- The calls of a region are those of its walk alone. -/
theorem callsOf_inTurn {cn : CloudNuke} {account : Account} {selected : Finset String}
    {nuker : RegionNuker} {regions : List String} {τ : List Step}
    {finished : List (Nat × NukeStats × List String)}
    (hw : Walks cn account selected regions τ finished) (hn : regions.Nodup)
    (hproject : ∀ i region, regions[i]? = some region →
      project i τ = (walkAlone cn account selected nuker region).1)
    {region : String} (hregion : region ∈ regions) :
    callsOf region τ = nukeCalls (walkAlone cn account selected nuker region).1 := by
  obtain ⟨i, hi⟩ := List.mem_iff_getElem?.mp hregion
  rw [← hproject i region hi]
  exact callsOf_eq_project hn (fun _ _ _ ha hc => hw.region_of_call ha hc) hi

/-- The regional regions and the global ones are the regions. -/
theorem regionals_append_globals_perm (regions : List String) :
    (regionals regions ++ globals regions).Perm regions := by
  simpa [regionals, globals] using List.filter_append_perm (fun r => r ≠ globalRegion) regions

namespace NukeSelected

variable {cn : CloudNuke} {account : Account} {regions : List String} {selected : Finset String}
  {parallelism : Int}

/-- Both pools of a live run under the region nukers are walks alone. -/
theorem pools_inTurn (run : NukeSelected cn account regions selected parallelism)
    (hn : regions.Nodup) (hlive : run.world.ctxDone = false) {nuker : RegionNuker}
    (hreply : nuker.Replies run.trace) :
    (∀ i, nuker.oracle.Answers [] (project i run.regional)) ∧
      ∀ i, nuker.oracle.Answers [] (project i run.global) := by
  obtain ⟨-, hgo⟩ := (World.run_eq run.world_run).2.2 hlive
  rw [acts_append, stopped_append, not_or] at hgo
  have hfirst : nuker.Replies ([] ++ (run.regional ++ run.global)) := hreply
  have hlast : nuker.Replies (run.regional ++ (run.global ++ [])) := by
    rwa [List.append_nil]
  refine ⟨run.regional_walks.answers (hn.filter _) hfirst hgo.1 fun _ _ => rfl,
    run.global_walks.answers (hn.filter _) hlast hgo.2 fun region hregion => ?_⟩
  exact run.regional_walks.callsOf_eq_nil fun h => (mem_regionals.mp h).2 (mem_globals.mp hregion).2

/-- The operations of a live run are those of the walks in turn. -/
theorem acts_trace_perm (run : NukeSelected cn account regions selected parallelism)
    (hn : regions.Nodup) (hlive : run.world.ctxDone = false) {nuker : RegionNuker}
    (hreply : nuker.Replies run.trace) :
    (acts run.trace).Perm (regions.flatMap fun region =>
      (walkAlone cn account selected nuker region).1) := by
  obtain ⟨hregional, hglobal⟩ := run.pools_inTurn hn hlive hreply
  have hfirst := (pool_inTurn run.regional_run run.regional_complete hregional).2.1
  have hlast := (pool_inTurn run.global_run run.global_complete hglobal).2.1
  rw [trace, acts_append]
  refine (hfirst.append hlast).trans ?_
  rw [← List.flatMap_append]
  exact (regionals_append_globals_perm regions).flatMap_right _

/-- The results of a live run are those of the walks in turn. -/
theorem results_perm (run : NukeSelected cn account regions selected parallelism)
    (hn : regions.Nodup) (hlive : run.world.ctxDone = false) {nuker : RegionNuker}
    (hreply : nuker.Replies run.trace) :
    run.results.Perm (regions.map fun region =>
      (walkAlone cn account selected nuker region).2) := by
  obtain ⟨hregional, hglobal⟩ := run.pools_inTurn hn hlive hreply
  have hfirst := (pool_inTurn run.regional_run run.regional_complete hregional).2.2
  have hlast := (pool_inTurn run.global_run run.global_complete hglobal).2.2
  rw [results, List.map_append]
  refine (hfirst.append hlast).trans ?_
  rw [← List.map_append]
  exact (regionals_append_globals_perm regions).map _

/-- A live run has seen the keys of the walks in turn. -/
theorem seen_eq_seenInTurn (run : NukeSelected cn account regions selected parallelism)
    (hn : regions.Nodup) (hlive : run.world.ctxDone = false) {nuker : RegionNuker}
    (hreply : nuker.Replies run.trace) :
    run.world.seen = seenInTurn cn account selected nuker regions := by
  have hmarks : (marks (acts run.trace)).Perm (regions.flatMap fun region =>
      marks (walkAlone cn account selected nuker region).1) := by
    refine ((run.acts_trace_perm hn hlive hreply).filterMap markedKey).trans (.of_eq ?_)
    exact List.filterMap_flatMap
  rw [(World.run_eq run.world_run).1, seenInTurn]
  simpa [trace] using List.toFinset_eq_of_perm _ _ hmarks

/-- The schedule of the regions does not matter to what a live run calls, reports and
counts, and the global pseudo-region comes last. -/
theorem schedule_irrelevant (run : NukeSelected cn account regions selected parallelism)
    (hn : regions.Nodup) (hlive : run.world.ctxDone = false) {nuker : RegionNuker}
    (hreply : nuker.Replies run.trace) :
    (∃ first last, nukeCalls (acts run.trace) = first ++ last ∧
        (∀ c ∈ first, c.region ≠ globalRegion) ∧ ∀ c ∈ last, c.region = globalRegion) ∧
      (∀ region ∈ regions, callsOf region run.trace =
        nukeCalls (walkAlone cn account selected nuker region).1) ∧
      (run.reports : Multiset Report) = reportsInTurn cn account selected nuker regions ∧
      run.stats = statsInTurn cn account selected nuker regions := by
  obtain ⟨hregional, hglobal⟩ := run.pools_inTurn hn hlive hreply
  have hseen := run.seen_eq_seenInTurn hn hlive hreply
  have hgone : (run.gone : Multiset String) =
      (selected \ seenInTurn cn account selected nuker regions).val := by
    rw [← hseen, ← Finset.coe_toList]
    exact Multiset.coe_eq_coe.mpr run.gone_perm
  refine ⟨⟨nukeCalls (acts run.regional), nukeCalls (acts run.global), ?_, ?_, ?_⟩, ?_, ?_, ?_⟩
  · simp [trace]
  · exact fun c hc => (mem_regionals.mp (run.regional_walks.region_mem hc)).2
  · exact fun c hc => (mem_globals.mp (run.global_walks.region_mem hc)).2
  · intro region hregion
    rw [trace, callsOf_append]
    by_cases heq : region = globalRegion
    · rw [run.regional_walks.callsOf_eq_nil fun h => (mem_regionals.mp h).2 heq, List.nil_append]
      exact callsOf_inTurn run.global_walks (hn.filter _)
        (pool_inTurn run.global_run run.global_complete hglobal).1
        (mem_globals.mpr ⟨hregion, heq⟩)
    · rw [run.global_walks.callsOf_eq_nil fun h => heq (mem_globals.mp h).2, List.append_nil]
      exact callsOf_inTurn run.regional_walks (hn.filter _)
        (pool_inTurn run.regional_run run.regional_complete hregional).1
        (mem_regionals.mpr ⟨hregion, heq⟩)
  · have hwalked : run.world.reports.Perm (regions.flatMap fun region =>
        reportsOf (walkAlone cn account selected nuker region).1) := by
      rw [(World.run_eq run.world_run).2.1]
      exact ((run.acts_trace_perm hn hlive hreply).filterMap emitted).trans
        (.of_eq List.filterMap_flatMap)
    rw [reports, reportsInTurn, ← hgone, ← Multiset.coe_add, Multiset.map_coe,
      Multiset.coe_eq_coe.mpr hwalked]
  · have hresults := run.results_perm hn hlive hreply
    have hcard := congrArg Multiset.card hgone
    rw [stats, statsInTurn, (hresults.map _).sum_eq, (hresults.map _).sum_eq, List.map_map,
      List.map_map]
    exact congrArg (NukeStats.mk _ _) hcard

/-- A nuker without memory replies in a sequential run as a region's nuker would. -/
theorem inOrder_replies (cn : CloudNuke) (account : Account) (regions : List String)
    (selected : Finset String) (parallelism : Int) (nuker : Nuker) :
    RegionNuker.Replies (fun g _ t batch => nuker t g batch)
      (inOrder cn account regions selected parallelism nuker).trace := by
  intro before i t g batch reply after he
  apply inOrder_reply (c := ⟨t, g, batch, reply.1, reply.2⟩)
  rw [he]
  simp

/-- Three regions with one topic each, the global one in the middle of the list. -/
theorem schedule_irrelevant_topics :
    (inOrder CloudNuke.standard (fun _ => [topic]) ["us-east-1", "global", "eu-west-1"]
      (selectionKeys [⟨"sns-topic", "us-east-1", "a"⟩, ⟨"sns-topic", "global", "a"⟩,
        ⟨"sns-topic", "eu-west-1", "b"⟩]) 2 silentNuker).stats = ⟨2, 1, 1⟩ :=
  (schedule_irrelevant _ (by decide) (inOrder_uncancelled _ _ _ _ _ _)
    (inOrder_replies _ _ _ _ _ _)).2.2.2.trans (by decide +kernel)

end NukeSelected

end Broom.Engine
