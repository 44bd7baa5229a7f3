import Broom.Engine.RegionWalk
import Mathlib.Algebra.BigOperators.Group.List.Basic

/-!
# Whole runs of the delete phase

The interleaved walks of `nukeSelected` are taken apart into the walks of single
regions. What the run has seen, listed, called and reported is collected from
them, whatever the schedule.
-/

namespace Broom.Engine

open Broom.Core Broom.Core.Pool

/-! ## The shared world -/

/-- One step adds its mark and its report, and a check that passed saw the context
alive. -/
theorem World.step_eq {w w' : World} {l : Step} (h : w.step l = some w') :
    w'.seen = w.seen ∪ (marks (acts [l])).toFinset ∧
      w'.reports = w.reports ++ reportsOf (acts [l]) ∧
      (w'.ctxDone = false → w.ctxDone = false ∧ ¬ Stopped (acts [l])) := by
  rcases l with ⟨⟩ | ⟨i, op, r⟩
  · obtain rfl := Option.some.inj h
    simp
  · cases op with
    | ctxErr =>
      simp only [World.step, Option.ite_none_right_eq_some, Option.some.injEq] at h
      obtain ⟨rfl, rfl⟩ := h
      simp
    | markSeen key =>
      obtain rfl := Option.some.inj h
      refine ⟨?_, by simp, by simp⟩
      ext k
      simp
    | _ =>
      obtain rfl := Option.some.inj h
      simp

/-- A trace's world has the marks and the reports of the trace, and a context that
was never done stopped nobody. -/
theorem World.run_eq {w w' : World} {τ : List Step} (h : w.run τ = some w') :
    w'.seen = w.seen ∪ (marks (acts τ)).toFinset ∧ w'.reports = w.reports ++ reportsOf (acts τ) ∧
      (w'.ctxDone = false → w.ctxDone = false ∧ ¬ Stopped (acts τ)) := by
  induction τ generalizing w with
  | nil =>
    obtain rfl : w = w' := by simpa [World.run] using h
    simp
  | cons l τ ih =>
    obtain ⟨w₁, hstep, hrun⟩ := Option.bind_eq_some_iff.mp h
    obtain ⟨hs, hr, hd⟩ := ih hrun
    obtain ⟨hs₁, hr₁, hd₁⟩ := World.step_eq hstep
    have hacts : acts (l :: τ) = acts [l] ++ acts τ := acts_append [l] τ
    rw [hacts]
    refine ⟨by simp [hs, hs₁, Finset.union_assoc], by simp [hr, hr₁], fun hf => ?_⟩
    obtain ⟨hf₁, hgo⟩ := hd hf
    obtain ⟨hf₀, hgo₁⟩ := hd₁ hf₁
    exact ⟨hf₀, fun hstop => (stopped_append _ _ |>.mp hstop).elim hgo₁ hgo⟩

/-! ## The walks of a pool -/

/-- The walks of a list of regions inside an interleaved trace. -/
structure Walks (cn : CloudNuke) (account : Account) (selected : Finset String)
    (regions : List String) (τ : List Step) (finished : List (Nat × NukeStats × List String)) :
    Prop where
  numbers : (finished.map Prod.fst).Perm (List.range regions.length)
  walk : ∀ i r, (i, r) ∈ finished → ∃ region, regions[i]? = some region ∧
    RegionWalk cn region selected (account region) (project i τ) {} r.1
  own : ∀ i a, .act i a ∈ τ → i ∈ List.range regions.length

theorem walks_of_run {cn : CloudNuke} {account : Account} {selected : Finset String}
    {regions : List String} {limit : Nat} {τ : List Step}
    {r : Pool NukeOp NukeOp.Ans (NukeStats × List String)}
    (hrun : Pool.Run limit (Pool.ofList (regionWalks cn account selected regions)) τ r)
    (hc : r.Complete) : Walks cn account selected regions τ r.finished := by
  obtain ⟨hn, he, ho⟩ := hrun.summarised_ofList hc
  have hlen : (regionWalks cn account selected regions).length = regions.length :=
    List.length_map _
  rw [hlen] at hn ho
  refine ⟨hn, fun i out hi => ?_, ho⟩
  obtain ⟨q, hq, hexec⟩ := he i out hi
  obtain ⟨region, hregion, rfl⟩ : ∃ region, regions[i]? = some region ∧
      nukeRegionSelected cn region (account region) selected = q := by
    simpa [regionWalks, List.getElem?_map, Option.map_eq_some_iff] using hq
  exact ⟨region, hregion, nukeRegionSelected_walk hexec⟩

theorem mem_marks_acts {key : String} {τ : List Step} :
    key ∈ marks (acts τ) ↔ ∃ i, key ∈ marks (project i τ) := by
  simp only [marks, List.mem_filterMap, mem_acts, mem_project]
  constructor
  · rintro ⟨a, ⟨i, hi⟩, hk⟩
    exact ⟨i, a, hi, hk⟩
  · rintro ⟨i, a, hi, hk⟩
    exact ⟨a, ⟨i, hi⟩, hk⟩

theorem mem_listings_acts {p : String × AwsResource} {τ : List Step} :
    p ∈ listings (acts τ) ↔ ∃ i, p ∈ listings (project i τ) := by
  simp only [listings, List.mem_filterMap, mem_acts, mem_project]
  constructor
  · rintro ⟨a, ⟨i, hi⟩, hp⟩
    exact ⟨i, a, hi, hp⟩
  · rintro ⟨i, a, hi, hp⟩
    exact ⟨a, ⟨i, hi⟩, hp⟩

namespace Walks

variable {cn : CloudNuke} {account : Account} {selected : Finset String}
  {regions : List String} {τ : List Step} {finished : List (Nat × NukeStats × List String)}

/-- The walk of a region that occurs in the list. -/
theorem at_number (h : Walks cn account selected regions τ finished) {i : Nat} {region : String}
    (hi : regions[i]? = some region) :
    ∃ r, (i, r) ∈ finished ∧
      RegionWalk cn region selected (account region) (project i τ) {} r.1 := by
  have hlt : i < regions.length := (List.getElem?_eq_some_iff.mp hi).1
  have hmem : i ∈ finished.map Prod.fst := h.numbers.mem_iff.mpr (List.mem_range.mpr hlt)
  obtain ⟨⟨j, r⟩, hr, rfl⟩ := List.mem_map.mp hmem
  obtain ⟨region', hregion, hw⟩ := h.walk _ r hr
  obtain rfl : region = region' := Option.some.inj (hi.symm.trans hregion)
  exact ⟨r, hr, hw⟩

/-- The walk of a number that occurs in the trace. -/
theorem of_mem_project (h : Walks cn account selected regions τ finished) {i : Nat}
    {a : Act NukeOp.Ans} (ha : a ∈ project i τ) :
    ∃ region ∈ regions, ∃ r, RegionWalk cn region selected (account region) (project i τ) {} r := by
  have hlt := List.mem_range.mp (h.own i a (mem_project.mp ha))
  obtain ⟨r, -, hw⟩ := h.at_number (List.getElem?_eq_getElem hlt)
  exact ⟨_, List.getElem_mem hlt, _, hw⟩

/-- What a pool lists belongs to its regions. -/
theorem mem_account (h : Walks cn account selected regions τ finished)
    {p : String × AwsResource} (hp : p ∈ listings (acts τ)) :
    p.1 ∈ regions ∧ p.2 ∈ account p.1 := by
  obtain ⟨i, hi⟩ := mem_listings_acts.mp hp
  obtain ⟨a, ha, -⟩ := List.mem_filterMap.mp hi
  obtain ⟨region, hregion, r, hw⟩ := h.of_mem_project ha
  obtain rfl := hw.listings_region p hi
  exact ⟨hregion, hw.listings_prefix.subset (List.mem_map_of_mem hi)⟩

/-- A pool marks exactly the confirmed keys of what it lists. -/
theorem mem_marks_iff (h : Walks cn account selected regions τ finished) {key : String} :
    key ∈ marks (acts τ) ↔ ∃ p ∈ listings (acts τ), key ∈ confirmedKeys p.1 selected p.2 := by
  constructor
  · intro hk
    obtain ⟨i, hi⟩ := mem_marks_acts.mp hk
    obtain ⟨a, ha, -⟩ := List.mem_filterMap.mp hi
    obtain ⟨region, -, r, hw⟩ := h.of_mem_project ha
    rw [hw.marks, List.mem_flatMap] at hi
    obtain ⟨p, hp, hk⟩ := hi
    exact ⟨p, mem_listings_acts.mpr ⟨i, hp⟩, hk⟩
  · rintro ⟨p, hp, hk⟩
    obtain ⟨i, hi⟩ := mem_listings_acts.mp hp
    obtain ⟨a, ha, -⟩ := List.mem_filterMap.mp hi
    obtain ⟨region, -, r, hw⟩ := h.of_mem_project ha
    refine mem_marks_acts.mpr ⟨i, ?_⟩
    rw [hw.marks]
    exact List.mem_flatMap.mpr ⟨p, hi, hk⟩

/-- A pool that no done context stopped lists every resource of its regions. -/
theorem mem_listings_of_not_stopped (h : Walks cn account selected regions τ finished)
    (hgo : ¬ Stopped (acts τ)) {region : String} (hregion : region ∈ regions)
    {res : AwsResource} (hres : res ∈ account region) : (region, res) ∈ listings (acts τ) := by
  obtain ⟨i, hi⟩ := List.mem_iff_getElem?.mp hregion
  obtain ⟨r, -, hw⟩ := h.at_number hi
  have hgo' : ¬ Stopped (project i τ) := fun hs =>
    hgo (mem_acts.mpr ⟨i, mem_project.mp hs⟩)
  rw [← hw.listings_complete hgo'] at hres
  obtain ⟨p, hp, rfl⟩ := List.mem_map.mp hres
  obtain rfl := hw.listings_region p hp
  exact mem_listings_acts.mpr ⟨i, hp⟩

/-- A pool reports only what belongs to its calls. -/
theorem mem_reports (h : Walks cn account selected regions τ finished) {report : Report}
    (hr : report ∈ reportsOf (acts τ)) : ∃ c ∈ nukeCalls (acts τ), report ∈ c.reports := by
  obtain ⟨a, ha, hrep⟩ := List.mem_filterMap.mp hr
  obtain ⟨i, hi⟩ := mem_acts.mp ha
  have hi' := mem_project.mpr hi
  obtain ⟨region, -, r, hw⟩ := h.of_mem_project hi'
  have hmem : report ∈ reportsOf (project i τ) := List.mem_filterMap.mpr ⟨a, hi', hrep⟩
  rw [hw.reports, List.mem_flatMap] at hmem
  obtain ⟨c, hc, hmem⟩ := hmem
  obtain ⟨b, hb, hcall⟩ := List.mem_filterMap.mp hc
  exact ⟨c, List.mem_filterMap.mpr ⟨b, mem_acts.mpr ⟨i, mem_project.mp hb⟩, hcall⟩, hmem⟩

end Walks

/-! ## The whole run -/

/-- A call reports no resource as gone. -/
theorem NukeCall.not_gone {c : NukeCall} {t g i : String} : .resourceGone t g i ∉ c.reports := by
  cases h : c.err <;> simp [NukeCall.reports, resultReport, bareReports, h]

/-- The keys of a list of selections, as the worker collects them. -/
def selectionKeys (selections : List Selection) : Finset String :=
  (selections.map Selection.key).toFinset

/-- A selected key is the key of its own closing report. -/
theorem selectionKey_of_mem_selectionKeys {selections : List Selection} {key : String}
    (h : key ∈ selectionKeys selections) :
    selectionKey (splitKey key).1 (splitKey key).2.1 (splitKey key).2.2 = key := by
  obtain ⟨s, -, rfl⟩ : ∃ s ∈ selections, s.key = key := by simpa [selectionKeys] using h
  exact selectionKey_splitKey_selectionKey ..

/-- The keys of all identifiers that the rescan lists in some regions. -/
def listedKeys (account : Account) (regions : List String) : List String :=
  regions.flatMap fun region => (account region).flatMap (AwsResource.keys region)

namespace NukeSelected

variable {cn : CloudNuke} {account : Account} {regions : List String} {selected : Finset String}
  {parallelism : Int}

/-- The resources whose turn came in the walk of their region. -/
def reached (run : NukeSelected cn account regions selected parallelism) :
    List (String × AwsResource) := listings (acts run.trace)

theorem regional_walks (run : NukeSelected cn account regions selected parallelism) :
    Walks cn account selected (regionals regions) run.regional run.regionalEnd.finished :=
  walks_of_run run.regional_run run.regional_complete

theorem global_walks (run : NukeSelected cn account regions selected parallelism) :
    Walks cn account selected (globals regions) run.global run.globalEnd.finished :=
  walks_of_run run.global_run run.global_complete

theorem mem_reached (run : NukeSelected cn account regions selected parallelism)
    {p : String × AwsResource} :
    p ∈ run.reached ↔ p ∈ listings (acts run.regional) ∨ p ∈ listings (acts run.global) := by
  simp [reached, trace]

/-- Only listed resources of walked regions are reached. -/
theorem mem_account_of_mem_reached (run : NukeSelected cn account regions selected parallelism)
    {p : String × AwsResource} (hp : p ∈ run.reached) : p.1 ∈ regions ∧ p.2 ∈ account p.1 := by
  rcases run.mem_reached.mp hp with hp | hp
  · have h := run.regional_walks.mem_account hp
    exact ⟨(List.mem_filter.mp h.1).1, h.2⟩
  · have h := run.global_walks.mem_account hp
    exact ⟨(List.mem_filter.mp h.1).1, h.2⟩

/-- The run has seen exactly the confirmed keys of the resources it reached. -/
theorem mem_seen_iff (run : NukeSelected cn account regions selected parallelism) {key : String} :
    key ∈ run.world.seen ↔ ∃ p ∈ run.reached, key ∈ confirmedKeys p.1 selected p.2 := by
  have hseen : key ∈ run.world.seen ↔
      key ∈ marks (acts run.regional) ∨ key ∈ marks (acts run.global) := by
    simp [(World.run_eq run.world_run).1]
  rw [hseen, run.regional_walks.mem_marks_iff, run.global_walks.mem_marks_iff]
  constructor
  · rintro (⟨p, hp, hk⟩ | ⟨p, hp, hk⟩)
    · exact ⟨p, run.mem_reached.mpr (Or.inl hp), hk⟩
    · exact ⟨p, run.mem_reached.mpr (Or.inr hp), hk⟩
  · rintro ⟨p, hp, hk⟩
    rcases run.mem_reached.mp hp with hp | hp
    · exact Or.inl ⟨p, hp, hk⟩
    · exact Or.inr ⟨p, hp, hk⟩

/-- No walk reports a resource as gone. -/
theorem not_gone_mem_world_reports
    (run : NukeSelected cn account regions selected parallelism) {t g i : String} :
    .resourceGone t g i ∉ run.world.reports := by
  rw [(World.run_eq run.world_run).2.1, acts_append, reportsOf_append]
  intro h
  rcases List.mem_append.mp (by simpa using h) with h | h
  · obtain ⟨c, -, hc⟩ := run.regional_walks.mem_reports h
    exact NukeCall.not_gone hc
  · obtain ⟨c, -, hc⟩ := run.global_walks.mem_reports h
    exact NukeCall.not_gone hc

/-- The keys closed out as gone are the confirmed ones the run has not seen. -/
theorem mem_gone_iff (run : NukeSelected cn account regions selected parallelism) {key : String} :
    key ∈ run.gone ↔ key ∈ selected ∧ key ∉ run.world.seen := by
  rw [run.gone_perm.mem_iff, Finset.mem_toList, Finset.mem_sdiff]

/-- A run whose context was never done reaches every resource of its regions. -/
theorem mem_reached_of_uncancelled (run : NukeSelected cn account regions selected parallelism)
    (hgo : run.world.ctxDone = false) {region : String} (hregion : region ∈ regions)
    {res : AwsResource} (hres : res ∈ account region) : (region, res) ∈ run.reached := by
  obtain ⟨-, hstop⟩ := (World.run_eq run.world_run).2.2 hgo
  rw [acts_append, stopped_append, not_or] at hstop
  rw [run.mem_reached]
  by_cases hglobal : region = globalRegion
  · refine Or.inr (run.global_walks.mem_listings_of_not_stopped hstop.2 ?_ hres)
    exact List.mem_filter.mpr ⟨hregion, by simpa using hglobal⟩
  · refine Or.inl (run.regional_walks.mem_listings_of_not_stopped hstop.1 ?_ hres)
    exact List.mem_filter.mpr ⟨hregion, by simpa using hglobal⟩

end NukeSelected

/-! ## Undisturbed sequential runs -/

/-- What a nuker replies to a batch of a type and a region. -/
abbrev Nuker := String → String → List String → List NukeResult × Option GoError

/-- The answers of a nuker under a context that is never done. -/
def Nuker.oracle (nuker : Nuker) : (op : NukeOp) → op.Ans
  | .ctxErr => false
  | .nuke t g batch => nuker t g batch
  | .resourceIdentifiers _ _ => ()
  | .markSeen _ => ()
  | .emit _ => ()
  | .sleepCtx _ => ()

/-- Steps that a nuker answers under a live context leave the context alive. -/
theorem World.run_alive {nuker : Nuker} {w : World} (hw : w.ctxDone = false) {τ : List Step}
    (hτ : ∀ l ∈ τ, ∃ i a, l = .act i a ∧ a.2 = nuker.oracle a.1) :
    ∃ w', w.run τ = some w' ∧ w'.ctxDone = false := by
  induction τ generalizing w with
  | nil => exact ⟨w, rfl, hw⟩
  | cons l τ ih =>
    obtain ⟨i, ⟨op, r⟩, rfl, hr⟩ := hτ l (List.mem_cons_self ..)
    have hstep : ∃ w₁, w.step (.act i ⟨op, r⟩) = some w₁ ∧ w₁.ctxDone = false := by
      cases op with
      | ctxErr => exact ⟨w, if_pos (hr.trans hw.symm), hw⟩
      | _ => exact ⟨_, rfl, hw⟩
    obtain ⟨w₁, hs, hw₁⟩ := hstep
    obtain ⟨w', hrun, hw'⟩ := ih hw₁ fun l hl => hτ l (List.mem_cons_of_mem _ hl)
    exact ⟨w', by rw [World.run, hs]; exact hrun, hw'⟩

/-- The walks of some regions one after another. -/
def walksInOrder (cn : CloudNuke) (account : Account) (selected : Finset String)
    (nuker : Nuker) (regions : List String) : List Step :=
  sequential nuker.oracle (ofList (regionWalks cn account selected regions)).waiting

theorem effectiveParallelism_pos (cn : CloudNuke) (parallelism : Int) :
    0 < effectiveParallelism cn parallelism := by
  unfold effectiveParallelism
  split
  · exact cn.defaultParallelism_pos
  · omega

/-- The world after all walks in order. -/
theorem exists_world_walksInOrder (cn : CloudNuke) (account : Account) (regions : List String)
    (selected : Finset String) (nuker : Nuker) :
    ∃ w, World.run {} (walksInOrder cn account selected nuker (regionals regions) ++
      walksInOrder cn account selected nuker (globals regions)) = some w ∧ w.ctxDone = false :=
  World.run_alive rfl fun _ hl => (List.mem_append.mp hl).elim
    answered_of_mem_sequential answered_of_mem_sequential

/-- Whatever its nuker replies, `nukeSelected` has a run under a live context: the one
that walks region after region. -/
noncomputable def NukeSelected.inOrder (cn : CloudNuke) (account : Account)
    (regions : List String) (selected : Finset String) (parallelism : Int) (nuker : Nuker) :
    NukeSelected cn account regions selected parallelism where
  regional := walksInOrder cn account selected nuker (regionals regions)
  regionalEnd := _
  regional_run := Run.sequential (effectiveParallelism_pos cn parallelism) nuker.oracle _ _
  regional_complete := rfl
  global := walksInOrder cn account selected nuker (globals regions)
  globalEnd := _
  global_run := Run.sequential Nat.one_pos nuker.oracle _ _
  global_complete := rfl
  world := (exists_world_walksInOrder cn account regions selected nuker).choose
  world_run := (exists_world_walksInOrder cn account regions selected nuker).choose_spec.1
  gone := _
  gone_perm := .refl _

namespace NukeSelected

variable (cn : CloudNuke) (account : Account) (regions : List String) (selected : Finset String)
  (parallelism : Int) (nuker : Nuker)

theorem inOrder_uncancelled :
    (inOrder cn account regions selected parallelism nuker).world.ctxDone = false :=
  (exists_world_walksInOrder cn account regions selected nuker).choose_spec.2

/-- The replies in a sequential run are the nuker's. -/
theorem inOrder_reply {c : NukeCall}
    (h : c ∈ nukeCalls (acts (inOrder cn account regions selected parallelism nuker).trace)) :
    (c.results, c.err) = nuker c.resourceType c.region c.batch := by
  obtain ⟨⟨op, r⟩, ha, hcall⟩ := List.mem_filterMap.mp h
  obtain ⟨i, hi⟩ := mem_acts.mp ha
  obtain ⟨_, _, he, hr⟩ := (List.mem_append.mp hi).elim
    answered_of_mem_sequential answered_of_mem_sequential
  obtain ⟨-, rfl⟩ := Label.act.inj he
  cases op with
  | nuke t g batch =>
    obtain rfl := Option.some.inj hcall
    exact hr
  | _ => simp at hcall

end NukeSelected

end Broom.Engine
