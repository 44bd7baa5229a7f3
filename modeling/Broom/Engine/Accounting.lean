import Broom.Engine.NukeRun
import Mathlib.Data.List.Flatten

/-!
# Every confirmed resource is accounted for

An uncancelled run closes out each confirmed key once: with the report of the
batch it was in, or with the report that it is gone. Each level of the walk
(result, batch, resource, region, pool) hands the multiset of its keys on to the
next one, whatever the schedule and the replies.
-/

namespace Broom.Engine

open Broom.Core Broom.Core.Pool

/-! ## Calls -/

/-- What the walk relies on in a nuker's reply: results for identifiers of the batch
only, at most one for each, and an error if one is left out. -/
structure NukeCall.Contract (c : NukeCall) : Prop where
  results_mem : ∀ r ∈ c.results, r.identifier ∈ c.batch
  results_nodup : (c.results.map NukeResult.identifier).Nodup
  complete_or_err : (∃ id ∈ c.batch, id ∉ c.results.map NukeResult.identifier) → c.err ≠ none

/-- The keys of a call's batch. -/
def NukeCall.keys (c : NukeCall) : List String :=
  c.batch.map (selectionKey c.resourceType c.region)

theorem outcomes_resultReports (t g : String) (results : List NukeResult) :
    outcomes (results.map (resultReport t g)) =
      (results.map NukeResult.identifier).map (selectionKey t g) := by
  simp [outcomes, List.filterMap_map, Function.comp_def, resultReport, Report.outcome]

theorem outcomes_bareReports (t g : String) (batch : List String) (results : List NukeResult)
    (e : GoError) : outcomes (bareReports t g batch results (some e)) =
      (batch.filter fun id => id ∉ results.map NukeResult.identifier).map (selectionKey t g) := by
  simp [outcomes, bareReports, List.filterMap_map, Function.comp_def, Report.outcome]

/-- The reports of a call close out the keys of its batch, each once. -/
theorem NukeCall.outcomes_perm {c : NukeCall} (hc : c.Contract) (hn : c.batch.Nodup) :
    (outcomes c.reports).Perm c.keys := by
  let named := c.results.map NukeResult.identifier
  have hnamed : named.Perm (c.batch.filter fun id => id ∈ named) := by
    refine (List.perm_ext_iff_of_nodup hc.results_nodup (hn.filter _)).mpr fun id => ?_
    constructor
    · intro hid
      obtain ⟨r, hr, rfl⟩ := List.mem_map.mp hid
      exact List.mem_filter.mpr ⟨hc.results_mem r hr, decide_eq_true hid⟩
    · intro hid
      exact of_decide_eq_true (List.mem_filter.mp hid).2
  have hbare : outcomes (bareReports c.resourceType c.region c.batch c.results c.err) =
      (c.batch.filter fun id => id ∉ named).map (selectionKey c.resourceType c.region) := by
    cases he : c.err with
    | some e => exact outcomes_bareReports ..
    | none =>
      have hall : (c.batch.filter fun id => id ∉ named) = [] := by
        refine List.filter_eq_nil_iff.mpr fun id hid hout => ?_
        exact hc.complete_or_err ⟨id, hid, of_decide_eq_true hout⟩ he
      rw [hall]
      rfl
  have hreports : outcomes c.reports = named.map (selectionKey c.resourceType c.region) ++
      (c.batch.filter fun id => id ∉ named).map (selectionKey c.resourceType c.region) := by
    rw [← hbare, ← outcomes_resultReports, ← outcomes_append]
    exact List.filterMap_cons_none rfl
  rw [hreports, NukeCall.keys, ← List.map_append]
  refine List.Perm.map _ ((hnamed.append_right _).trans ?_)
  simpa using List.filter_append_perm (fun id => decide (id ∈ named)) c.batch

/-! ## Resources -/

/-- The keys a region's walk has to close out. -/
def regionKeys (account : Account) (selected : Finset String) (region : String) : List String :=
  (account region).flatMap (confirmedKeys region selected)

/-- An account as the rescan delivers it: a type occurs once in a region, an
identifier once in its list, and no name holds a NUL. -/
structure WellListed (account : Account) (region : String) : Prop where
  types_nodup : ((account region).map AwsResource.resourceName).Nodup
  ids_nodup : ∀ res ∈ account region, res.resourceIdentifiers.Nodup
  region_nulFree : NulFree region
  types_nulFree : ∀ res ∈ account region, NulFree res.resourceName

/-- The batches of a resource hold its confirmed keys, each once. -/
theorem referenceBatches_keys {cn : CloudNuke} {region : String} {selected : Finset String}
    {res : AwsResource} :
    ((referenceBatches cn region selected res).flatMap fun p =>
      p.2.map (selectionKey p.1 region)) = confirmedKeys region selected res := by
  by_cases h : confirmed region selected res = []
  · simp [referenceBatches, confirmedKeys, h]
  · have hsplit := congrArg (List.map (selectionKey res.resourceName region))
      (cn.split_flatten (confirmed region selected res) res.maxBatchSize)
    rw [referenceBatches, if_neg h, List.flatMap_map, confirmedKeys, List.flatMap_def]
    rwa [List.map_flatten] at hsplit

/-- A batch of a call inside a walk repeats no identifier. -/
theorem RegionWalk.batch_nodup {cn : CloudNuke} {region : String} {selected : Finset String}
    {list : List AwsResource} {σ : List (Act NukeOp.Ans)} {stats stats' : NukeStats}
    (hw : RegionWalk cn region selected list σ stats stats')
    (hids : ∀ res ∈ list, res.resourceIdentifiers.Nodup) {c : NukeCall}
    (hc : c ∈ nukeCalls σ) : c.batch.Nodup := by
  obtain ⟨p, hp, hb⟩ := List.mem_flatMap.mp (hw.calls_prefix.subset (List.mem_map_of_mem hc))
  have hres : p.2 ∈ list := hw.listings_prefix.subset (List.mem_map_of_mem hp)
  simp only [referenceBatches, List.mem_ite_nil_left, List.mem_map, NukeCall.typedBatch,
    Prod.mk.injEq] at hb
  obtain ⟨-, _, hbatch, -, rfl⟩ := hb
  have hsub : c.batch.Sublist (confirmed p.1 selected p.2) := by
    rw [← cn.split_flatten (confirmed p.1 selected p.2) p.2.maxBatchSize]
    exact List.sublist_flatten_of_mem hbatch
  exact ((hids p.2 hres).filter _).sublist hsub

/-- The resources of an undisturbed walk, each with the walk's region. -/
theorem RegionWalk.listings_eq {cn : CloudNuke} {region : String} {selected : Finset String}
    {list : List AwsResource} {σ : List (Act NukeOp.Ans)} {stats stats' : NukeStats}
    (hw : RegionWalk cn region selected list σ stats stats') (hgo : ¬ Stopped σ) :
    listings σ = list.map (region, ·) := by
  have hfst : ∀ l : List (String × AwsResource), (∀ p ∈ l, p.1 = region) →
      l = (l.map Prod.snd).map (region, ·) := by
    intro l hl
    induction l with
    | nil => rfl
    | cons p l ih =>
      have hp : p.1 = region := hl p (List.mem_cons_self ..)
      rw [List.map_cons, List.map_cons, ← ih fun q hq => hl q (List.mem_cons_of_mem _ hq), ← hp]
  rw [hfst _ hw.listings_region, hw.listings_complete hgo]

section undisturbed

variable {cn : CloudNuke} {account : Account} {region : String} {selected : Finset String}
  {σ : List (Act NukeOp.Ans)} {stats : NukeStats}

/-- The batches of an undisturbed walk hold the keys of its region. -/
theorem RegionWalk.calls_keys
    (hw : RegionWalk cn region selected (account region) σ {} stats) (hgo : ¬ Stopped σ) :
    (nukeCalls σ).flatMap NukeCall.keys = regionKeys account selected region := by
  have hkeys : (nukeCalls σ).flatMap NukeCall.keys =
      ((nukeCalls σ).map NukeCall.typedBatch).flatMap fun p =>
        p.2.map (selectionKey p.1 region) := by
    rw [List.flatMap_map]
    refine List.flatMap_congr fun c hc => ?_
    rw [NukeCall.keys, hw.calls_region c hc]
    rfl
  rw [hkeys, hw.calls_complete hgo, hw.listings_eq hgo, List.flatMap_map, List.flatMap_assoc]
  exact List.flatMap_congr fun res _ => referenceBatches_keys

/-- An undisturbed walk closes out the keys of its region, each once. -/
theorem RegionWalk.outcomes_perm
    (hw : RegionWalk cn region selected (account region) σ {} stats) (hgo : ¬ Stopped σ)
    (hwell : WellListed account region) (hcontract : ∀ c ∈ nukeCalls σ, c.Contract) :
    (outcomes (reportsOf σ)).Perm (regionKeys account selected region) := by
  have hflat : outcomes (reportsOf σ) = (nukeCalls σ).flatMap fun c => outcomes c.reports := by
    rw [hw.reports, outcomes, List.filterMap_flatMap]
    rfl
  rw [hflat, ← hw.calls_keys hgo]
  exact List.Perm.flatMap_left _ fun c hc =>
    NukeCall.outcomes_perm (hcontract c hc) (hw.batch_nodup hwell.ids_nodup hc)

/-- An undisturbed walk marks the keys of its region. -/
theorem RegionWalk.marks_eq
    (hw : RegionWalk cn region selected (account region) σ {} stats) (hgo : ¬ Stopped σ) :
    Engine.marks σ = regionKeys account selected region := by
  rw [hw.marks, hw.listings_eq hgo, List.flatMap_map]
  rfl

/-- An undisturbed walk attempts as many identifiers as its region has keys. -/
theorem RegionWalk.attempted_eq
    (hw : RegionWalk cn region selected (account region) σ {} stats) (hgo : ¬ Stopped σ) :
    stats.attempted = (regionKeys account selected region).length := by
  rw [hw.stats_eq, ← hw.calls_keys hgo, List.length_flatMap]
  simp [NukeCall.keys]

/-- An undisturbed walk counts every identifier it listed. -/
theorem RegionWalk.counted_eq
    (hw : RegionWalk cn region selected (account region) σ {} stats) (hgo : ¬ Stopped σ) :
    stats.attempted + stats.notSelected =
      ((account region).map fun res => res.resourceIdentifiers.length).sum := by
  have hnot : stats.notSelected =
      ((account region).map fun res => (unconfirmed region selected res).length).sum := by
    rw [hw.stats_eq, hw.listings_eq hgo, List.map_map]
    exact Nat.zero_add _
  have hpart (res : AwsResource) : (confirmedKeys region selected res).length +
      (unconfirmed region selected res).length = res.resourceIdentifiers.length := by
    have h := (List.filter_append_perm
      (fun id => decide (selectionKey res.resourceName region id ∈ selected))
      res.resourceIdentifiers).length_eq
    simpa [confirmedKeys, confirmed, unconfirmed] using h
  rw [hw.attempted_eq hgo, hnot, regionKeys, List.length_flatMap, ← List.sum_map_add]
  simp only [hpart]

end undisturbed

/-! ## Pools -/

/-- Looking every position of a list up visits its elements in order. -/
theorem map_range_getElem? {α β : Type} (l : List α) (f : α → β) (d : β) :
    ((List.range l.length).map fun i => (l[i]?.map f).getD d) = l.map f := by
  refine List.ext_getElem (by simp) fun i h _ => ?_
  have hi : i < l.length := by simpa using h
  simp [hi]

namespace Walks

variable {cn : CloudNuke} {account : Account} {selected : Finset String}
  {regions : List String} {τ : List Step} {finished : List (Nat × NukeStats × List String)}

/-- What the walks of the regions contribute to a projection of the trace, the whole
trace contributes up to order. -/
theorem filterMap_perm {β : Type} (h : Walks cn account selected regions τ finished)
    (f : Act NukeOp.Ans → Option β) (g : String → List β)
    (hwalk : ∀ i region stats, region ∈ regions →
      RegionWalk cn region selected (account region) (project i τ) {} stats →
      ((project i τ).filterMap f).Perm (g region)) :
    ((acts τ).filterMap f).Perm (regions.flatMap g) := by
  have hacts := (acts_perm List.nodup_range h.own).filterMap f
  rw [List.filterMap_flatMap] at hacts
  refine hacts.trans ?_
  rw [List.flatMap_def (l := regions), ← map_range_getElem? regions g [], ← List.flatMap_def]
  refine List.Perm.flatMap_left _ fun i hi => ?_
  have hget := List.getElem?_eq_getElem (List.mem_range.mp hi)
  obtain ⟨r, -, hw⟩ := h.at_number hget
  rw [hget]
  exact hwalk i _ _ (List.getElem_mem _) hw

/-- What the walks of the regions count, the pool counts in total. -/
theorem sum_eq (h : Walks cn account selected regions τ finished) (s : NukeStats → Nat)
    (g : String → Nat)
    (hwalk : ∀ i region stats, region ∈ regions →
      RegionWalk cn region selected (account region) (project i τ) {} stats →
      s stats = g region) :
    (finished.map fun r => s r.2.1).sum = (regions.map g).sum := by
  have heach : (finished.map fun r => s r.2.1) =
      (finished.map Prod.fst).map fun i => (regions[i]?.map g).getD 0 := by
    rw [List.map_map]
    refine List.map_congr_left fun r hr => ?_
    obtain ⟨region, hregion, hw⟩ := h.walk r.1 r.2 hr
    simp only [Function.comp_apply, hregion, Option.map_some, Option.getD_some]
    exact hwalk _ _ _ (List.mem_of_getElem? hregion) hw
  rw [heach, (h.numbers.map _).sum_eq, map_range_getElem?]

end Walks

/-! ## Listed keys -/

/-- Keys of different types, regions or identifiers differ. -/
theorem keys_nodup {region : String} {res : AwsResource} (hregion : NulFree region)
    (hres : NulFree res.resourceName) (hn : res.resourceIdentifiers.Nodup) :
    (res.keys region).Nodup :=
  hn.map_on fun _ _ _ _ h => (selectionKey_inj hres hregion hres hregion h).2.2

/-- A well-listed region lists no key twice. -/
theorem WellListed.keys_nodup {account : Account} {region : String}
    (h : WellListed account region) :
    ((account region).flatMap (AwsResource.keys region)).Nodup := by
  refine List.nodup_flatMap.mpr ⟨fun res hres =>
    Engine.keys_nodup h.region_nulFree (h.types_nulFree res hres) (h.ids_nodup res hres), ?_⟩
  refine (List.pairwise_map.mp h.types_nodup).imp_of_mem fun hres hres' hne => ?_
  rw [Function.onFun_apply, List.disjoint_left]
  intro key hkey hkey'
  obtain ⟨id, -, rfl⟩ := List.mem_map.mp hkey
  obtain ⟨id', -, he⟩ := List.mem_map.mp hkey'
  exact hne (selectionKey_inj (h.types_nulFree _ hres') h.region_nulFree
    (h.types_nulFree _ hres) h.region_nulFree he).1.symm

/-- Well-listed regions list no key twice. -/
theorem listedKeys_nodup {account : Account} {regions : List String} (hn : regions.Nodup)
    (hwell : ∀ region ∈ regions, WellListed account region) :
    (listedKeys account regions).Nodup := by
  refine List.nodup_flatMap.mpr ⟨fun region hregion => (hwell region hregion).keys_nodup, ?_⟩
  refine List.Pairwise.imp_of_mem ?_ hn
  intro region region' hregion hregion' hne
  rw [Function.onFun_apply, List.disjoint_left]
  intro key hkey hkey'
  obtain ⟨res, hres, hkey⟩ := List.mem_flatMap.mp hkey
  obtain ⟨res', hres', hkey'⟩ := List.mem_flatMap.mp hkey'
  obtain ⟨id, -, rfl⟩ := List.mem_map.mp hkey
  obtain ⟨id', -, he⟩ := List.mem_map.mp hkey'
  have h := hwell region hregion
  have h' := hwell region' hregion'
  exact hne (selectionKey_inj (h'.types_nulFree res' hres') h'.region_nulFree
    (h.types_nulFree res hres) h.region_nulFree he).2.1.symm

theorem confirmedKeys_sublist (region : String) (selected : Finset String) (res : AwsResource) :
    (confirmedKeys region selected res).Sublist (res.keys region) :=
  List.filter_sublist.map _

/-- The keys that some regions have to close out. -/
def runKeys (account : Account) (selected : Finset String) (regions : List String) :
    List String := regions.flatMap (regionKeys account selected)

theorem runKeys_sublist (account : Account) (selected : Finset String) (regions : List String) :
    (runKeys account selected regions).Sublist (listedKeys account regions) := by
  refine List.Sublist.flatMap_right _ fun region _ => ?_
  exact List.Sublist.flatMap_right _ fun res _ => confirmedKeys_sublist region selected res

/-- Only confirmed keys have to be closed out. -/
theorem mem_selected_of_mem_runKeys {account : Account} {selected : Finset String}
    {regions : List String} {key : String} (h : key ∈ runKeys account selected regions) :
    key ∈ selected := by
  obtain ⟨region, -, h⟩ := List.mem_flatMap.mp h
  obtain ⟨res, -, h⟩ := List.mem_flatMap.mp h
  obtain ⟨id, hid, rfl⟩ := List.mem_map.mp h
  exact of_decide_eq_true (List.mem_filter.mp hid).2

/-- The number of identifiers that the rescan lists in some regions. -/
def listedCount (account : Account) (regions : List String) : Nat :=
  (regions.map fun region =>
    ((account region).map fun res => res.resourceIdentifiers.length).sum).sum

/-! ## The run -/

/-- The walks of the regional regions and of the global one are those of all. -/
theorem regionals_globals_perm (regions : List String) :
    (regionals regions ++ globals regions).Perm regions := by
  have h := List.filter_append_perm (fun region => decide (region ≠ globalRegion)) regions
  simpa [regionals, globals] using h

namespace NukeSelected

variable {cn : CloudNuke} {account : Account} {regions : List String} {selected : Finset String}
  {parallelism : Int}

/-- A walk inside an uncancelled run: no done context stopped it, and its calls are
calls of the run. -/
structure Undisturbed (run : NukeSelected cn account regions selected parallelism)
    (σ : List (Act NukeOp.Ans)) : Prop where
  not_stopped : ¬ Stopped σ
  calls : ∀ c ∈ nukeCalls σ, c ∈ nukeCalls (acts run.trace)

theorem undisturbed_project (run : NukeSelected cn account regions selected parallelism)
    (hgo : run.world.ctxDone = false) {τ : List Step} (hτ : ∀ a ∈ acts τ, a ∈ acts run.trace)
    (i : Nat) : run.Undisturbed (project i τ) := by
  obtain ⟨-, hstop⟩ := (World.run_eq run.world_run).2.2 hgo
  have hsub (a) (ha : a ∈ project i τ) : a ∈ acts run.trace :=
    hτ a (mem_acts.mpr ⟨i, mem_project.mp ha⟩)
  refine ⟨fun hs => hstop (hsub _ hs), fun c hc => ?_⟩
  obtain ⟨a, ha, hcall⟩ := List.mem_filterMap.mp hc
  exact List.mem_filterMap.mpr ⟨a, hsub a ha, hcall⟩

theorem undisturbed_regional (run : NukeSelected cn account regions selected parallelism)
    (hgo : run.world.ctxDone = false) (i : Nat) : run.Undisturbed (project i run.regional) :=
  run.undisturbed_project hgo (fun a ha => by simp [trace, ha]) i

theorem undisturbed_global (run : NukeSelected cn account regions selected parallelism)
    (hgo : run.world.ctxDone = false) (i : Nat) : run.Undisturbed (project i run.global) :=
  run.undisturbed_project hgo (fun a ha => by simp [trace, ha]) i

/-- What every undisturbed walk contributes to a projection of the trace, the run
contributes up to order. -/
theorem filterMap_perm {β : Type} (run : NukeSelected cn account regions selected parallelism)
    (hgo : run.world.ctxDone = false) (f : Act NukeOp.Ans → Option β) (g : String → List β)
    (hwalk : ∀ region ∈ regions, ∀ σ stats, run.Undisturbed σ →
      RegionWalk cn region selected (account region) σ {} stats →
      (σ.filterMap f).Perm (g region)) :
    ((acts run.trace).filterMap f).Perm (regions.flatMap g) := by
  have hreg := run.regional_walks.filterMap_perm f g fun i region stats hmem =>
    hwalk region (List.mem_filter.mp hmem).1 _ stats (run.undisturbed_regional hgo i)
  have hglob := run.global_walks.filterMap_perm f g fun i region stats hmem =>
    hwalk region (List.mem_filter.mp hmem).1 _ stats (run.undisturbed_global hgo i)
  rw [trace, acts_append, List.filterMap_append]
  refine (hreg.append hglob).trans ?_
  rw [← List.flatMap_append]
  exact (regionals_globals_perm regions).flatMap_right g

/-- What every undisturbed walk counts, the run counts in total. -/
theorem sum_results (run : NukeSelected cn account regions selected parallelism)
    (hgo : run.world.ctxDone = false) (s : NukeStats → Nat) (g : String → Nat)
    (hwalk : ∀ region ∈ regions, ∀ σ stats, run.Undisturbed σ →
      RegionWalk cn region selected (account region) σ {} stats → s stats = g region) :
    (run.results.map fun r => s r.1).sum = (regions.map g).sum := by
  have hreg := run.regional_walks.sum_eq s g fun i region stats hmem =>
    hwalk region (List.mem_filter.mp hmem).1 _ stats (run.undisturbed_regional hgo i)
  have hglob := run.global_walks.sum_eq s g fun i region stats hmem =>
    hwalk region (List.mem_filter.mp hmem).1 _ stats (run.undisturbed_global hgo i)
  have hall := ((regionals_globals_perm regions).map g).sum_eq
  rw [List.map_append, List.sum_append] at hall
  rw [results, List.map_map, List.map_append, List.sum_append]
  exact (congrArg₂ _ hreg hglob).trans hall

/-- The walks close out the keys of their regions, each once. -/
theorem outcomes_perm (run : NukeSelected cn account regions selected parallelism)
    (hgo : run.world.ctxDone = false) (hwell : ∀ region ∈ regions, WellListed account region)
    (hcontract : ∀ c ∈ nukeCalls (acts run.trace), c.Contract) :
    (outcomes run.world.reports).Perm (runKeys account selected regions) := by
  have hproj (τ : List (Act NukeOp.Ans)) : outcomes (reportsOf τ) =
      τ.filterMap fun a => (emitted a).bind Report.outcome := List.filterMap_filterMap
  rw [(World.run_eq run.world_run).2.1, List.nil_append, hproj]
  refine run.filterMap_perm hgo _ _ fun region hregion σ stats hσ hw => ?_
  rw [← hproj]
  exact hw.outcomes_perm hσ.not_stopped (hwell region hregion) fun c hc =>
    hcontract c (hσ.calls c hc)

/-- The run has seen the keys of its regions. -/
theorem seen_eq (run : NukeSelected cn account regions selected parallelism)
    (hgo : run.world.ctxDone = false) :
    run.world.seen = (runKeys account selected regions).toFinset := by
  have hmarks : (marks (acts run.trace)).Perm (runKeys account selected regions) :=
    run.filterMap_perm hgo _ _ fun region _ σ stats hσ hw => by
      rw [← hw.marks_eq hσ.not_stopped]
      exact .refl _
  have hseen := (World.run_eq run.world_run).1
  rw [show acts (run.regional ++ run.global) = acts run.trace from rfl,
    List.toFinset_eq_of_perm _ _ hmarks] at hseen
  simpa using hseen

/-- The run attempts the keys of its regions. -/
theorem attempted_eq (run : NukeSelected cn account regions selected parallelism)
    (hgo : run.world.ctxDone = false) :
    run.stats.attempted = (runKeys account selected regions).length := by
  rw [runKeys, List.length_flatMap]
  exact run.sum_results hgo NukeStats.attempted _ fun region _ σ stats hσ hw =>
    hw.attempted_eq hσ.not_stopped

/-- The run counts every listed identifier. -/
theorem counted_eq (run : NukeSelected cn account regions selected parallelism)
    (hgo : run.world.ctxDone = false) :
    run.stats.attempted + run.stats.notSelected = listedCount account regions := by
  have h := run.sum_results hgo (fun stats => stats.attempted + stats.notSelected) _
    fun region _ σ stats hσ hw => hw.counted_eq hσ.not_stopped
  rw [List.sum_map_add] at h
  exact h

/-- The closing loop reports the unseen keys, each once. -/
theorem outcomes_gone {selections : List Selection}
    (run : NukeSelected cn account regions (selectionKeys selections) parallelism) :
    outcomes (run.gone.map goneReport) = run.gone := by
  rw [outcomes, List.filterMap_map]
  have hkey : ∀ key ∈ run.gone, (Report.outcome ∘ goneReport) key = some key := fun key hk =>
    congrArg some (selectionKey_of_mem_selectionKeys (run.mem_gone_iff.mp hk).1)
  rw [List.filterMap_congr hkey, List.filterMap_some]

/-- In an uncancelled run over distinct, well-listed regions, whose nukers keep their
contract, every confirmed key has one outcome and no other key has any, and the
counters of the walk and of the emitter add up to the numbers of confirmed and of
listed identifiers. -/
theorem accounted_once {selections : List Selection}
    (run : NukeSelected cn account regions (selectionKeys selections) parallelism)
    (hgo : run.world.ctxDone = false) (hregions : regions.Nodup)
    (hwell : ∀ region ∈ regions, WellListed account region)
    (hcontract : ∀ c ∈ nukeCalls (acts run.trace), c.Contract) (em : Emitter) :
    (∀ key, (outcomes run.reports).count key =
      if key ∈ selectionKeys selections then 1 else 0) ∧
    run.stats.attempted + run.stats.alreadyGone = (selectionKeys selections).card ∧
    run.stats.attempted + run.stats.notSelected = listedCount account regions ∧
    (em.onEvents run.reports).summary.closed =
      em.summary.closed + (selectionKeys selections).card ∧
    (em.onEvents run.reports).summary.alreadyGone =
      em.summary.alreadyGone + run.stats.alreadyGone := by
  let keys := runKeys account (selectionKeys selections) regions
  have hnodup : keys.Nodup := (listedKeys_nodup hregions hwell).sublist (runKeys_sublist ..)
  have hsub : keys.toFinset ⊆ selectionKeys selections := fun key hk =>
    mem_selected_of_mem_runKeys (List.mem_toFinset.mp hk)
  have hgone : run.gone.Perm (selectionKeys selections \ keys.toFinset).toList := by
    rw [← run.seen_eq hgo]
    exact run.gone_perm
  have hall : (outcomes run.reports).Perm (selectionKeys selections).toList := by
    have hparts : (outcomes run.reports).Perm (keys ++ run.gone) := by
      rw [reports, outcomes_append, run.outcomes_gone]
      exact (run.outcomes_perm hgo hwell hcontract).append_right _
    refine hparts.trans ((List.perm_ext_iff_of_nodup ?_ (Finset.nodup_toList _)).mpr ?_)
    · refine List.nodup_append'.mpr ⟨hnodup, hgone.nodup_iff.mpr (Finset.nodup_toList _), ?_⟩
      intro key hk hg
      simp [hgone.mem_iff, hk] at hg
    · intro key
      have := @hsub key
      simp only [List.mem_append, hgone.mem_iff, Finset.mem_toList, Finset.mem_sdiff,
        List.mem_toFinset] at this ⊢
      tauto
  have hcard : (outcomes run.reports).length = (selectionKeys selections).card := by
    rw [hall.length_eq, Finset.length_toList]
  have hlength : (outcomes run.reports).length = keys.length + run.gone.length := by
    rw [reports, outcomes_append, run.outcomes_gone, List.length_append,
      (run.outcomes_perm hgo hwell hcontract).length_eq]
  have hisGone : run.reports.countP Report.isGone = run.gone.length := by
    have hwalk : run.world.reports.countP Report.isGone = 0 := by
      refine List.countP_eq_zero.mpr fun r hr => ?_
      cases r with
      | resourceGone t g i => exact absurd hr run.not_gone_mem_world_reports
      | _ => exact Bool.false_ne_true
    rw [reports, List.countP_append, hwalk, Nat.zero_add, List.countP_map]
    exact List.countP_eq_length.mpr fun _ _ => rfl
  obtain ⟨hclosed, hgoneCount⟩ := tallyReports_closed em.summary run.reports
  refine ⟨fun key => ?_, ?_, run.counted_eq hgo, ?_, ?_⟩
  · rw [hall.count_eq, (Finset.nodup_toList _).count]
    simp
  · rw [run.attempted_eq hgo, ← hcard, hlength]
    rfl
  · rw [em.onEvents_summary, hclosed, hcard]
  · rw [em.onEvents_summary, hgoneCount, hisGone]
    rfl

end NukeSelected

/-! ## A run over two regions -/

/-- A topic and a bucket in the regional region, a user in the global one. -/
private def demoAccount : Account
  | "us-east-1" => [⟨"sns-topic", ["a", "b"], 1⟩, ⟨"s3", ["c"], 10⟩]
  | "global" => [⟨"iam", ["root"], 5⟩]
  | _ => []

/-- Delete what is asked for, except buckets, which fail as a whole. -/
private def demoNuker : Nuker := fun resourceType _ batch =>
  if resourceType = "s3" then ([], some ⟨"access denied", false, false⟩)
  else (batch.dedup.map fun id => ⟨id, none⟩, none)

private theorem demoNuker_contract (c : NukeCall)
    (h : (c.results, c.err) = demoNuker c.resourceType c.region c.batch) : c.Contract := by
  by_cases hs : c.resourceType = "s3"
  · rw [demoNuker, if_pos hs, Prod.mk.injEq] at h
    refine ⟨by simp [h.1], by simp [h.1], by simp [h.2]⟩
  · rw [demoNuker, if_neg hs, Prod.mk.injEq] at h
    refine ⟨by simp [h.1], ?_, by simp [h.1]⟩
    rw [h.1, List.map_map]
    exact (List.map_id _).symm ▸ List.nodup_dedup _

/-- Three of the four listed identifiers are confirmed, and one that is gone. -/
private noncomputable def demoRun := NukeSelected.inOrder CloudNuke.standard demoAccount
  ["us-east-1", "global"] (selectionKeys [⟨"sns-topic", "us-east-1", "a"⟩,
    ⟨"s3", "us-east-1", "c"⟩, ⟨"iam", "global", "root"⟩, ⟨"sqs", "us-east-1", "gone"⟩]) 2 demoNuker

theorem demoRun_accounted :
    demoRun.stats.attempted + demoRun.stats.alreadyGone = 4 ∧
      demoRun.stats.attempted + demoRun.stats.notSelected = 4 := by
  have hwell : ∀ region ∈ ["us-east-1", "global"], WellListed demoAccount region := by
    intro region hregion
    rcases List.mem_pair.mp hregion with rfl | rfl
    · constructor <;> decide
    · constructor <;> decide
  have h := demoRun.accounted_once (NukeSelected.inOrder_uncancelled ..) (by decide) hwell
    (fun c hc => demoNuker_contract c (NukeSelected.inOrder_reply _ _ _ _ _ _ hc)) ⟨id, 0, {}, []⟩
  exact ⟨h.2.1.trans (by decide), h.2.2.1.trans (by decide)⟩

end Broom.Engine
