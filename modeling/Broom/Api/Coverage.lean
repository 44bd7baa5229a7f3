import Broom.Api.Scans
import Broom.Jobs.View

/-!
# What a clean-up rescans

The spec of a clean-up lists the regions and types of the confirmed selections, in the
order of the scan. The worker adds the global region if a type needs it, and computes the
time filter anew. What was confirmed is within reach of the rescan all the same.
-/

namespace Broom.Api

open Broom.Core Broom.Engine Broom.Jobs

/-- What cloud-nuke finds in a scan: resources of the types and in the regions it was
asked for, the global ones in the global region, with names that have no NUL. -/
structure FoundBy (cat : Catalog) (now : Int) (spec : Engine.Spec) (f : FoundResource) :
    Prop where
  nulFree : NulFree f.resourceType ∧ NulFree f.region ∧ NulFree f.identifier
  type_mem : f.resourceType ∈ spec.resourceTypes
  region_mem : f.region ∈ (buildQuery cat.isGlobal now spec).regions
  global_iff : f.region = globalRegion ↔ cat.isGlobal f.resourceType = true

/-- The rescan of a clean-up reaches what was selected from a scan. -/
structure Covers (cat : Catalog) (scanNow now : Int) (scan spec : Engine.Spec) : Prop where
  types : ∀ s ∈ spec.selections,
    s.resourceType ∈ (buildQuery cat.isGlobal now spec).resourceTypes
  regions : ∀ s ∈ spec.selections, s.region ∈ (buildQuery cat.isGlobal now spec).regions
  global_iff : globalRegion ∈ (buildQuery cat.isGlobal now spec).regions ↔
    ∃ s ∈ spec.selections, cat.isGlobal s.resourceType = true
  /-- The slice of the scan's regions that stands in for an empty list is in range. -/
  scan_regions : 1 ≤ scan.regions.length
  regions_ne : spec.regions ≠ []
  regions_order : spec.regions.Sublist scan.regions
  types_order : spec.resourceTypes.Sublist scan.resourceTypes
  filter_iff : (buildQuery cat.isGlobal now spec).excludeAfter.isSome =
    (buildQuery cat.isGlobal scanNow scan).excludeAfter.isSome
  filter_le : ∀ cut ∈ (buildQuery cat.isGlobal scanNow scan).excludeAfter,
    ∀ cut' ∈ (buildQuery cat.isGlobal now spec).excludeAfter, cut ≤ cut'

/-! ## The selections -/

section

variable {quote : String → String} {cat : Catalog} {identity : Identity}
  {req : CreateNukeRequest} {scan : Job} {spec : Engine.Spec}

/-- An accepted request selects resources that the scan found, and the spec carries each
of its selections. -/
theorem selections_found {P : FoundResource → Prop} (hfiled : Filed P scan.found)
    (hP : ∀ f, P f → NulFree f.resourceType ∧ NulFree f.region ∧ NulFree f.identifier)
    (h : req.spec identity scan = .ok spec) :
    (∀ s, s ∈ spec.selections ↔ s ∈ req.selections) ∧
      ∀ s ∈ req.selections, ∃ f, P f ∧ s = ⟨f.resourceType, f.region, f.identifier⟩ := by
  have hspec := (spec_ok h).2
  unfold CreateNukeRequest.spec at h
  cases hc : choose scan.found req.selections {} with
  | error e =>
    rw [hc] at h
    cases h
  | ok c =>
    rw [hc] at h
    obtain rfl := Except.ok.inj h
    obtain ⟨-, -, hall⟩ := choose_keeps consistent_empty hc
    have hfound : ∀ s ∈ req.selections, ∃ f, P f ∧ scan.found.lookup s.key = some f ∧
        s = ⟨f.resourceType, f.region, f.identifier⟩ := by
      intro s hs
      obtain ⟨⟨f, hf, -⟩, -⟩ := hall s hs
      obtain ⟨hkey, hPf⟩ := hfiled _ f hf
      obtain ⟨ht, hg, hi⟩ := hP f hPf
      exact ⟨f, hPf, hf, Selection.eq_of_key_eq ht hg hi hkey⟩
    refine ⟨fun s => ⟨fun hs => (hspec s hs).1, fun hs => ?_⟩, fun s hs => ?_⟩
    · -- the selection that was taken with the same key is the same one
      obtain ⟨-, s', hs', hkey⟩ := hall s hs
      obtain ⟨f, -, hf, heq⟩ := hfound s hs
      obtain ⟨f', -, hf', heq'⟩ := hfound s' (hspec s' hs').1
      rw [hkey, hf] at hf'
      obtain rfl := Option.some.inj hf'
      rw [heq, ← heq']
      exact hs'
    · obtain ⟨f, hPf, -, heq⟩ := hfound s hs
      exact ⟨f, hPf, heq⟩

/-- The types of an accepted spec are the scan's types that are selected, its regions the
scan's regions that are, or the first one. -/
theorem spec_projections (h : req.spec identity scan = .ok spec) :
    (∀ t, t ∈ spec.resourceTypes ↔
      t ∈ scan.spec.resourceTypes ∧ ∃ s ∈ spec.selections, s.resourceType = t) ∧
    (∀ g ∈ scan.spec.regions, g ≠ globalRegion → (∃ s ∈ spec.selections, s.region = g) →
      g ∈ spec.regions) ∧
    (scan.spec.regions ≠ [] → spec.regions ≠ []) ∧
    spec.regions.Sublist scan.spec.regions ∧
    spec.resourceTypes.Sublist scan.spec.resourceTypes ∧
    spec.olderThan = scan.spec.olderThan ∧ spec.parallelism = 0 := by
  unfold CreateNukeRequest.spec at h
  cases hc : choose scan.found req.selections {} with
  | error e =>
    rw [hc] at h
    cases h
  | ok c =>
    rw [hc] at h
    obtain rfl := Except.ok.inj h
    obtain ⟨hcons, -, -⟩ := choose_keeps consistent_empty hc
    refine ⟨fun t => ?_, fun g hg hne hs => ?_, fun hne => ?_, ?_, List.filter_sublist, rfl, rfl⟩
    · rw [nukeSpec, List.mem_filter, decide_eq_true_eq, hcons.types]
    · have hmem : g ∈ scan.spec.regions.filter (· ∈ c.regionSet) := by
        rw [List.mem_filter, decide_eq_true_eq, hcons.regions]
        exact ⟨hg, hne, hs⟩
      rw [nukeSpec, rescanRegions, if_neg (by simpa using List.ne_nil_of_mem hmem)]
      exact hmem
    · rw [nukeSpec, rescanRegions]
      dsimp only
      split
      · simpa using hne
      · rename_i hlen
        simpa using hlen
    · rw [nukeSpec, rescanRegions]
      dsimp only
      split
      · exact List.take_sublist ..
      · exact List.filter_sublist

/-! ## The rescan -/

theorem mem_queryRegions {now : Int} {g : String} :
    g ∈ (buildQuery cat.isGlobal now spec).regions ↔
      g ∈ spec.regions ∨ g = globalRegion ∧ ∃ t ∈ spec.resourceTypes, cat.isGlobal t = true := by
  simp only [buildQuery]
  split
  · rename_i hany
    have hglobal := List.any_eq_true.mp hany
    rw [List.mem_append, List.mem_singleton, and_iff_left hglobal]
  · rename_i hany
    refine ⟨.inl, fun h => h.resolve_right fun hg => hany (List.any_eq_true.mpr hg.2)⟩

variable {scanReq : CreateScanRequest} {scanner : Identity} {scanSpec : Engine.Spec}
  {id scanSession account sessionId : String} {created : Nat} {ops : List JobOp}
  {get : String → Option Job} {scanNow now : Int}

/-- A clean-up that is accepted for a finished scan rescans all that was selected, and
with a time filter that is no stricter than the scan's. -/
theorem rescan_covers (hscan : scanReq.spec quote cat scanner = .ok scanSpec)
    (hget : get req.scanJobId = some ((newJob id scanSession account scanSpec created).run ops))
    (hfinds : ∀ ev ∈ ((newJob id scanSession account scanSpec created).run ops).events,
      ev.type = .resourceFound → FoundBy cat scanNow scanSpec (foundOf ev))
    (hok : handleCreateNuke sessionId identity get req = .ok spec) (hclock : scanNow ≤ now) :
    Covers cat scanNow now scanSpec spec ∧ ∀ s, s ∈ spec.selections ↔ s ∈ req.selections := by
  obtain ⟨-, scan, hscan', -, hspec⟩ := handleCreateNuke_ok hok
  obtain rfl := Option.some.inj (hget.symm.trans hscan')
  have hsame : ((newJob id scanSession account scanSpec created).run ops).spec = scanSpec :=
    (congrArg (fun i => i.2.2.2) (Job.identity_run _ ops) :)
  have hfiled := ((newJob_aggregated id scanSession account scanSpec created).run ops).filed hfinds
  have hscannable := CreateScanRequest.spec_ok hscan
  obtain ⟨hsel, hfound⟩ := selections_found hfiled (fun f hf => hf.nulFree) hspec
  obtain ⟨htypes, hregions, hne, hR, hT, holder, -⟩ := spec_projections hspec
  rw [hsame] at htypes hregions hne hR hT holder
  have htype : ∀ s ∈ spec.selections, s.resourceType ∈ spec.resourceTypes := by
    intro s hs
    obtain ⟨f, hf, rfl⟩ := hfound s ((hsel s).mp hs)
    exact (htypes _).mpr ⟨hf.type_mem, _, hs, rfl⟩
  have hglobal : globalRegion ∉ spec.regions := fun hg =>
    absurd (hscannable.regions _ (hR.subset hg)) (by decide)
  refine ⟨⟨htype, fun s hs => ?_, ?_, ?_, hne hscannable.regions_ne, hR, hT, ?_, ?_⟩, hsel⟩
  · obtain ⟨f, hf, rfl⟩ := hfound s ((hsel s).mp hs)
    rw [mem_queryRegions]
    by_cases hg : f.region = globalRegion
    · exact .inr ⟨hg, _, htype _ hs, hf.global_iff.mp hg⟩
    · have hmem := (mem_queryRegions.mp hf.region_mem).resolve_right fun h => hg h.1
      exact .inl (hregions _ hmem hg ⟨_, hs, rfl⟩)
  · rw [mem_queryRegions]
    constructor
    · rintro (hg | ⟨-, t, ht, hisGlobal⟩)
      · exact absurd hg hglobal
      · obtain ⟨-, s, hs, rfl⟩ := (htypes t).mp ht
        exact ⟨s, hs, hisGlobal⟩
    · rintro ⟨s, hs, hisGlobal⟩
      exact .inr ⟨rfl, _, htype s hs, hisGlobal⟩
  · exact List.length_pos_iff.mpr hscannable.regions_ne
  · simp only [buildQuery, holder, Option.isSome_map]
  · intro cut hcut cut' hcut'
    simp only [buildQuery, holder, Option.mem_def, Option.map_eq_some_iff] at hcut hcut'
    obtain ⟨d, hd, rfl⟩ := hcut
    obtain ⟨d', hd', rfl⟩ := hcut'
    obtain rfl := Option.some.inj (hd.symm.trans hd')
    omega

end

/-- Topics live in regions, users are global. -/
def topicCatalog : Catalog where
  known := ["sns-topic", "iam"]
  isGlobal t := t = "iam"

/-- A scan of topics and users that are older than an hour. -/
def topicScan : CreateScanRequest where
  regions := ["us-east-1", "eu-west-1", "us-east-1"]
  resourceTypes := ["sns-topic", "iam"]
  olderThanHours := some 1

/-- The spec of that scan. -/
def topicScanSpec : Engine.Spec where
  mode := .scan
  regions := ["us-east-1", "eu-west-1"]
  resourceTypes := ["sns-topic", "iam"]
  olderThan := some 3600000000000

/-- The scan finds a topic and a user, and ends. -/
def topicScanOps : List JobOp :=
  [.publish { type := .resourceFound, resourceType := "sns-topic", region := "eu-west-1",
              identifier := "a" } 2,
    .publish { type := .resourceFound, resourceType := "iam", region := "global",
               identifier := "u" } 3, .setState .succeeded "" 4]

/-- The finished scan. -/
def topicScanJob : Job := (newJob "j" "s" "123456789012" topicScanSpec 1).run topicScanOps

/-- The store that knows the scan. -/
def topicJobs (id : String) : Option Job := if id = "j" then some topicScanJob else none

/-- The request that deletes what the scan found. -/
def topicNuke : CreateNukeRequest :=
  ⟨"j", "123456789012", [⟨"sns-topic", "eu-west-1", "a"⟩, ⟨"iam", "global", "u"⟩]⟩

theorem topicScanJob_finds : ∀ ev ∈ topicScanJob.events,
    FoundBy topicCatalog 5 topicScanSpec (foundOf ev) := by
  have hevents : topicScanJob.events =
      [{ type := .resourceFound, seq := 1, atTime := 2, resourceType := "sns-topic",
         region := "eu-west-1", identifier := "a" },
        { type := .resourceFound, seq := 2, atTime := 3, resourceType := "iam",
          region := "global", identifier := "u" }] := rfl
  rw [hevents, List.forall_mem_cons, List.forall_mem_singleton]
  exact ⟨⟨by decide, by decide, by decide, by decide⟩, by decide, by decide, by decide, by decide⟩

/-- The clean-up of the topic and the user rescans both. -/
theorem topicScan_covered :
    ∃ spec, handleCreateNuke "s" ⟨"123456789012", ""⟩ topicJobs topicNuke = .ok spec ∧
      Covers topicCatalog 5 6 topicScanSpec spec := by
  have hscan : topicScan.spec (fun s => s) topicCatalog ⟨"123456789012", ""⟩ = .ok topicScanSpec :=
    rfl
  obtain ⟨spec, hok⟩ : ∃ spec, handleCreateNuke "s" ⟨"123456789012", ""⟩ topicJobs topicNuke =
    .ok spec := ⟨_, rfl⟩
  have hget : topicJobs topicNuke.scanJobId =
    some ((newJob "j" "s" "123456789012" topicScanSpec 1).run topicScanOps) := rfl
  exact ⟨spec, hok, (rescan_covers hscan hget (fun ev hev _ => topicScanJob_finds ev hev) hok
    (by decide)).1⟩

end Broom.Api
