import Broom.Api.Coverage
import Broom.Engine.Wire

/-!
# The spec on its way to the worker

An accepted request becomes a spec, which the server writes to the worker's standard
input and the worker decodes and validates. The worker gets the spec that the server made,
and finds nothing wrong with it.
-/

namespace Broom.Api

open Broom.Core Broom.Engine Broom.Jobs

/-! ## The pipe -/

/-- What the server writes to the worker's standard input: the spec and a newline. -/
def writeSpec (fmt : GoFormat) (spec : Engine.Spec) : List UInt8 :=
  ((Encoding.spec fmt).put spec).bytes ++ Json.utf8 ['\n']

/-- The spec that a worker decodes from its standard input. -/
def decodeSpec (fmt : GoFormat) (stdin : List UInt8) : Option Engine.Spec :=
  (Json.ofStream stdin).bind fun v => (Encoding.spec fmt).read (some v)

/-- A spec of a known mode crosses the pipe unchanged. -/
theorem decodeSpec_writeSpec {fmt : GoFormat} {spec : Engine.Spec}
    (h : Mode.ofName spec.mode.name = spec.mode) :
    decodeSpec fmt (writeSpec fmt spec) = some spec := by
  have hnewline : Json.Delimits ['\n'] := by simp [Json.Delimits]
  rw [decodeSpec, writeSpec, Json.ofStream_append _ hnewline]
  exact (Encoding.spec fmt).read_put h

/-! ## Validation -/

/-- What the worker's validation asks for. -/
theorem validate_ok {spec : Engine.Spec} (hmode : spec.mode = .scan ∨ spec.mode = .nuke)
    (htypes : spec.resourceTypes ≠ []) (hregions : ∀ reg ∈ spec.regions, badRegion reg = false)
    (hselections : spec.mode = .nuke → spec.selections ≠ []) (hparallelism : spec.parallelism = 0) :
    spec.validate = .ok () := by
  have hfind : spec.regions.find? badRegion = none :=
    List.find?_eq_none.mpr fun reg hreg => by simp [hregions reg hreg]
  rcases hmode with hmode | hmode
  · simp [Spec.validate, hmode, htypes, hfind, hparallelism]
    rfl
  · simp [Spec.validate, hmode, htypes, hfind, hparallelism, hselections hmode]
    rfl

variable {quote : String → String} {cat : Catalog}

theorem Scannable.validate {spec : Engine.Spec} (h : Scannable cat spec) :
    spec.validate = .ok () :=
  validate_ok (.inl h.mode) h.types_ne (fun reg hreg => (regionRe_ok (h.regions reg hreg)).2)
    (fun hmode => absurd (h.mode.symm.trans hmode) (by decide)) h.parallelism

/-- What cloud-nuke finds in a scan: resources of the types it was asked for, with names
that have no NUL. -/
structure TypedBy (spec : Engine.Spec) (f : FoundResource) : Prop where
  nulFree : NulFree f.resourceType ∧ NulFree f.region ∧ NulFree f.identifier
  type_mem : f.resourceType ∈ spec.resourceTypes

/-- The specs that the handlers start jobs with, and the keys of the selections that were
checked against the scan. -/
inductive Accepted (quote : String → String) (cat : Catalog) : Engine.Spec → Finset String → Prop
  | scan {req : CreateScanRequest} {identity : Identity} {spec : Engine.Spec}
      (h : req.spec quote cat identity = .ok spec) : Accepted quote cat spec ∅
  | nuke {scanReq : CreateScanRequest} {scanner identity : Identity} {scanSpec spec : Engine.Spec}
      {id scanSession account sessionId : String} {created : Nat} {ops : List JobOp}
      {get : String → Option Job} {req : CreateNukeRequest}
      (hscan : scanReq.spec quote cat scanner = .ok scanSpec)
      (hget : get req.scanJobId = some ((newJob id scanSession account scanSpec created).run ops))
      (hfinds : ∀ ev ∈ ((newJob id scanSession account scanSpec created).run ops).events,
        ev.type = .resourceFound → TypedBy scanSpec (foundOf ev))
      (hok : handleCreateNuke sessionId identity get req = .ok spec) :
      Accepted quote cat spec (selectionKeys req.selections)

/-- The spec of an accepted request reaches the worker as it was made, passes its
validation, and names the keys that the server has checked. -/
theorem accepted_crosses {spec : Engine.Spec} {keys : Finset String}
    (h : Accepted quote cat spec keys) (fmt : GoFormat) :
    decodeSpec fmt (writeSpec fmt spec) = some spec ∧ spec.validate = .ok () ∧
      selectionKeys spec.selections = keys := by
  cases h with
  | scan h =>
    have hscannable := CreateScanRequest.spec_ok h
    refine ⟨decodeSpec_writeSpec ?_, hscannable.validate, ?_⟩
    · rw [hscannable.mode]
      rfl
    · rw [hscannable.selections]
      rfl
  | @nuke _ _ _ scanSpec _ id scanSession account _ created ops _ req hscan hget hfinds hok =>
    obtain ⟨hcheck, scan, hscan', -, hspec⟩ := handleCreateNuke_ok hok
    obtain rfl := Option.some.inj (hget.symm.trans hscan')
    have hsame : ((newJob id scanSession account scanSpec created).run ops).spec = scanSpec :=
      (congrArg (fun i => i.2.2.2) (Job.identity_run _ ops) :)
    have hfiled :=
      ((newJob_aggregated id scanSession account scanSpec created).run ops).filed hfinds
    have hscannable := CreateScanRequest.spec_ok hscan
    obtain ⟨hsel, hfound⟩ := selections_found hfiled (fun f hf => hf.nulFree) hspec
    obtain ⟨htypes, -, -, hR, -, -, hparallelism⟩ := spec_projections hspec
    rw [hsame] at htypes hR
    have hmode := (spec_ok hspec).1
    -- one selection is enough to have a type to rescan
    obtain ⟨s, hs⟩ := List.exists_mem_of_ne_nil _ (check_selections hcheck)
    have htype : s.resourceType ∈ spec.resourceTypes := by
      obtain ⟨f, hf, rfl⟩ := hfound s hs
      exact (htypes _).mpr ⟨hf.type_mem, _, (hsel _).mpr hs, rfl⟩
    refine ⟨decodeSpec_writeSpec ?_, validate_ok (.inr hmode) (List.ne_nil_of_mem htype)
      (fun reg hreg => (regionRe_ok (hscannable.regions reg (hR.subset hreg))).2)
      (fun _ => List.ne_nil_of_mem ((hsel s).mpr hs)) hparallelism, ?_⟩
    · rw [hmode]
      rfl
    · ext key
      simp only [selectionKeys, List.mem_toFinset, List.mem_map, hsel]

/-- The clean-up of the topic and the user reaches the worker. -/
theorem topicNuke_crosses :
    ∃ spec, handleCreateNuke "s" ⟨"123456789012", ""⟩ topicJobs topicNuke = .ok spec ∧
      decodeSpec smallFormat (writeSpec smallFormat spec) = some spec ∧
      spec.validate = .ok () := by
  have hscan : topicScan.spec (fun s => s) topicCatalog ⟨"123456789012", ""⟩ = .ok topicScanSpec :=
    rfl
  obtain ⟨spec, hok⟩ : ∃ spec, handleCreateNuke "s" ⟨"123456789012", ""⟩ topicJobs topicNuke =
    .ok spec := ⟨_, rfl⟩
  have hget : topicJobs topicNuke.scanJobId =
    some ((newJob "j" "s" "123456789012" topicScanSpec 1).run topicScanOps) := rfl
  have hfinds : ∀ ev ∈ ((newJob "j" "s" "123456789012" topicScanSpec 1).run topicScanOps).events,
      ev.type = .resourceFound → TypedBy topicScanSpec (foundOf ev) := fun ev hev _ =>
    ⟨(topicScanJob_finds ev hev).nulFree, (topicScanJob_finds ev hev).type_mem⟩
  obtain ⟨hdecode, hvalidate, -⟩ := accepted_crosses (.nuke hscan hget hfinds hok) smallFormat
  exact ⟨spec, hok, hdecode, hvalidate⟩

end Broom.Api
