import Broom.Api.Selected
import Broom.Core.Partition
import Broom.Jobs.Moments
import Broom.Web.Answers

/-!
# The page of a clean-up

While a clean-up runs, its page lists what is done and what is still to be done, counts both,
and shows how far each region is. Every selected resource has one row all along.
-/

namespace Broom.Web

open Broom.Api Broom.Core Broom.Engine Broom.Jobs

/-! ## The page -/

/-- How far a region is. -/
structure RegionRow where
  region : String
  total : Nat
  done : Nat
  deriving DecidableEq, Repr

/-- What the page shows of a clean-up. -/
structure CleanPage where
  total : Nat
  deleted : Nat
  warned : Nat
  failed : Nat
  /-- The fourth tile. -/
  remaining : Nat
  /-- The length of the progress bar. -/
  pct : Rat
  byRegion : List RegionRow
  pending : List DeleteResult

/-- The resource of an outcome. -/
def DeleteResult.toSelection (r : DeleteResult) : Selection :=
  { resourceType := r.resourceType, region := r.region, identifier := r.identifier }

/-- The selected resources of a clean-up. -/
def Job.selections (job : Job) : List Selection := job.spec.selections.getD []

/-- The page of a job. -/
def cleanPage (job : Job) : CleanPage where
  total := (job.spec.selections.map List.length).getD 0
  deleted := job.results.countP fun r => r.success
  warned := job.results.countP fun r => !r.success && r.warning.getD false
  failed := job.results.countP fun r => !r.success && !r.warning.getD false
  remaining :=
    if job.state.terminal then 0
    else (job.spec.selections.map List.length).getD 0 - job.results.length
  pct :=
    let total := (job.spec.selections.map List.length).getD 0
    if 0 < total then (job.results.length : Rat) / total * 100
    else if job.state.terminal then 100 else 5
  byRegion := (job.selections.map fun s => s.region).eraseDups.map fun r =>
    { region := r
      total := job.selections.countP fun s => s.region = r
      done := job.results.countP fun x => x.region = r }
  pending := (job.selections.filter fun s => !job.results.any fun r => r.toSelection = s).map
    fun s => { resourceType := s.resourceType, region := s.region, identifier := s.identifier,
               success := false, warning := none, error := none, note := some "pending" }

/-- The rows of the table, the latest outcome first. -/
def cleanRows (job : Job) : List DeleteResult := job.results.reverse ++ (cleanPage job).pending

/-- The page accounts for every selected resource. -/
structure Accounts (job : Job) (page : CleanPage) : Prop where
  rows : ((cleanRows job).map DeleteResult.toSelection).Perm job.selections
  distinct : job.selections.Nodup
  tiles : page.deleted + page.warned + page.failed = job.results.length
  remaining : page.remaining = if job.state.terminal then 0 else page.pending.length
  total : page.total = job.results.length + page.pending.length
  pct_le : page.pct ≤ 100
  pct_eq : job.selections ≠ [] → (page.pct = 100 ↔ page.pending = [])
  region_le : ∀ row ∈ page.byRegion, row.done ≤ row.total
  region_eq : ∀ row ∈ page.byRegion,
    (row.done = row.total ↔ ∀ p ∈ page.pending, p.region ≠ row.region)
  region_sum : (page.byRegion.map RegionRow.total).sum = page.total

/-! ## Distinct outcomes of selected resources -/

section

variable {job : Job}

theorem cleanPage_total (job : Job) : (cleanPage job).total = job.selections.length := by
  unfold cleanPage Job.selections
  cases job.spec.selections <;> rfl

/-- The pending resources are those that are left. -/
theorem pending_selections (job : Job) :
    (cleanPage job).pending.map DeleteResult.toSelection =
      left (job.results.map DeleteResult.toSelection) job.selections := by
  simp only [cleanPage, left, List.map_map, List.any_map, Function.comp_def]
  exact List.map_id _

/-- Distinct outcomes of selected resources make up, with what is pending, the selection. -/
theorem outcomes_pending_perm (hnodup : job.selections.Nodup)
    (hdistinct : (job.results.map DeleteResult.toSelection).Nodup)
    (hselected : ∀ r ∈ job.results, r.toSelection ∈ job.selections) :
    ((job.results ++ (cleanPage job).pending).map DeleteResult.toSelection).Perm
      job.selections := by
  rw [List.map_append, pending_selections]
  exact append_left_perm hdistinct hnodup fun s hs => by
    obtain ⟨r, hr, rfl⟩ := List.mem_map.mp hs
    exact hselected r hr

/-- The length of the bar where something is selected. -/
theorem cleanPage_pct (h : 0 < (cleanPage job).total) : (cleanPage job).pct =
    (job.results.length : Rat) / (cleanPage job).total * 100 := by
  unfold cleanPage at h ⊢
  exact if_pos h

/-- The bar ends where there are as many outcomes as selected resources. -/
theorem cleanPage_pct_eq_iff (h : 0 < (cleanPage job).total) :
    (cleanPage job).pct = 100 ↔ job.results.length = (cleanPage job).total := by
  have hcast : ((cleanPage job).total : Rat) ≠ 0 := by exact_mod_cast h.ne'
  rw [cleanPage_pct h]
  constructor
  · intro hpct
    have hdiv : (job.results.length : Rat) / (cleanPage job).total = 1 := by linarith
    exact_mod_cast (div_eq_one_iff_eq hcast).mp hdiv
  · intro hsame
    rw [hsame, div_self hcast, one_mul]

/-- The bar is not longer than its track while there are no more outcomes than selected
resources. -/
theorem cleanPage_pct_le (h : job.results.length ≤ (cleanPage job).total) :
    (cleanPage job).pct ≤ 100 := by
  by_cases hpos : 0 < (cleanPage job).total
  · have hle : (job.results.length : Rat) / (cleanPage job).total ≤ 1 :=
      div_le_one_of_le₀ (by exact_mod_cast h) (Nat.cast_nonneg _)
    rw [cleanPage_pct hpos]
    linarith
  · unfold cleanPage at hpos ⊢
    dsimp only at hpos ⊢
    rw [if_neg hpos]
    split <;> norm_num

/-- Every outcome is on one of the three tiles. -/
theorem cleanPage_tiles (job : Job) : (cleanPage job).deleted + (cleanPage job).warned +
    (cleanPage job).failed = job.results.length := by
  unfold cleanPage
  dsimp only
  induction job.results with
  | nil => rfl
  | cons r results ih =>
    cases hs : r.success <;> cases hw : r.warning.getD false <;> simp [hs, hw] <;> omega

/-- A page that lists distinct outcomes of selected resources accounts for the selection. -/
theorem accounts_of_distinct (hnodup : job.selections.Nodup)
    (hdistinct : (job.results.map DeleteResult.toSelection).Nodup)
    (hselected : ∀ r ∈ job.results, r.toSelection ∈ job.selections) :
    Accounts job (cleanPage job) := by
  have hperm := outcomes_pending_perm hnodup hdistinct hselected
  have hlength : job.results.length + (cleanPage job).pending.length = job.selections.length := by
    rw [← hperm.length_eq, List.length_map, List.length_append]
  have htotal : (cleanPage job).total = job.results.length + (cleanPage job).pending.length := by
    rw [cleanPage_total, hlength]
  -- a region's resources are those with an outcome and those that are pending
  have hregion (g : String) : job.results.countP (fun x => x.region = g) +
      (cleanPage job).pending.countP (fun x => x.region = g) =
        job.selections.countP fun s => s.region = g := by
    rw [← hperm.countP_eq, List.countP_map, List.countP_append]
    rfl
  refine {
    rows := ?_
    distinct := hnodup
    tiles := ?_
    remaining := ?_
    total := htotal
    pct_le := ?_
    pct_eq := ?_
    region_le := ?_
    region_eq := ?_
    region_sum := ?_ }
  · refine (List.Perm.map _ ?_).trans hperm
    exact (List.reverse_perm _).append_right _
  · exact cleanPage_tiles job
  · have hremaining : (cleanPage job).remaining =
        if job.state.terminal then 0 else (cleanPage job).total - job.results.length := rfl
    rw [hremaining, htotal, Nat.add_sub_cancel_left]
  · exact cleanPage_pct_le (htotal ▸ Nat.le_add_right ..)
  · intro hne
    rw [cleanPage_pct_eq_iff (cleanPage_total job ▸ List.length_pos_iff.mpr hne),
      ← List.length_eq_zero_iff]
    omega
  · intro row hrow
    obtain ⟨g, -, rfl⟩ := List.mem_map.mp hrow
    exact (Nat.le_add_right _ _).trans (hregion g).le
  · intro row hrow
    obtain ⟨g, -, rfl⟩ := List.mem_map.mp hrow
    have hzero := @List.countP_eq_zero _ (cleanPage job).pending
      fun x : DeleteResult => decide (x.region = g)
    simp only [decide_eq_true_eq] at hzero
    rw [← hzero]
    have := hregion g
    dsimp only
    omega
  · rw [cleanPage_total]
    have hsum := sum_countP_eraseDups Selection.region job.selections
    simpa only [cleanPage, List.map_map, Function.comp_def] using hsum

end

/-! ## What the server shows -/

/-- A page reads the selection of a job as the server has it. -/
theorem selections_parsed (wf : WireFormat) (skips : Bool) (s : Snapshot) :
    ((encodeSnapshot wf s).parsed skips).selections = s.spec.selections := by
  have hsel : ((encodeSpec wf s.spec).selections).getD [] = s.spec.selections := by
    unfold encodeSpec
    split <;> simp_all
  cases skips with
  | true => exact hsel
  | false => exact hsel

/-- The resource of a recorded outcome. -/
def selectionOf (r : Jobs.DeleteResult) : Selection :=
  { resourceType := r.resourceType, region := r.region, identifier := r.identifier }

/-- A page lists the outcomes that the server shows. -/
theorem results_parsed (wf : WireFormat) (skips : Bool) (s : Snapshot) :
    ((encodeSnapshot wf s).parsed skips).results.map DeleteResult.toSelection =
      s.results.map selectionOf := by
  have hresults : ((encodeSnapshot wf s).parsed skips).results = s.results.map encodeResult := rfl
  rw [hresults, List.map_map]
  rfl

section

variable {j : Jobs.Job} {s : Snapshot}

/-- The keys of the shown outcomes are those whose end was recorded. -/
theorem shown_keys (hj : j.Consistent) (hs : j.snapshot = some s) :
    (s.results.map selectionOf).map Selection.key = (viewOf j.events).results.keys := by
  obtain ⟨s', hs', -, hresults, -⟩ := hj.snapshot
  obtain rfl := Option.some.inj (hs'.symm.trans hs)
  rw [hresults, ← results_values_keys, List.map_map]
  rfl

/-- The shown outcomes of a job that closes out selected keys only are distinct, and their
resources are selected. -/
theorem shown_outcomes (hj : j.Consistent) (hs : j.snapshot = some s)
    (hsel : Distinct j.spec.selections)
    (hclosed : ∀ key ∈ closedKeys j.events, key ∈ selectionKeys j.spec.selections) :
    (s.results.map selectionOf).Nodup ∧
      ∀ sel ∈ s.results.map selectionOf, sel ∈ j.spec.selections := by
  have hkeys := shown_keys hj hs
  refine ⟨.of_map Selection.key (hkeys ▸ (viewOf j.events).results.nodup), fun sel hmem => ?_⟩
  refine hsel.mem (hclosed _ (mem_results_keys.mp ?_))
  rw [← hkeys]
  exact List.mem_map_of_mem hmem

/-- Nothing is pending on the page of a job that has closed out the selection. -/
theorem pending_nil (wf : WireFormat) (skips : Bool) (hj : j.Consistent)
    (hs : j.snapshot = some s) (hsel : Distinct j.spec.selections)
    (hclosed : ∀ sel ∈ j.spec.selections, sel.key ∈ closedKeys j.events) :
    (cleanPage ((encodeSnapshot wf s).parsed skips)).pending = [] := by
  rw [← List.map_eq_nil_iff, pending_selections, results_parsed, selections_parsed,
    (snapshot_own hs).2.1, List.eq_nil_iff_forall_not_mem]
  intro sel hleft
  obtain ⟨hmem, hnone⟩ := mem_left.mp hleft
  have hkey := mem_results_keys.mpr (hclosed sel hmem)
  rw [← shown_keys hj hs] at hkey
  obtain ⟨sel', hsel', hsame⟩ := List.mem_map.mp hkey
  -- an outcome with the key of a selected resource is its own
  obtain ⟨ht, hg, hi⟩ := hsel.nulFree sel hmem
  obtain rfl := Selection.eq_of_key_eq ht hg hi hsame
  exact hnone hsel'

/-- The page of a job that closes out selected keys only accounts for the selection. -/
theorem accounts_snapshot (wf : WireFormat) (skips : Bool) (hj : j.Consistent)
    (hs : j.snapshot = some s) (hsel : Distinct j.spec.selections)
    (hclosed : ∀ key ∈ closedKeys j.events, key ∈ selectionKeys j.spec.selections) :
    Accounts ((encodeSnapshot wf s).parsed skips)
      (cleanPage ((encodeSnapshot wf s).parsed skips)) := by
  have hspec := (snapshot_own hs).2.1
  obtain ⟨hdistinct, hselected⟩ := shown_outcomes hj hs hsel hclosed
  refine accounts_of_distinct ?_ ?_ fun r hr => ?_
  · rw [selections_parsed, hspec]
    exact hsel.nodup
  · rw [results_parsed]
    exact hdistinct
  · rw [selections_parsed, hspec]
    refine hselected _ ?_
    rw [← results_parsed wf skips]
    exact List.mem_map_of_mem hr

end

/-! ## Every moment of a clean-up -/

section

variable {quote : String → String} {cat : Catalog} {spec : Engine.Spec} {keys : Finset String}
  {cn : CloudNuke} {isGlobal : String → Bool} {now : Int} {fmt : GoFormat}
  {text : List UInt8 → String} {trimSpace : List UInt8 → List UInt8} {stderr : List UInt8}
  {id sessionId accountId : String} {created : Nat} {before : List SilentOp}
  {goQuote : String → String} {clock : Nat → Nat} {y : Surroundings cn isGlobal now spec}
  {events : List Event}

/-- The worker's life after a job was started with a spec. -/
abbrev SpecLife (fmt : GoFormat) (text : List UInt8 → String)
    (trimSpace : List UInt8 → List UInt8) (stderr : List UInt8) (id sessionId accountId : String)
    (spec : Engine.Spec) (created : Nat) (before : List SilentOp) (events : List Event) : Type :=
  Supervised (jsonWire fmt text trimSpace) (joinLines (events.map (eventLine fmt))) stderr
    ((newJob id sessionId accountId spec created).run (before.map SilentOp.op))

variable {x : SpecLife fmt text trimSpace stderr id sessionId accountId spec created before events}

/-- At every moment the job is consistent and has the spec that it was started with. -/
theorem moment_own {job : Jobs.Job} (hjob : x.Moment job) : job.Consistent ∧ job.spec = spec := by
  obtain ⟨ops, rfl⟩ := hjob.exists_run
  have hstart := ((newJob_consistent id sessionId accountId spec created).run
    (before.map SilentOp.op)).1
  refine ⟨(hstart.run ops).1, ?_⟩
  have hsame := (Job.identity_run ((newJob id sessionId accountId spec created).run
    (before.map SilentOp.op)) ops).trans (Job.identity_run _ _)
  exact congrArg (fun p : String × String × String × Engine.Spec => p.2.2.2) hsame

/-- At every moment the ends that a job has recorded were written by the worker. -/
theorem moment_closedKeys (hevents : events <+: (y.worker goQuote clock).1.written)
    {job : Jobs.Job} (hjob : x.Moment job) {key : String} (hkey : key ∈ closedKeys job.events) :
    key ∈ closedKeys (y.worker goQuote clock).1.written := by
  have hwritten : RunEvents (y.worker goQuote clock).1.written := runWorker_events ..
  obtain ⟨ev, hev, htype, rfl⟩ :=
    mem_closedKeys.mp (hjob.closedKeys (events_run_silent rfl before) hkey)
  exact mem_closedKeys.mpr
    ⟨ev, hevents.subset ((runEvents_published (hwritten.cut hevents) x).1.subset hev), htype, rfl⟩

/-- At every moment of its worker's life, and whatever becomes of it, the page of a job
accounts for the selection. -/
theorem cleanPage_accounts (h : Accepted quote cat spec keys) (hy : y.RepliesFit)
    (hevents : events <+: (y.worker goQuote clock).1.written) {job : Jobs.Job}
    (hjob : x.Moment job) (wf : WireFormat) (skips : Bool) :
    ∃ s, job.snapshot = some s ∧ Accounts ((encodeSnapshot wf s).parsed skips)
      (cleanPage ((encodeSnapshot wf s).parsed skips)) := by
  obtain ⟨-, hvalid, -⟩ := accepted_crosses h fmt
  obtain ⟨hj, hspec⟩ := moment_own hjob
  obtain ⟨s, hs, -⟩ := hj.snapshot
  refine ⟨s, hs, accounts_snapshot wf skips hj hs (hspec ▸ h.distinct) fun key hkey => ?_⟩
  rw [hspec]
  exact worker_closes hvalid hy (moment_closedKeys hevents hjob hkey)

/-- A clean-up that validation lets pass selects something. -/
theorem selections_ne_nil (hvalid : spec.validate = .ok ()) (hmode : spec.mode = .nuke) :
    spec.selections ≠ [] := by
  intro hnil
  unfold Spec.validate at hvalid
  rw [hmode] at hvalid
  obtain ⟨-, hvalid⟩ := guard_ok hvalid
  cases hfind : spec.regions.find? badRegion with
  | some region =>
    rw [hfind] at hvalid
    cases hvalid
  | none =>
    rw [hfind] at hvalid
    exact (guard_ok hvalid).1 ⟨rfl, hnil⟩

/-- A page on which every selected resource has an outcome. -/
structure Finished (page : CleanPage) : Prop where
  pending : page.pending = []
  remaining : page.remaining = 0
  tiles : page.deleted + page.warned + page.failed = page.total
  pct : page.pct = 100
  regions : ∀ row ∈ page.byRegion, row.done = row.total

theorem Accounts.finished {job : Job} (h : Accounts job (cleanPage job))
    (hne : job.selections ≠ []) (hpending : (cleanPage job).pending = []) :
    Finished (cleanPage job) where
  pending := hpending
  remaining := by rw [h.remaining, hpending, List.length_nil, ite_self]
  tiles := by rw [h.tiles, h.total, hpending, List.length_nil, Nat.add_zero]
  pct := (h.pct_eq hne).mpr hpending
  regions row hrow := (h.region_eq row hrow).mpr fun p hp => by
    rw [hpending] at hp
    exact absurd hp List.not_mem_nil

/-- A clean-up whose worker exits cleanly, and whose lines fit, leaves nothing pending. -/
theorem cleanPage_finished (h : Accepted quote cat spec keys) (hmode : spec.mode = .nuke)
    (hwell : ∀ region ∈ (buildQuery isGlobal now spec).regions,
      WellListed y.rescan.account region)
    (hcontract : ∀ c ∈ nukeCalls (acts y.delete.trace), c.Contract)
    (hexit : (y.worker goQuote clock).2 = 0)
    (hfits : ∀ ev ∈ (y.worker goQuote clock).1.written, Fits (eventLine fmt ev))
    (x : SpecLife fmt text trimSpace stderr id sessionId accountId spec created before
      (y.worker goQuote clock).1.written) (after : List SilentOp) (wf : WireFormat)
    (skips : Bool) :
    ∃ s, (x.result.run (after.map SilentOp.op)).snapshot = some s ∧
      Finished (cleanPage ((encodeSnapshot wf s).parsed skips)) := by
  have hjob : x.Moment (x.result.run (after.map SilentOp.op)) := .after after
  have hy : y.RepliesFit := fun c hc r hr => (hcontract c hc).results_mem r hr
  obtain ⟨-, hvalid, -⟩ := accepted_crosses h fmt
  obtain ⟨hj, hspec⟩ := moment_own hjob
  have hwritten : RunEvents (y.worker goQuote clock).1.written := runWorker_events ..
  have hclosed : ∀ sel ∈ spec.selections,
      sel.key ∈ closedKeys (x.result.run (after.map SilentOp.op)).events := fun sel hsel => by
    refine Supervised.closedKeys_after after ?_
    rw [published_of_fits hwritten x hfits]
    exact worker_closes_all hvalid hmode hwell hcontract hexit
      (List.mem_toFinset.mpr (List.mem_map_of_mem hsel))
  obtain ⟨s, hs, haccounts⟩ :=
    cleanPage_accounts h hy List.prefix_rfl hjob wf skips
  refine ⟨s, hs, haccounts.finished ?_ (pending_nil wf skips hj hs ?_ ?_)⟩
  · rw [selections_parsed, (snapshot_own hs).2.1, hspec]
    exact selections_ne_nil hvalid hmode
  · rw [hspec]
    exact h.distinct
  · rw [hspec]
    exact hclosed

end

/-! ## The clean-up of a topic and a user -/

/-- The spec of the clean-up. -/
def topicNukeSpec : Engine.Spec where
  mode := .nuke
  regions := ["eu-west-1"]
  resourceTypes := ["sns-topic", "iam"]
  selections := topicNuke.selections
  olderThan := some 3600000000000

/-- The rescan still finds the topic, but not the user. -/
def topicAccount : Account
  | "eu-west-1" => [⟨"sns-topic", ["a"], 1⟩]
  | _ => []

def deleteAll : Nuker := fun _ _ batch => (batch.map fun id => ⟨id, none⟩, none)

/-- The topic is deleted, the user is gone. -/
def topicDeleting : NukeSelected CloudNuke.standard topicAccount ["eu-west-1", "global"]
    (selectionKeys topicNuke.selections) 0 where
  regional := walksInOrder CloudNuke.standard topicAccount (selectionKeys topicNuke.selections)
    deleteAll ["eu-west-1"]
  regionalEnd := _
  regional_run := Core.Pool.Run.sequential (effectiveParallelism_pos _ _) deleteAll.oracle _ _
  regional_complete := rfl
  global := walksInOrder CloudNuke.standard topicAccount (selectionKeys topicNuke.selections)
    deleteAll ["global"]
  globalEnd := _
  global_run := Core.Pool.Run.sequential Nat.one_pos deleteAll.oracle _ _
  global_complete := rfl
  world := { seen := {selectionKey "sns-topic" "eu-west-1" "a"}
             reports := [.nukeProgress "sns-topic" "eu-west-1" 1,
               .resourceDeleted "sns-topic" "eu-west-1" "a" true false ""] }
  world_run := rfl
  gone := [selectionKey "iam" "global" "u"]
  gone_perm := by
    have hleft : selectionKeys topicNuke.selections \
        {selectionKey "sns-topic" "eu-west-1" "a"} = {selectionKey "iam" "global" "u"} := by
      decide
    rw [hleft, Finset.toList_singleton]

/-- The rescan of the clean-up has nothing to report. -/
def topicReports : List Report := []

/-- Every listing of the rescan succeeds. -/
def topicFailed : Finset (String × String) := ∅

def topicRescan : Rescan ["eu-west-1", "global"] where
  reports := topicReports
  account := topicAccount
  failed := topicFailed
  reports_outcome _ h := absurd h List.not_mem_nil
  failed_reported _ h := absurd h (Finset.notMem_empty _)
  failed_left_out _ h := absurd h (Finset.notMem_empty _)
  failed_nulFree _ h := absurd h (Finset.notMem_empty _)
  regions_nulFree := List.forall_mem_cons.mpr ⟨by decide, List.forall_mem_singleton.mpr (by decide)⟩
  types_nulFree region res hres := by
    unfold topicAccount at hres
    split at hres
    · obtain rfl := List.mem_singleton.mp hres
      decide
    · exact absurd hres List.not_mem_nil

/-- Nothing cancels the clean-up. -/
def topicRun : Surroundings CloudNuke.standard topicCatalog.isGlobal 0 topicNukeSpec where
  rescan := topicRescan
  ctxDone := false
  delete := topicDeleting
  ctxDoneAfter := false
  ctxDone_mono h := absurd h Bool.false_ne_true

/-- The lines of the clean-up's worker come through in one go. -/
def topicLife : SpecLife smallFormat (fun _ => "") id [] "k" "s" "123456789012" topicNukeSpec 5 []
    (topicRun.worker id id).1.written := .inOrder _ _ _ _ none none 9

theorem topicNukeSpec_accepted :
    Accepted (fun s => s) topicCatalog topicNukeSpec (selectionKeys topicNuke.selections) := by
  have hscan : topicScan.spec (fun s => s) topicCatalog ⟨"123456789012", ""⟩ = .ok topicScanSpec :=
    rfl
  have hget : topicJobs topicNuke.scanJobId =
    some ((newJob "j" "s" "123456789012" topicScanSpec 1).run topicScanOps) := rfl
  have hfinds : ∀ ev ∈ ((newJob "j" "s" "123456789012" topicScanSpec 1).run topicScanOps).events,
      ev.type = .resourceFound → TypedBy topicScanSpec (foundOf ev) := fun ev hev _ =>
    ⟨(topicScanJob_finds ev hev).nulFree, (topicScanJob_finds ev hev).type_mem⟩
  have hok : handleCreateNuke "s" ⟨"123456789012", ""⟩ topicJobs topicNuke = .ok topicNukeSpec :=
    rfl
  exact .nuke hscan hget hfinds hok

/-- The nukers of the clean-up keep their contract. -/
theorem topicRun_contract : ∀ c ∈ nukeCalls (acts topicRun.delete.trace), c.Contract := by
  have hcalls : nukeCalls (acts topicRun.delete.trace) =
      [⟨"sns-topic", "eu-west-1", ["a"], [⟨"a", none⟩], none⟩] := rfl
  rw [hcalls]
  exact List.forall_mem_singleton.mpr ⟨by decide, by decide, by decide⟩

/-- The job of the clean-up after three steps of its worker's life. -/
def topicMoment : Jobs.Job := (topicLife.trace.take 3).foldl Jobs.Job.live
  ((newJob "k" "s" "123456789012" topicNukeSpec 5).run (([] : List SilentOp).map SilentOp.op))

/-- Then the page accounts for the topic and the user. -/
theorem topicMoment_accounts : ∃ s, topicMoment.snapshot = some s ∧
    Accounts ((encodeSnapshot ⟨fun _ => "", fun _ => ""⟩ s).parsed true)
      (cleanPage ((encodeSnapshot ⟨fun _ => "", fun _ => ""⟩ s).parsed true)) := by
  have hmoment : topicLife.Moment topicMoment := .during (List.take_prefix 3 _)
  have hreplies : topicRun.RepliesFit := fun c hc r hr => (topicRun_contract c hc).results_mem r hr
  exact cleanPage_accounts topicNukeSpec_accepted hreplies List.prefix_rfl hmoment _ true

/-- When it has ended, nothing is pending. -/
theorem topicLife_finished : ∃ s, (topicLife.result.run []).snapshot = some s ∧
    Finished (cleanPage ((encodeSnapshot ⟨fun _ => "", fun _ => ""⟩ s).parsed false)) := by
  have hwell : ∀ region ∈ ["eu-west-1", "global"], WellListed topicAccount region := by
    intro region hregion
    rcases List.mem_pair.mp hregion with rfl | rfl
    · constructor <;> decide
    · constructor <;> decide
  have hexit : (topicRun.worker id id).2 = 0 := by decide +kernel
  have hfits : ∀ ev ∈ (topicRun.worker id id).1.written, Fits (eventLine smallFormat ev) := by
    decide +kernel
  exact cleanPage_finished (y := topicRun) topicNukeSpec_accepted rfl hwell topicRun_contract
    hexit hfits topicLife [] _ false

end Broom.Web
