import Broom.Jobs.Tallies
import Broom.Web.History
import Broom.Web.Hops

/-!
# The counts of a run

The worker's summary, the server's list view and the page's two views each count a
run their own way: one by one, over keyed maps, over rows, and over a summary with the
rows to fall back on where it says zero. They agree on every run.
-/

namespace Broom.Web

open Broom.Core Broom.Engine Broom.Jobs

/-! ## Counting an entry -/

/-- How the page reports an outcome. -/
inductive ResultKind
  | deleted
  | gone
  | retry
  | fail
  deriving DecidableEq, Repr

/-- Bucket one clean-up result. -/
def resultKind (r : DeleteResult) : ResultKind :=
  if r.success then
    if r.note = some "already_gone" then .gone else .deleted
  else if r.warning.getD false then .retry else .fail

/-- The outcome counts of an entry. -/
structure EntryCounts where
  found : Nat
  protectedRows : Nat
  nukable : Int
  errors : Nat
  deleted : Nat
  gone : Nat
  retry : Nat
  failed : Nat
  deriving DecidableEq, Repr

/-- A count that may be missing, with another where it is missing or zero. -/
def countOr (n : Option Nat) (other : Nat) : Nat := if n.getD 0 = 0 then other else n.getD 0

/-- Count an entry by its summary or, failing that, by its rows. -/
def entryCounts (e : HistoryEntry) : EntryCounts :=
  let s := e.summary
  let results := e.results.getD []
  let found := e.found.getD []
  let rows (k : ResultKind) := results.countP fun r => resultKind r = k
  { found := countOr (s.map Summary.found) found.length
    protectedRows := countOr (s.map Summary.notNukable) (found.countP fun f => !f.nukable)
    nukable := (countOr (s.map Summary.found) found.length : Int) -
      countOr (s.map Summary.notNukable) (found.countP fun f => !f.nukable)
    errors := countOr (s.map Summary.generalErrors) (e.errors.getD []).length
    deleted := if 0 < (s.map Summary.deleted).getD 0 + (s.map Summary.alreadyGone).getD 0
      then (s.map Summary.deleted).getD 0 else rows .deleted
    gone := countOr (s.map Summary.alreadyGone) (rows .gone)
    retry := countOr (s.map Summary.warned) (rows .retry)
    failed := countOr (s.map Summary.failed) (rows .fail) }

/-- The counts of an entry's rows. -/
def rowCounts (found : List FoundResource) (results : List DeleteResult)
    (errors : List GeneralError) : EntryCounts where
  found := found.length
  protectedRows := found.countP fun f => !f.nukable
  nukable := found.countP fun f => f.nukable
  errors := errors.length
  deleted := results.countP fun r => resultKind r = .deleted
  gone := results.countP fun r => resultKind r = .gone
  retry := results.countP fun r => resultKind r = .retry
  failed := results.countP fun r => resultKind r = .fail

/-- Every outcome is of one kind. -/
theorem rowCounts_sum (found : List FoundResource) (results : List DeleteResult)
    (errors : List GeneralError) :
    (rowCounts found results errors).deleted + (rowCounts found results errors).gone +
      (rowCounts found results errors).retry + (rowCounts found results errors).failed =
        results.length := by
  simp only [rowCounts]
  induction results with
  | nil => rfl
  | cons r results ih =>
    cases hkind : resultKind r with
    | _ =>
      simp [hkind]
      omega

/-- A summary that counts the rows. -/
structure SummaryOf (rows : List FoundResource) (results : List DeleteResult)
    (errors : List GeneralError) (s : Summary) : Prop where
  found : s.found = rows.length
  notNukable : s.notNukable = rows.countP fun f => !f.nukable
  generalErrors : s.generalErrors = errors.length
  deleted : s.deleted = results.countP fun r => resultKind r = .deleted
  alreadyGone : s.alreadyGone = results.countP fun r => resultKind r = .gone
  warned : s.warned = results.countP fun r => resultKind r = .retry
  failed : s.failed = results.countP fun r => resultKind r = .fail

theorem countOr_eq {n : Option Nat} {rows : Nat} (h : ∀ k ∈ n, k = rows) :
    countOr n rows = rows := by
  cases n with
  | none => rfl
  | some k =>
    obtain rfl := h k rfl
    rw [countOr, Option.getD_some]
    split <;> rfl

/-- Counting an entry by a summary of its rows, or without a summary, counts its rows. -/
theorem entryCounts_eq {e : HistoryEntry} {found : List FoundResource}
    {results : List DeleteResult} {errors : List GeneralError} (hfound : e.found = some found)
    (hresults : e.results = some results) (herrors : e.errors = some errors)
    (h : ∀ s ∈ e.summary, SummaryOf found results errors s) :
    entryCounts e = rowCounts found results errors := by
  have hcount {count : Summary → Nat} {rows : Nat}
      (hs : ∀ s, SummaryOf found results errors s → count s = rows) :
      countOr (e.summary.map count) rows = rows := by
    refine countOr_eq fun k hk => ?_
    obtain ⟨s, hes, rfl⟩ := Option.map_eq_some_iff.mp hk
    exact hs s (h s hes)
  have hdeleted : (if 0 < (e.summary.map Summary.deleted).getD 0 +
      (e.summary.map Summary.alreadyGone).getD 0 then (e.summary.map Summary.deleted).getD 0
      else results.countP fun r => resultKind r = .deleted) =
      results.countP fun r => resultKind r = .deleted := by
    cases hes : e.summary with
    | none => rfl
    | some s =>
      simp only [Option.map_some, Option.getD_some, (h s hes).deleted]
      split <;> rfl
  have hsplit : found.length = found.countP (fun f => f.nukable) +
      found.countP (fun f => !f.nukable) := by
    simpa using @List.length_eq_countP_add_countP _ (fun f : FoundResource => f.nukable) found
  unfold entryCounts rowCounts
  simp only [hfound, hresults, herrors, Option.getD_some, hdeleted,
    hcount fun _ hs => hs.found, hcount fun _ hs => hs.notNukable,
    hcount fun _ hs => hs.generalErrors, hcount fun _ hs => hs.alreadyGone,
    hcount fun _ hs => hs.warned, hcount fun _ hs => hs.failed]
  congr 1
  omega

/-! ## The views of a job -/

/-- A list view on the wire. -/
def encodeBrief (wf : WireFormat) (b : Brief) : JobBrief where
  id := b.id
  mode := b.mode
  state := b.state
  phase := omitEmpty b.phase
  accountId := b.accountId
  regions := b.regions
  resourceTypes := b.resourceTypes
  olderThan := b.olderThan.map wf.duration
  createdAt := wf.time b.createdAt
  startedAt := b.startedAt.map wf.time
  finishedAt := b.finishedAt.map wf.time
  error := omitEmpty b.error
  scanned := b.scanned
  found := b.found
  selected := b.selected
  deleted := b.deleted
  warned := b.warned
  failed := b.failed
  errors := b.errors
  summary := b.summary

/-- The page's list view of a snapshot is the server's, but for a duration that is not
positive. -/
theorem briefOf_encodeSnapshot (wf : WireFormat) {j : Jobs.Job} {s : Snapshot}
    (hj : j.Consistent) (h : j.snapshot = some s) : briefOf (encodeSnapshot wf s) =
      { encodeBrief wf j.brief with olderThan := s.spec.olderThan.map wf.duration } := by
  have hwarning (r : Jobs.DeleteResult) : (encodeResult r).warning.getD false = r.warning := by
    cases hr : r.warning <;> simp [encodeResult, omitFalse, hr]
  have hselected : ((encodeSpec wf s.spec).selections.map List.length).getD 0 =
      s.spec.selections.length := by
    unfold encodeSpec
    split <;> simp_all
  rw [Job.brief_of_snapshot hj h]
  simp only [briefOf, encodeSnapshot, encodeBrief, hselected, List.length_map, List.countP_map,
    Function.comp_def, hwarning]
  rfl

theorem resultKind_encodeResult (r : Jobs.DeleteResult) : resultKind (encodeResult r) =
    if r.success then if r.gone then .gone else .deleted
    else if r.warning then .retry else .fail := by
  have hnote : (encodeResult r).note = some "already_gone" ↔ r.gone = true := by
    rw [encodeResult, omitEmpty_eq_some (by decide), Jobs.DeleteResult.gone, decide_eq_true_iff]
  unfold resultKind
  simp only [hnote]
  cases hr : r.warning <;> simp [encodeResult, omitFalse, hr]

/-- A tally of what a view shows counts the rows of the page. -/
theorem summaryOf_counts {sum : Summary} {v : View} (h : Counts sum v) :
    SummaryOf (v.found.values.map encodeFound) (v.results.values.map encodeResult)
      (v.errors.map encodeError) sum := by
  have hkind (k : ResultKind) : (v.results.values.map encodeResult).countP
      (fun r => resultKind r = k) = v.results.values.countP fun r =>
        (if r.success then if r.gone then ResultKind.gone else .deleted
          else if r.warning then .retry else .fail) = k := by
    rw [List.countP_map]
    simp only [Function.comp_def, resultKind_encodeResult]
  -- each kind is told by the flags that the tally looks at
  have hflags {p q : Jobs.DeleteResult → Bool} (h : ∀ r, p r = q r) :
      v.results.values.countP p = v.results.values.countP q :=
    congrArg (List.countP · v.results.values) (funext h)
  constructor
  · rw [List.length_map, h.found]
  · rw [List.countP_map, h.notNukable]
    rfl
  · rw [List.length_map, h.generalErrors]
  · rw [hkind, h.deleted]
    exact hflags fun r => by cases r.success <;> cases r.gone <;> cases r.warning <;> rfl
  · rw [hkind, h.alreadyGone]
    exact hflags fun r => by cases r.success <;> cases r.gone <;> cases r.warning <;> rfl
  · rw [hkind, h.warned]
    exact hflags fun r => by cases r.success <;> cases r.gone <;> cases r.warning <;> rfl
  · rw [hkind, h.failed]
    exact hflags fun r => by cases r.success <;> cases r.gone <;> cases r.warning <;> rfl

/-! ## Every run -/

/-- A worker's events can be emitted. -/
theorem emittable_of_runEvents {events : List Event} (h : RunEvents events) :
    ∀ ev ∈ events, Emittable ev := by
  intro ev hev s hs
  by_cases htype : ev.type = .summary
  · obtain ⟨before, after, rfl⟩ := List.append_of_mem hev
    obtain ⟨-, mode, notSelected, hmode, hsummary⟩ := h.summary before ev after rfl htype
    obtain rfl := Option.some.inj (hsummary.symm.trans hs)
    exact hmode
  · rw [h.bare ev hev htype] at hs
    cases hs

section run

variable {fmt : GoFormat} {text : List UInt8 → String} {trimSpace : List UInt8 → List UInt8}
  {stderr : List UInt8} {j : Jobs.Job} {events : List Event}

/-- The server publishes what a worker wrote, up to the first line that does not fit. -/
theorem published_eventLines (h : RunEvents events)
    (x : Supervised (jsonWire fmt text trimSpace) (joinLines (events.map (eventLine fmt))) stderr
      j) : x.published = events.takeWhile fun ev => decide (Fits (eventLine fmt ev)) := by
  have hlines : (events.map (eventLine fmt)).takeWhile (fun l => decide (Fits l)) =
      (events.takeWhile fun ev => decide (Fits (eventLine fmt ev))).map (eventLine fmt) := by
    rw [List.takeWhile_map, Function.comp_def]
  have hdecoded {events' : List Event} (hsub : ∀ ev ∈ events', ev ∈ events) :
      decoded (jsonWire fmt text trimSpace) (events'.map (eventLine fmt)) = events' := by
    induction events' with
    | nil => rfl
    | cons ev events' ih =>
      have hev := emittable_of_runEvents h ev (hsub ev (List.mem_cons_self ..))
      rw [List.map_cons, decoded_cons, lineEvent_eventLine hev,
        ih fun ev' hev' => hsub ev' (List.mem_cons_of_mem _ hev')]
      rfl
  rw [published_joinLines, hlines]
  exact hdecoded fun ev hev => (List.takeWhile_prefix _).subset hev

/-- What the server publishes of a worker's events are the events of a run. -/
theorem runEvents_published (h : RunEvents events)
    (x : Supervised (jsonWire fmt text trimSpace) (joinLines (events.map (eventLine fmt))) stderr
      j) : x.published <+: events ∧ RunEvents x.published := by
  rw [published_eventLines h x]
  exact ⟨List.takeWhile_prefix _, h.cut (List.takeWhile_prefix _)⟩

/-- Lines that fit are all published. -/
theorem published_of_fits (h : RunEvents events)
    (x : Supervised (jsonWire fmt text trimSpace) (joinLines (events.map (eventLine fmt))) stderr
      j) (hfits : ∀ ev ∈ events, Fits (eventLine fmt ev)) : x.published = events := by
  rw [published_eventLines h x, List.takeWhile_eq_self_iff]
  exact fun ev hev => decide_eq_true (hfits ev hev)

end run

theorem keysOf_nodup_cut {type : EventType} {events events' : List Event}
    (hp : events' <+: events) (h : (keysOf type events).Nodup) : (keysOf type events').Nodup :=
  h.sublist ((hp.sublist.filter _).map _)

/-- A summary, a snapshot and a list view that agree. -/
structure Tallied (sum : Summary) (s : Snapshot) (b : Brief) : Prop where
  found : sum.found = sum.nukable + sum.notNukable
  rows : sum.found = s.found.length
  notNukable : sum.notNukable = s.found.countP fun f => !f.nukable
  generalErrors : sum.generalErrors = s.errors.length
  deleted : sum.deleted + sum.alreadyGone = b.deleted
  warned : sum.warned = b.warned
  failed : sum.failed = b.failed

/-- A run's tally agrees with the views of its job. -/
theorem tallied_counts {sum : Summary} {j : Jobs.Job} {s : Snapshot} (hj : j.Consistent)
    (hs : j.snapshot = some s) (h : Counts sum (viewOf j.events)) : Tallied sum s j.brief := by
  obtain ⟨s', hs', hfound, hresults, herrors, -⟩ := hj.snapshot
  obtain rfl := Option.some.inj (hs'.symm.trans hs)
  have hbrief := Job.brief_of_snapshot hj hs'
  refine ⟨h.nukable, ?_, ?_, ?_, ?_, ?_, ?_⟩
  · rw [hfound, h.found]
  · rw [hfound, h.notNukable]
  · rw [herrors, h.generalErrors]
  · rw [hbrief, hresults, h.deleted, h.alreadyGone]
    have hsplit (rows : List Jobs.DeleteResult) :
        rows.countP (fun r => r.success && !r.gone) + rows.countP (fun r => r.success && r.gone) =
          rows.countP fun r => r.success := by
      induction rows with
      | nil => rfl
      | cons r rows ih =>
        cases hr : r.success <;> cases hg : r.gone <;> simp [hr, hg] <;> omega
    exact hsplit _
  · rw [hbrief, hresults, h.warned]
  · rw [hbrief, hresults, h.failed]

/-- Operations that publish nothing leave a job without events. -/
theorem events_run_silent {j : Jobs.Job} (h : j.events = []) (ops : List SilentOp) :
    (j.run (ops.map SilentOp.op)).events = [] := by
  induction ops generalizing j with
  | nil => exact h
  | cons e ops ih =>
    have hstep := j.events_live (.env e)
    rw [h] at hstep
    exact ih (List.map_eq_nil_iff.mp hstep)

/-- The summary of a run is shown when it was written. -/
theorem summary_ne_none_of_runEvents {events : List Event} (h : RunEvents events) {ev : Event}
    (hev : ev ∈ events) (htype : ev.type = .summary) : (viewOf events).summary ≠ none := by
  obtain ⟨before, after, rfl⟩ := List.append_of_mem hev
  obtain ⟨rfl, mode, notSelected, -, hsummary⟩ := h.summary before ev after rfl htype
  have happly : ((viewOf before).apply ev).summary = ev.summary := by simp only [View.apply, htype]
  rw [viewOf_append, List.foldl_cons, List.foldl_nil, happly, hsummary]
  exact Option.some_ne_none _

/-- Whatever a worker has written when it ends, if no key is found twice or closed out twice:
the summary that its job ends up with agrees with the snapshot and the list view, the page's
list view with the server's, and the page counts the rows of the entry with or without the
summary. A worker that exits cleanly, whose lines fit, leaves a summary. -/
theorem tallies_agree {cn : CloudNuke} {isGlobal : String → Bool} {now : Int} (fmt : GoFormat)
    (wf : WireFormat) (quote : String → String) (clock : Nat → Nat)
    (input : Except String Engine.Spec)
    (y : ∀ spec, input = .ok spec → Surroundings cn isGlobal now spec) {events : List Event}
    (hevents : events <+: (runWorker quote clock input y).1.written)
    (hfound : (keysOf .resourceFound events).Nodup)
    (hdeleted : (keysOf .resourceDeleted events).Nodup)
    (text : List UInt8 → String) (trimSpace : List UInt8 → List UInt8) (stderr : List UInt8)
    (id sessionId accountId : String) (spec : Engine.Spec) (created : Nat) (before : List SilentOp)
    (x : Supervised (jsonWire fmt text trimSpace) (joinLines (events.map (eventLine fmt))) stderr
      ((newJob id sessionId accountId spec created).run (before.map SilentOp.op))) :
    ∃ s, x.result.snapshot = some s ∧
      (∀ sum ∈ s.summary, Tallied sum s x.result.brief) ∧
      briefOf (encodeSnapshot wf s) =
        { encodeBrief wf x.result.brief with olderThan := s.spec.olderThan.map wf.duration } ∧
      (∀ summary, summary = none ∨ summary = s.summary →
        let counts := entryCounts { toHistory (encodeSnapshot wf s) with summary := summary }
        counts = rowCounts (s.found.map encodeFound) (s.results.map encodeResult)
          (s.errors.map encodeError) ∧
        counts.deleted + counts.gone + counts.retry + counts.failed = s.results.length) ∧
      ((runWorker quote clock input y).2 = 0 → events = (runWorker quote clock input y).1.written →
        (∀ ev ∈ events, Fits (eventLine fmt ev)) → s.summary ≠ none) := by
  have hrun : RunEvents events := (runWorker_events quote clock input y).cut hevents
  obtain ⟨hpub, hpubrun⟩ := runEvents_published hrun x
  have hcounts : Counts (x.published.foldl tally {}) (viewOf x.published) :=
    counts_of_runEvents hpubrun (keysOf_nodup_cut hpub hfound)
      (keysOf_nodup_cut hpub hdeleted)
  have hview : viewOf x.result.events = viewOf x.published :=
    x.viewOf_result (events_run_silent rfl before)
  have hj : x.result.Consistent := by
    obtain ⟨ops, hops⟩ := x.exists_run
    rw [hops]
    exact (((newJob_consistent id sessionId accountId spec created).run _).1.run ops).1
  obtain ⟨s, hs, hsfound, hsresults, hserrors, hssummary, -⟩ := hj.snapshot
  rw [hview] at hsfound hsresults hserrors hssummary
  -- a summary in the snapshot is the tally of what was published
  have hsum : ∀ sum ∈ s.summary, Counts sum (viewOf x.published) := by
    intro sum hsum
    obtain ⟨mode, notSelected, rfl⟩ := summary_of_runEvents hpubrun (hssummary ▸ hsum)
    exact hcounts.with_mode mode notSelected
  have htallied : ∀ sum ∈ s.summary, Tallied sum s x.result.brief := by
    intro sum h
    refine tallied_counts hj hs ?_
    rw [hview]
    exact hsum sum h
  refine ⟨s, hs, htallied, ?_, ?_, ?_⟩
  · exact briefOf_encodeSnapshot wf hj hs
  · intro summary hsummary
    have hrows : ∀ sum ∈ summary, SummaryOf (s.found.map encodeFound)
        (s.results.map encodeResult) (s.errors.map encodeError) sum := by
      intro sum h
      rcases hsummary with rfl | rfl
      · cases h
      · rw [hsfound, hsresults, hserrors]
        exact summaryOf_counts (hsum sum h)
    have heq : entryCounts { toHistory (encodeSnapshot wf s) with summary := summary } =
        rowCounts (s.found.map encodeFound) (s.results.map encodeResult)
          (s.errors.map encodeError) := entryCounts_eq rfl rfl rfl hrows
    dsimp only
    rw [heq]
    exact ⟨rfl, (rowCounts_sum ..).trans (List.length_map _)⟩
  · intro hexit hall hfits
    obtain ⟨ev, hev, htype⟩ := runWorker_summary hexit
    rw [hssummary, published_of_fits hrun x hfits]
    exact summary_ne_none_of_runEvents hrun (hall ▸ hev) htype

/-! ## A scan of one topic -/

/-- Scan one region for topics. -/
private def listingSpec : Engine.Spec where
  mode := .scan
  regions := ["us-east-1"]
  resourceTypes := ["sns-topic"]

private theorem listing_region : ∀ region ∈ ["us-east-1"], NulFree region :=
  List.forall_mem_singleton.mpr (by decide)

private theorem listing_complete : ∀ p ∈ (∅ : Finset (String × String)),
    NulFree p.1 ∧ NulFree p.2 :=
  fun _ h => absurd h (Finset.notMem_empty _)

private theorem listing_empty : ∀ region, ∀ res ∈ ((fun _ => []) : Account) region,
    NulFree res.resourceName := fun _ _ h => absurd h List.not_mem_nil

/-- The scan finds a topic that cannot be deleted, and cannot list another page. -/
private def listingRescan : Rescan ["us-east-1"] where
  reports := [.resourceFound "sns-topic" "us-east-1" "a" false "protected",
    .generalError "sns-topic" "unable to retrieve" "Throttling: rate exceeded"]
  account := fun _ => []
  failed := ∅
  reports_outcome := List.forall_mem_cons.mpr ⟨rfl, List.forall_mem_singleton.mpr rfl⟩
  failed_reported _ h := absurd h (Finset.notMem_empty _)
  failed_left_out _ h := absurd h (Finset.notMem_empty _)
  failed_nulFree := listing_complete
  regions_nulFree := listing_region
  types_nulFree := listing_empty

/-- Nothing cancels the scan. -/
private noncomputable def listingRun : Surroundings CloudNuke.standard (fun _ => false) 0
    listingSpec where
  rescan := listingRescan
  ctxDone := false
  delete := NukeSelected.inOrder _ _ _ _ _ fun _ _ _ => ([], none)
  ctxDoneAfter := false
  ctxDone_mono h := by rwa [NukeSelected.inOrder_uncancelled] at h

/-- The surroundings of the scan, whose spec is the only input. -/
private noncomputable def listingRuns (spec : Engine.Spec)
    (h : (Except.ok listingSpec : Except String Engine.Spec) = .ok spec) :
    Surroundings CloudNuke.standard (fun _ => false) 0 spec :=
  Except.ok.inj h ▸ listingRun

/-- The scan's worker. -/
private noncomputable def listingWorker : Emitter × Nat :=
  runWorker id id (.ok listingSpec) listingRuns

/-- The lines of the scan's worker come through in one go. -/
noncomputable def listingLife : Supervised (jsonWire smallFormat (fun _ => "") id)
    (joinLines (listingWorker.1.written.map (eventLine smallFormat))) []
    ((newJob "j" "s" "1" listingSpec 1).run (([] : List SilentOp).map SilentOp.op)) :=
  .inOrder _ _ _ _ none none 2

/-- The scan's tallies agree. -/
theorem listingLife_tallies : ∃ s, listingLife.result.snapshot = some s ∧
    s.summary ≠ none ∧ ∀ sum ∈ s.summary, Tallied sum s listingLife.result.brief := by
  have hfound : (keysOf .resourceFound listingWorker.1.written).Nodup := by decide +kernel
  have hdeleted : (keysOf .resourceDeleted listingWorker.1.written).Nodup := by decide +kernel
  have hexit : listingWorker.2 = 0 := by decide +kernel
  have hfits : ∀ ev ∈ listingWorker.1.written, Fits (eventLine smallFormat ev) := by
    decide +kernel
  obtain ⟨s, hs, htallied, -, -, hsummary⟩ := tallies_agree smallFormat ⟨fun _ => "", fun _ => ""⟩
    id id (.ok listingSpec) listingRuns List.prefix_rfl hfound hdeleted (fun _ => "") id [] "j" "s"
    "1" listingSpec 1 [] listingLife
  exact ⟨s, hs, hsummary hexit rfl hfits, htallied⟩

end Broom.Web
