import Broom.Engine.Accounting
import Broom.Engine.Deleting
import Broom.Engine.FailedRescan

/-!
# What a run closes out

The log of a run closes out what its delete phase reports on, and nothing else. Whatever is
cancelled and whatever fails, that was confirmed, if the nukers reply about the identifiers
they were given; and a run that exits cleanly has closed out all that was confirmed.
-/

namespace Broom.Engine

open Broom.Core Broom.Core.Pool

/-! ## Writing -/

/-- The keys that some events close out, with repetitions. -/
def closedKeys (events : List Event) : List String :=
  (events.filter (·.type = .resourceDeleted)).map Event.key

theorem mem_closedKeys {events : List Event} {key : String} :
    key ∈ closedKeys events ↔ ∃ ev ∈ events, ev.type = .resourceDeleted ∧ ev.key = key := by
  simp [closedKeys, and_assoc]

@[simp] theorem closedKeys_append (events events' : List Event) :
    closedKeys (events ++ events') = closedKeys events ++ closedKeys events' := by
  simp [closedKeys]

theorem closedKeys_emit (em : Emitter) (ev : Event) :
    closedKeys (em.emit ev).written = closedKeys em.written ++ closedKeys [ev] := by
  rw [Emitter.emit, closedKeys_append]
  simp only [closedKeys, List.filter_cons, List.filter_nil]
  split <;> rfl

/-- An event of another kind closes out nothing. -/
theorem closedKeys_emit_of_ne (em : Emitter) {ev : Event} (h : ev.type ≠ .resourceDeleted) :
    closedKeys (em.emit ev).written = closedKeys em.written := by
  have hnone : closedKeys [ev] = [] := by simp [closedKeys, h]
  rw [closedKeys_emit, hnone, List.append_nil]

/-- The event of a report closes out what the report does. -/
theorem closedKeys_event (r : Report) : closedKeys r.event.toList = r.outcome.toList := by
  cases r with
  | _ => rfl

/-- An emitter closes out what its reports do. -/
theorem closedKeys_onEvents (em : Emitter) (reports : List Report) :
    closedKeys (em.onEvents reports).written = closedKeys em.written ++ outcomes reports := by
  induction reports generalizing em with
  | nil => exact (List.append_nil _).symm
  | cons r reports ih =>
    have hr : closedKeys (em.onEvent r).written = closedKeys em.written ++ r.outcome.toList := by
      rw [← closedKeys_event, Emitter.onEvent]
      cases r.event with
      | none => exact (List.append_nil _).symm
      | some ev => exact closedKeys_emit em ev
    have hcons : outcomes (r :: reports) = r.outcome.toList ++ outcomes reports := by
      unfold outcomes
      rw [List.filterMap_cons]
      cases r.outcome <;> rfl
    rw [Emitter.onEvents, List.foldl_cons, ← Emitter.onEvents, ih, hr, hcons, List.append_assoc]

/-! ## The delete phase -/

namespace NukeSelected

variable {cn : CloudNuke} {account : Account} {regions : List String} {selected : Finset String}
  {parallelism : Int}

/-- The identifiers of a batch are confirmed. -/
theorem call_confirmed (run : NukeSelected cn account regions selected parallelism) {c : NukeCall}
    (hc : c ∈ nukeCalls (acts run.trace)) {id : String} (hid : id ∈ c.batch) :
    selectionKey c.resourceType c.region id ∈ selected := by
  obtain ⟨⟨op, ans⟩, ha, hcall⟩ := List.mem_filterMap.mp hc
  have hconf := run.partialWalk.confirmed _ ha
  cases op with
  | nuke t g batch =>
    obtain rfl := Option.some.inj hcall
    obtain ⟨res, -, -, hids⟩ := hconf
    exact (hids id hid).2
  | _ => cases hcall

/-- A walk reports about its calls. -/
theorem mem_world_reports (run : NukeSelected cn account regions selected parallelism)
    {r : Report} (h : r ∈ run.world.reports) : ∃ c ∈ nukeCalls (acts run.trace), r ∈ c.reports := by
  have hcalls (c : NukeCall) : c ∈ nukeCalls (acts run.trace) ↔
      c ∈ nukeCalls (acts run.regional) ∨ c ∈ nukeCalls (acts run.global) := by
    simp [trace, nukeCalls]
  rw [(World.run_eq run.world_run).2.1, acts_append, reportsOf_append, List.nil_append] at h
  rcases List.mem_append.mp h with h | h
  · obtain ⟨c, hc, hr⟩ := run.regional_walks.mem_reports h
    exact ⟨c, (hcalls c).mpr (.inl hc), hr⟩
  · obtain ⟨c, hc, hr⟩ := run.global_walks.mem_reports h
    exact ⟨c, (hcalls c).mpr (.inr hc), hr⟩

/-- The phase closes out confirmed keys only, wherever it was cancelled. -/
theorem outcome_mem {selections : List Selection}
    (run : NukeSelected cn account regions (selectionKeys selections) parallelism)
    (hreplies : ∀ c ∈ nukeCalls (acts run.trace), ∀ r ∈ c.results, r.identifier ∈ c.batch)
    {r : Report} (hr : r ∈ run.reports) {key : String} (hkey : key ∈ r.outcome) :
    key ∈ selectionKeys selections := by
  rcases List.mem_append.mp hr with hr | hr
  · obtain ⟨c, hc, hr⟩ := run.mem_world_reports hr
    rw [NukeCall.reports] at hr
    rcases List.mem_cons.mp hr with rfl | hr
    · cases hkey
    · rcases List.mem_append.mp hr with hr | hr
      · obtain ⟨res, hres, rfl⟩ := List.mem_map.mp hr
        obtain rfl := Option.some.inj hkey
        exact run.call_confirmed hc (hreplies c hc res hres)
      · cases herr : c.err with
        | none =>
          rw [herr] at hr
          cases hr
        | some e =>
          rw [herr, bareReports] at hr
          obtain ⟨id, hid, rfl⟩ := List.mem_map.mp hr
          obtain rfl := Option.some.inj hkey
          exact run.call_confirmed hc (List.mem_filter.mp hid).1
  · obtain ⟨key', hgone, rfl⟩ := List.mem_map.mp hr
    have hmem := (run.mem_gone_iff.mp hgone).1
    obtain rfl := Option.some.inj hkey
    rwa [selectionKey_of_mem_selectionKeys hmem]

/-- An undisturbed phase closes out every confirmed key. -/
theorem mem_outcomes {selections : List Selection}
    (run : NukeSelected cn account regions (selectionKeys selections) parallelism)
    (hgo : run.world.ctxDone = false) (hwell : ∀ region ∈ regions, WellListed account region)
    (hcontract : ∀ c ∈ nukeCalls (acts run.trace), c.Contract) {key : String}
    (hkey : key ∈ selectionKeys selections) : key ∈ outcomes run.reports := by
  rw [reports, outcomes_append, run.outcomes_gone, List.mem_append]
  by_cases hseen : key ∈ run.world.seen
  · rw [run.seen_eq hgo, List.mem_toFinset] at hseen
    exact .inl ((run.outcomes_perm hgo hwell hcontract).mem_iff.mpr hseen)
  · exact .inr (run.mem_gone_iff.mpr ⟨hkey, hseen⟩)

end NukeSelected

/-! ## The run -/

section

variable {cn : CloudNuke} {isGlobal : String → Bool} {now : Int} {spec : Spec}

theorem Surroundings.closedKeys_rescanned (x : Surroundings cn isGlobal now spec)
    (clock : Nat → Nat) : closedKeys (x.rescanned (.new clock)).written = [] := by
  have hnone : outcomes x.rescan.reports = [] :=
    List.filterMap_eq_nil_iff.mpr x.rescan.reports_outcome
  rw [rescanned, closedKeys_onEvents, hnone, Emitter.phase,
    closedKeys_emit_of_ne _ EventType.noConfusion]
  rfl

theorem Surroundings.closedKeys_deleted (x : Surroundings cn isGlobal now spec)
    (clock : Nat → Nat) :
    closedKeys (x.deleted (.new clock)).written = outcomes x.delete.reports := by
  rw [deleted, closedKeys_onEvents, Emitter.phase, closedKeys_emit_of_ne _ EventType.noConfusion,
    x.closedKeys_rescanned, List.nil_append]

/-- A run closes out nothing, or what its delete phase reports on. -/
theorem closedKeys_run (x : Surroundings cn isGlobal now spec) (clock : Nat → Nat) :
    closedKeys (run x (.new clock)).1.written = [] ∨
      closedKeys (run x (.new clock)).1.written = outcomes x.delete.reports := by
  have hscan := x.closedKeys_rescanned clock
  have hdeleted := x.closedKeys_deleted clock
  unfold run
  split
  · exact .inl hscan
  · split
    · exact .inl hscan
    · split
      · exact .inl ((closedKeys_emit_of_ne _ EventType.noConfusion).trans hscan)
      · split
        · exact .inr hdeleted
        · exact .inr ((closedKeys_emit_of_ne _ EventType.noConfusion).trans hdeleted)

/-- A clean-up that ends well has closed out what its delete phase reports on, and was not
cancelled. -/
theorem closedKeys_run_of_ok {x : Surroundings cn isGlobal now spec} {clock : Nat → Nat}
    (hmode : spec.mode = .nuke) (hok : (run x (.new clock)).2 = .ok ()) :
    x.delete.world.ctxDone = false ∧
      closedKeys (run x (.new clock)).1.written = outcomes x.delete.reports := by
  have hdeleted := x.closedKeys_deleted clock
  have hne : spec.mode ≠ .scan := fun h => absurd (hmode.symm.trans h) (by decide)
  unfold run at hok ⊢
  cases herr : x.rescan.err with
  | some message => simp [herr] at hok
  | none =>
    cases hctx : x.ctxDone with
    | true => simp [herr, hctx] at hok
    | false =>
      cases hafter : x.ctxDoneAfter with
      | true => simp [herr, hctx, hne, hafter] at hok
      | false =>
        simp only [Bool.false_eq_true, if_false, hne]
        refine ⟨?_, (closedKeys_emit_of_ne _ EventType.noConfusion).trans hdeleted⟩
        cases hdone : x.delete.world.ctxDone with
        | false => rfl
        | true => exact absurd ((x.ctxDone_mono hdone).symm.trans hafter) (by decide)

/-- The nukers of a run reply about the identifiers they were given. -/
def Surroundings.RepliesFit (x : Surroundings cn isGlobal now spec) : Prop :=
  ∀ c ∈ nukeCalls (acts x.delete.trace), ∀ r ∈ c.results, r.identifier ∈ c.batch

end

section

variable {cn : CloudNuke} {isGlobal : String → Bool} {now : Int} {spec : Spec}
  (quote : String → String) (clock : Nat → Nat) (x : Surroundings cn isGlobal now spec)

/-- The worker of a spec that was decoded. -/
def Surroundings.worker : Emitter × Nat :=
  runWorker quote clock (.ok spec) fun _ h => Except.ok.inj h ▸ x

/-- A worker closes out what its run does, and exits cleanly only if the run ends well. -/
theorem closedKeys_worker (hvalid : spec.validate = .ok ()) :
    closedKeys (x.worker quote clock).1.written = closedKeys (run x (.new clock)).1.written ∧
      ((x.worker quote clock).2 = 0 → (run x (.new clock)).2 = .ok ()) := by
  unfold Surroundings.worker runWorker
  dsimp only
  rw [hvalid]
  dsimp only
  rcases run x (Emitter.new clock) with ⟨em, (_ | _) | _⟩
  · exact ⟨closedKeys_emit_of_ne _ EventType.noConfusion, fun h => absurd h Nat.one_ne_zero⟩
  · exact ⟨closedKeys_emit_of_ne _ EventType.noConfusion, fun h => absurd h Nat.one_ne_zero⟩
  · exact ⟨rfl, fun _ => rfl⟩

variable {quote clock x}

/-- A worker closes out confirmed keys only, whatever becomes of it. -/
theorem worker_closes (hvalid : spec.validate = .ok ()) (h : x.RepliesFit) {key : String}
    (hkey : key ∈ closedKeys (x.worker quote clock).1.written) :
    key ∈ selectionKeys spec.selections := by
  rw [(closedKeys_worker quote clock x hvalid).1] at hkey
  rcases closedKeys_run x clock with hnone | hdelete
  · rw [hnone] at hkey
    exact absurd hkey List.not_mem_nil
  · rw [hdelete] at hkey
    obtain ⟨r, hr, hout⟩ := List.mem_filterMap.mp hkey
    exact x.delete.outcome_mem h hr hout

/-- A clean-up whose worker exits cleanly has closed out every confirmed key. -/
theorem worker_closes_all (hvalid : spec.validate = .ok ()) (hmode : spec.mode = .nuke)
    (hwell : ∀ region ∈ (buildQuery isGlobal now spec).regions,
      WellListed x.rescan.account region)
    (hcontract : ∀ c ∈ nukeCalls (acts x.delete.trace), c.Contract)
    (hexit : (x.worker quote clock).2 = 0) {key : String}
    (hkey : key ∈ selectionKeys spec.selections) :
    key ∈ closedKeys (x.worker quote clock).1.written := by
  obtain ⟨hsame, hok⟩ := closedKeys_worker quote clock x hvalid
  obtain ⟨hgo, hclosed⟩ := closedKeys_run_of_ok hmode (hok hexit)
  rw [hsame, hclosed]
  exact x.delete.mem_outcomes hgo hwell hcontract hkey

end

end Broom.Engine
