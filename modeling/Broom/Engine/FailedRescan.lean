import Broom.Engine.Run

/-!
# Failed listings and deletions

A listing that fails in the rescan leaves its confirmed identifiers unseen, and the
closing loop reports what is unseen as gone. A run is therefore truthful about
failed listings exactly when it does not come to its delete phase, or nothing
confirmed belongs to them.
-/

namespace Broom.Engine

open Broom.Core

/-- The log says that a selection was deleted. -/
def ReportedDeleted (log : List Event) (s : Selection) : Prop :=
  ∃ ev ∈ log, ev.type = .resourceDeleted ∧ ev.success = some true ∧
    (⟨ev.resourceType, ev.region, ev.identifier⟩ : Selection) = s

/-- The report says that a selection was deleted. -/
def Report.Deletes (s : Selection) (r : Report) : Prop :=
  ∃ ev, r.event = some ev ∧ ReportedDeleted [ev] s

@[simp] theorem not_reportedDeleted_nil (s : Selection) : ¬ ReportedDeleted [] s := by
  simp [ReportedDeleted]

@[simp] theorem reportedDeleted_append {log log' : List Event} {s : Selection} :
    ReportedDeleted (log ++ log') s ↔ ReportedDeleted log s ∨ ReportedDeleted log' s := by
  simp only [ReportedDeleted, List.mem_append, or_and_right, exists_or]

/-- An emission says of a selection what its event says. -/
theorem reportedDeleted_emit {em : Emitter} {ev : Event} {s : Selection} :
    ReportedDeleted (em.emit ev).written s ↔
      ReportedDeleted em.written s ∨ ReportedDeleted [ev] s := by
  rw [Emitter.emit, reportedDeleted_append]
  simp [ReportedDeleted]

/-- An event of another kind deletes nothing. -/
theorem reportedDeleted_emit_of_ne {em : Emitter} {ev : Event} {s : Selection}
    (h : ev.type ≠ .resourceDeleted) :
    ReportedDeleted (em.emit ev).written s ↔ ReportedDeleted em.written s := by
  refine reportedDeleted_emit.trans (or_iff_left ?_)
  rintro ⟨ev', hev, ht, -⟩
  obtain rfl := List.mem_singleton.mp hev
  exact h ht

/-- The log of an emitter says what its reports say. -/
theorem reportedDeleted_onEvents {em : Emitter} {rs : List Report} {s : Selection} :
    ReportedDeleted (em.onEvents rs).written s ↔
      ReportedDeleted em.written s ∨ ∃ r ∈ rs, r.Deletes s := by
  induction rs generalizing em with
  | nil => simp [Emitter.onEvents]
  | cons r rs ih =>
    have hr : ReportedDeleted (em.onEvent r).written s ↔
        ReportedDeleted em.written s ∨ r.Deletes s := by
      unfold Emitter.onEvent Report.Deletes
      cases r.event <;> simp [reportedDeleted_emit]
    rw [Emitter.onEvents, List.foldl_cons, ← Emitter.onEvents, ih, hr, or_assoc]
    simp

/-- A report that closes out nothing deletes nothing. -/
theorem Report.not_deletes {r : Report} (h : r.outcome = none) (s : Selection) :
    ¬ r.Deletes s := by
  rintro ⟨ev, hev, hs⟩
  cases r with
  | resourceDeleted => simp [Report.outcome] at h
  | resourceGone => simp [Report.outcome] at h
  | lifecycle => simp [Report.event] at hev
  | _ =>
    obtain rfl := Option.some.inj hev
    simp [ReportedDeleted] at hs

/-- A gone report deletes its triple. -/
theorem Report.deletes_gone (t g i : String) : (Report.resourceGone t g i).Deletes ⟨t, g, i⟩ :=
  ⟨_, rfl, _, List.mem_singleton_self _, rfl, rfl, rfl⟩

section run

variable {cn : CloudNuke} {isGlobal : String → Bool} {now : Int} {spec : Spec}

/-- The run comes to its delete phase. -/
def Surroundings.DeletePhase (x : Surroundings cn isGlobal now spec) : Prop :=
  x.rescan.err = none ∧ x.ctxDone = false ∧ spec.mode ≠ .scan

/-- The rescan's log deletes nothing. -/
theorem Surroundings.not_reportedDeleted_rescanned (x : Surroundings cn isGlobal now spec)
    (clock : Nat → Nat) (s : Selection) :
    ¬ ReportedDeleted (x.rescanned (Emitter.new clock)).written s := by
  rw [rescanned, Emitter.phase, reportedDeleted_onEvents,
    reportedDeleted_emit_of_ne EventType.noConfusion]
  rintro (h | ⟨r, hr, h⟩)
  · exact not_reportedDeleted_nil s h
  · exact r.not_deletes (x.rescan.reports_outcome r hr) s h

/-- The log of a run that comes to its delete phase says what that phase reports. -/
theorem reportedDeleted_run_iff {x : Surroundings cn isGlobal now spec} (h : x.DeletePhase)
    {clock : Nat → Nat} {s : Selection} :
    ReportedDeleted (run x (Emitter.new clock)).1.written s ↔
      ∃ r ∈ x.delete.reports, r.Deletes s := by
  have hdeleted : ReportedDeleted (x.deleted (Emitter.new clock)).written s ↔
      ∃ r ∈ x.delete.reports, r.Deletes s := by
    rw [Surroundings.deleted, reportedDeleted_onEvents, Emitter.phase,
      reportedDeleted_emit_of_ne EventType.noConfusion]
    exact or_iff_right (x.not_reportedDeleted_rescanned clock s)
  rw [run, h.1, ← hdeleted]
  simp only [h.2.1, h.2.2, if_false, Bool.false_eq_true]
  split
  · rfl
  · exact reportedDeleted_emit_of_ne EventType.noConfusion

/-- The log of a run that does not come to its delete phase deletes nothing. -/
theorem not_reportedDeleted_run {x : Surroundings cn isGlobal now spec} (h : ¬ x.DeletePhase)
    (clock : Nat → Nat) (s : Selection) :
    ¬ ReportedDeleted (run x (Emitter.new clock)).1.written s := by
  have hscan := x.not_reportedDeleted_rescanned clock s
  unfold run
  cases herr : x.rescan.err with
  | some message => exact hscan
  | none =>
    cases hctx : x.ctxDone with
    | true => exact hscan
    | false =>
      have hmode : spec.mode = .scan := by
        by_contra hne
        exact h ⟨herr, hctx, hne⟩
      simp only [Bool.false_eq_true, if_false, hmode, if_true]
      rw [Emitter.summaryEvent, reportedDeleted_emit_of_ne EventType.noConfusion]
      exact hscan

/-- The walk has not seen a confirmed selection whose listing failed. -/
theorem Surroundings.key_not_mem_seen (x : Surroundings cn isGlobal now spec) {s : Selection}
    (hf : (s.resourceType, s.region) ∈ x.rescan.failed) : s.key ∉ x.delete.world.seen := by
  intro hseen
  obtain ⟨⟨region, res⟩, hp, hk⟩ := x.delete.mem_seen_iff.mp hseen
  obtain ⟨hregion, hres⟩ := x.delete.mem_account_of_mem_reached hp
  obtain ⟨id, -, he⟩ := List.mem_map.mp hk
  have hnul := x.rescan.failed_nulFree _ hf
  obtain ⟨ht, hg, -⟩ := selectionKey_inj (x.rescan.types_nulFree region res hres)
    (x.rescan.regions_nulFree region hregion) hnul.1 hnul.2 he
  subst hg
  exact x.rescan.failed_left_out _ hf res hres ht

/-- A run in its delete phase reports every confirmed selection whose listing failed
as deleted. -/
theorem reportedDeleted_of_failed {x : Surroundings cn isGlobal now spec} (h : x.DeletePhase)
    (clock : Nat → Nat) {s : Selection} (hs : s ∈ spec.selections)
    (hf : (s.resourceType, s.region) ∈ x.rescan.failed) :
    ReportedDeleted (run x (Emitter.new clock)).1.written s := by
  have hsel : s.key ∈ selectionKeys spec.selections :=
    List.mem_toFinset.mpr (List.mem_map_of_mem hs)
  have hgone : s.key ∈ x.delete.gone := x.delete.mem_gone_iff.mpr ⟨hsel, x.key_not_mem_seen hf⟩
  have hnul := x.rescan.failed_nulFree _ hf
  have hreport : goneReport s.key = .resourceGone s.resourceType s.region s.identifier := by
    rw [goneReport, Selection.key, splitKey_selectionKey _ hnul.1 hnul.2]
  refine (reportedDeleted_run_iff h).mpr ⟨goneReport s.key, ?_, ?_⟩
  · exact List.mem_append_right _ (List.mem_map_of_mem hgone)
  · rw [hreport]
    exact Report.deletes_gone ..

/-- A run mistakes no failed listing for a deletion exactly when it does not come to
its delete phase or nothing confirmed belongs to a failed listing. -/
theorem failed_not_deleted_iff (x : Surroundings cn isGlobal now spec) (clock : Nat → Nat) :
    (∀ s ∈ spec.selections, (s.resourceType, s.region) ∈ x.rescan.failed →
      ¬ ReportedDeleted (run x (Emitter.new clock)).1.written s) ↔
    (x.DeletePhase → ∀ s ∈ spec.selections, (s.resourceType, s.region) ∉ x.rescan.failed) := by
  constructor
  · intro h hphase s hs hf
    exact h s hs hf (reportedDeleted_of_failed hphase clock hs hf)
  · intro h s hs hf
    exact not_reportedDeleted_run (fun hphase => h hphase s hs hf) clock s

end run

/-! ## A throttled listing -/

/-- Delete one confirmed topic. -/
private def topicSpec : Spec where
  mode := .nuke
  regions := ["us-east-1"]
  resourceTypes := ["sns-topic"]
  selections := [⟨"sns-topic", "us-east-1", "a"⟩]

/-- The rescan cannot list the topics and says so. -/
private def throttledRescan : Rescan ["us-east-1"] where
  reports := [.generalError "sns-topic" "unable to retrieve" "Throttling: rate exceeded"]
  account := fun _ => []
  failed := {("sns-topic", "us-east-1")}
  reports_outcome := by decide
  failed_reported := by simp
  failed_left_out := by simp
  failed_nulFree := by decide
  regions_nulFree := by decide
  types_nulFree := by simp

/-- Nothing cancels the run. -/
noncomputable def throttledRun : Surroundings CloudNuke.standard (fun _ => false) 0 topicSpec where
  rescan := throttledRescan
  ctxDone := false
  delete := NukeSelected.inOrder _ _ _ _ _ fun _ _ _ => ([], none)
  ctxDoneAfter := false
  ctxDone_mono h := by rwa [NukeSelected.inOrder_uncancelled] at h

/-- The topic that could not be listed is reported as deleted. -/
theorem throttledRun_mistaken : ¬ ∀ s ∈ topicSpec.selections,
    (s.resourceType, s.region) ∈ throttledRun.rescan.failed →
      ¬ ReportedDeleted (run throttledRun (Emitter.new id)).1.written s := by
  intro h
  have hs : (⟨"sns-topic", "us-east-1", "a"⟩ : Selection) ∈ topicSpec.selections :=
    List.mem_singleton_self _
  have hf : ("sns-topic", "us-east-1") ∈ throttledRun.rescan.failed := Finset.mem_singleton_self _
  exact h _ hs hf (reportedDeleted_of_failed ⟨rfl, rfl, by decide⟩ id hs hf)

end Broom.Engine
