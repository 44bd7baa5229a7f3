import Broom.Engine.Closes
import Broom.Jobs.Tallies

/-!
# A job at any moment

What a job has recorded while its worker lives, and afterwards, is what the worker has
written, or its log. An outcome is shown for the keys whose end was recorded, each once.
-/

namespace Broom.Jobs

open Broom.Core Broom.Core.Pool Broom.Engine

/-! ## The outcomes -/

theorem View.results_apply (v : View) (ev : Event) : (v.apply ev).results =
    if ev.type = .resourceDeleted then v.results.set (resultOf ev).key (resultOf ev)
    else v.results := by
  unfold View.apply
  cases ev.type with
  | phase =>
    dsimp only
    split <;> rfl
  | _ => rfl

/-- An outcome is shown for the keys whose end was recorded. -/
theorem mem_results_keys {events : List Event} {key : String} :
    key ∈ (viewOf events).results.keys ↔ key ∈ closedKeys events := by
  induction events using List.reverseRecOn with
  | nil => exact Iff.rfl
  | append_singleton events ev ih =>
    rw [viewOf_append, List.foldl_cons, List.foldl_nil, View.results_apply, closedKeys_append,
      List.mem_append]
    split
    · rename_i htype
      have hlast : closedKeys [ev] = [(resultOf ev).key] := by
        simp only [closedKeys, List.filter_cons, htype, decide_true, if_true]
        rfl
      rw [OrderedMap.keys_set, hlast, List.mem_singleton, ← ih]
      split
      · exact ⟨.inl, fun h => h.elim id fun heq => heq ▸ ‹_›⟩
      · rw [List.mem_append, List.mem_singleton]
    · rename_i htype
      have hnone : closedKeys [ev] = [] := by simp [closedKeys, htype]
      rw [hnone, ← ih]
      exact (or_iff_left List.not_mem_nil).symm

/-- The keys of the shown outcomes. -/
theorem results_values_keys (events : List Event) :
    (viewOf events).results.values.map DeleteResult.key = (viewOf events).results.keys := by
  rw [OrderedMap.values, OrderedMap.keys, List.map_map]
  exact List.map_congr_left (viewOf_keyed events).results

/-! ## The moments -/

namespace Supervised

variable {wire : Wire} {stdout stderr : List UInt8} {j : Job}

/-- The job at a moment of its worker's life, or at any time after it. -/
inductive Moment (x : Supervised wire stdout stderr j) : Job → Prop
  | during {τ : List LifeStep} (h : τ <+: x.trace) : x.Moment (τ.foldl Job.live j)
  | after (ops : List SilentOp) : x.Moment (x.result.run (ops.map SilentOp.op))

end Supervised

/-- Steps of a worker's life are operations on the job. -/
theorem Job.exists_run_live (j : Job) (τ : List LifeStep) :
    ∃ ops, τ.foldl Job.live j = j.run ops := by
  induction τ generalizing j with
  | nil => exact ⟨[], rfl⟩
  | cons l τ ih =>
    obtain ⟨ops, hops⟩ := ih (j.live l)
    rcases l with e | ⟨i, ⟨ev⟩, now⟩
    · exact ⟨e.op :: ops, hops⟩
    · exact ⟨.publish ev now :: ops, hops⟩

/-- Operations that publish nothing record nothing. -/
theorem Job.events_silent (j : Job) (ops : List SilentOp) :
    (j.run (ops.map SilentOp.op)).events.map content = j.events.map content := by
  induction ops generalizing j with
  | nil => rfl
  | cons e ops ih =>
    have hstep := (j.events_live (.env e)).trans (List.append_nil _)
    exact (ih (j.step e.op)).trans hstep

namespace Supervised

variable {wire : Wire} {stdout stderr : List UInt8} {j : Job}
  {x : Supervised wire stdout stderr j}

/-- At every moment the job is a run of the job it started as. -/
theorem Moment.exists_run {job : Job} (h : x.Moment job) : ∃ ops, job = j.run ops := by
  cases h with
  | during => exact j.exists_run_live _
  | after ops =>
    obtain ⟨before, hbefore⟩ := x.exists_run
    exact ⟨before ++ ops.map SilentOp.op, by rw [hbefore, Job.run_append]⟩

theorem events_result (x : Supervised wire stdout stderr j) :
    x.result.events.map content = (x.trace.foldl Job.live j).events.map content :=
  congrArg (List.map content) (x.read.setState_same ..).2.1

/-- At every moment all that has been recorded is a log line or was published by the event
reader. -/
theorem Moment.log_or_published (hj : j.events = []) {job : Job} (h : x.Moment job) {ev : Event}
    (hev : ev ∈ job.events) : ev.type = .log ∨ ∃ ev' ∈ x.published, content ev' = content ev := by
  -- what was recorded at a moment is what a part of the trace has published
  obtain ⟨τ, hτ, hjob⟩ : ∃ τ, τ <+: x.trace ∧
      job.events.map content = (τ.foldl Job.live j).events.map content := by
    cases h with
    | during h => exact ⟨_, h, rfl⟩
    | after ops => exact ⟨x.trace, List.prefix_rfl, (Job.events_silent ..).trans x.events_result⟩
  rw [Job.events_foldl_live, hj, List.map_nil, List.nil_append] at hjob
  obtain ⟨a, ha, hcontent⟩ := List.mem_map.mp (hjob ▸ List.mem_map_of_mem (f := content) hev)
  obtain ⟨i, hact⟩ := mem_acts.mp ha
  rcases x.log_of_mem_trace (hτ.subset hact) with rfl | hlog
  · refine .inr ⟨a.1.event, List.mem_map_of_mem ?_, hcontent⟩
    exact mem_project.mpr (hτ.subset hact)
  · exact .inl ((congrArg Event.type hcontent.symm).trans hlog)

theorem mem_closedKeys_of_content {events : List Event} {ev ev' : Event} (hev : ev ∈ events)
    (hcontent : content ev = content ev') (htype : ev'.type = .resourceDeleted) :
    ev'.key ∈ closedKeys events :=
  mem_closedKeys.mpr ⟨ev, hev, (congrArg Event.type hcontent :).trans htype,
    (congrArg Event.key hcontent :)⟩

/-- At every moment the recorded ends were published. -/
theorem Moment.closedKeys (hj : j.events = []) {job : Job} (h : x.Moment job) {key : String}
    (hkey : key ∈ closedKeys job.events) : key ∈ Engine.closedKeys x.published := by
  obtain ⟨ev, hev, htype, rfl⟩ := mem_closedKeys.mp hkey
  rcases h.log_or_published hj hev with hlog | ⟨ev', hev', hcontent⟩
  · exact absurd (htype.symm.trans hlog) (by decide)
  · exact mem_closedKeys_of_content hev' hcontent htype

/-- When the worker's life is over, the published ends are recorded. -/
theorem closedKeys_after (ops : List SilentOp) {key : String}
    (hkey : key ∈ Engine.closedKeys x.published) :
    key ∈ Engine.closedKeys (x.result.run (ops.map SilentOp.op)).events := by
  obtain ⟨ev, hev, htype, rfl⟩ := mem_closedKeys.mp hkey
  have hmem := x.published_sublist.subset (List.mem_map_of_mem (f := content) hev)
  rw [← Job.events_silent _ ops] at hmem
  obtain ⟨ev', hev', hcontent⟩ := List.mem_map.mp hmem
  exact mem_closedKeys_of_content hev' hcontent htype

end Supervised

end Broom.Jobs
