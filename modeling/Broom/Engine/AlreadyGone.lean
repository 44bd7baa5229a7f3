import Broom.Engine.NukeRun

/-!
# Already-gone reports and cancellation

The closing loop of `nukeSelected` runs over everything the walks have not seen,
also when they stopped early at a done context. Its reports are therefore
truthful exactly when no confirmed identifier was left behind.
-/

namespace Broom.Engine

open Broom.Core Broom.Core.Pool

namespace NukeSelected

variable {cn : CloudNuke} {account : Account} {regions : List String}
  {selections : List Selection} {parallelism : Int}

/-- The run reports the resource of a key as gone. -/
def ReportsGone {selected : Finset String}
    (run : NukeSelected cn account regions selected parallelism) (key : String) : Prop :=
  ∃ t g i, .resourceGone t g i ∈ run.reports ∧ selectionKey t g i = key

/-- A resource of a walked region whose turn did not come. -/
def LeftBehind {selected : Finset String}
    (run : NukeSelected cn account regions selected parallelism) (region : String)
    (res : AwsResource) : Prop :=
  region ∈ regions ∧ res ∈ account region ∧ (region, res) ∉ run.reached

/-- Cancellation leaves nothing confirmed behind: a confirmed identifier of a resource
that the cancelled walk did not come to is also listed by one that it did come to. -/
def LeavesNothingConfirmed {selected : Finset String}
    (run : NukeSelected cn account regions selected parallelism) : Prop :=
  ∀ region res, run.LeftBehind region res → ∀ key ∈ confirmedKeys region selected res,
    ∃ p ∈ run.reached, key ∈ p.2.keys p.1

/-- Only a cancelled run leaves resources behind. -/
theorem cancelled_of_leftBehind {selected : Finset String}
    (run : NukeSelected cn account regions selected parallelism) {region : String}
    {res : AwsResource} (h : run.LeftBehind region res) : run.world.ctxDone = true := by
  cases hd : run.world.ctxDone with
  | true => rfl
  | false => exact absurd (run.mem_reached_of_uncancelled hd h.1 h.2.1) h.2.2

/-- The keys reported as gone are those of the closing loop. -/
theorem reportsGone_iff (run : NukeSelected cn account regions (selectionKeys selections)
    parallelism) {key : String} : run.ReportsGone key ↔ key ∈ run.gone := by
  constructor
  · rintro ⟨t, g, i, hr, rfl⟩
    rcases List.mem_append.mp hr with hr | hr
    · exact absurd hr run.not_gone_mem_world_reports
    · obtain ⟨key, hk, he⟩ := List.mem_map.mp hr
      have hkey := selectionKey_of_mem_selectionKeys (run.mem_gone_iff.mp hk).1
      simp only [goneReport, Report.resourceGone.injEq] at he
      obtain ⟨rfl, rfl, rfl⟩ := he
      rwa [hkey]
  · intro hk
    refine ⟨_, _, _, List.mem_append_right _ (List.mem_map_of_mem hk), ?_⟩
    exact selectionKey_of_mem_selectionKeys (run.mem_gone_iff.mp hk).1

/-- What the run has seen is confirmed and listed. -/
theorem mem_listedKeys_of_mem_seen {selected : Finset String}
    (run : NukeSelected cn account regions selected parallelism) {key : String}
    (h : key ∈ run.world.seen) : key ∈ listedKeys account regions := by
  obtain ⟨p, hp, hk⟩ := run.mem_seen_iff.mp h
  obtain ⟨hregion, hres⟩ := run.mem_account_of_mem_reached hp
  refine List.mem_flatMap.mpr ⟨p.1, hregion, List.mem_flatMap.mpr ⟨p.2, hres, ?_⟩⟩
  obtain ⟨id, hid, rfl⟩ := List.mem_map.mp hk
  exact List.mem_map_of_mem (List.mem_filter.mp hid).1

/-- The confirmed keys of a resource are its selected ones. -/
theorem mem_confirmedKeys_iff {selected : Finset String} {region : String} {res : AwsResource}
    {key : String} :
    key ∈ confirmedKeys region selected res ↔ key ∈ res.keys region ∧ key ∈ selected := by
  constructor
  · intro h
    obtain ⟨id, hid, rfl⟩ := List.mem_map.mp h
    obtain ⟨hmem, hsel⟩ := List.mem_filter.mp hid
    exact ⟨List.mem_map_of_mem hmem, of_decide_eq_true hsel⟩
  · rintro ⟨h, hsel⟩
    obtain ⟨id, hid, rfl⟩ := List.mem_map.mp h
    exact List.mem_map_of_mem (List.mem_filter.mpr ⟨hid, decide_eq_true hsel⟩)

/-- Already-gone reports are truthful exactly when cancellation left nothing
confirmed behind. -/
theorem gone_truthful_iff
    (run : NukeSelected cn account regions (selectionKeys selections) parallelism) :
    (∀ key, run.ReportsGone key ↔
      key ∈ selectionKeys selections ∧ key ∉ listedKeys account regions) ↔
    run.LeavesNothingConfirmed := by
  have hreports (key : String) : run.ReportsGone key ↔
      key ∈ selectionKeys selections ∧ key ∉ run.world.seen :=
    run.reportsGone_iff.trans run.mem_gone_iff
  constructor
  · intro h region res hleft key hkey
    obtain ⟨hlisted, hsel⟩ := mem_confirmedKeys_iff.mp hkey
    have hmem : key ∈ listedKeys account regions :=
      List.mem_flatMap.mpr ⟨region, hleft.1, List.mem_flatMap.mpr ⟨res, hleft.2.1, hlisted⟩⟩
    have hseen : key ∈ run.world.seen := by
      by_contra hns
      exact ((h key).mp ((hreports key).mpr ⟨hsel, hns⟩)).2 hmem
    obtain ⟨p, hp, hk⟩ := run.mem_seen_iff.mp hseen
    exact ⟨p, hp, (mem_confirmedKeys_iff.mp hk).1⟩
  · intro h key
    rw [hreports]
    refine and_congr_right fun hsel => not_congr ⟨run.mem_listedKeys_of_mem_seen, fun hmem => ?_⟩
    obtain ⟨region, hregion, hmem⟩ := List.mem_flatMap.mp hmem
    obtain ⟨res, hres, hmem⟩ := List.mem_flatMap.mp hmem
    by_cases hr : (region, res) ∈ run.reached
    · exact run.mem_seen_iff.mpr ⟨_, hr, mem_confirmedKeys_iff.mpr ⟨hmem, hsel⟩⟩
    · obtain ⟨p, hp, hk⟩ := h region res ⟨hregion, hres, hr⟩ key
        (mem_confirmedKeys_iff.mpr ⟨hmem, hsel⟩)
      exact run.mem_seen_iff.mpr ⟨p, hp, mem_confirmedKeys_iff.mpr ⟨hk, hsel⟩⟩

end NukeSelected

/-! ## A cancelled run -/

/-- One listed and confirmed topic. -/
def topic : AwsResource := ⟨"sns-topic", ["a"], 1⟩

/-- A walk that reads a done context returns at once. -/
private theorem exec_cancelled {cn : CloudNuke} {region : String} {res : AwsResource}
    {list : List AwsResource} {selected : Finset String} :
    (nukeRegionSelected cn region (res :: list) selected).Exec [⟨.ctxErr, true⟩]
      ({}, [ctxCanceled]) := by
  simp only [nukeRegionSelected, nukeResources, Prog.exec_bind, exec_ctxErr]
  exact ⟨_, true, [], (List.append_nil _).symm, rfl, Prog.exec_pure.mpr ⟨rfl, rfl⟩⟩

/-- The context is cancelled before the walk comes to the topic. -/
def cancelledRun : NukeSelected CloudNuke.standard (fun _ => [topic]) ["us-east-1"]
    (selectionKeys [⟨"sns-topic", "us-east-1", "a"⟩]) 1 where
  regional := [.env .cancel, .act 0 ⟨.ctxErr, true⟩]
  regionalEnd := ⟨[], [], [(0, {}, [ctxCanceled])]⟩
  regional_run := Run.trans (.step (.env Env.cancel) (.refl _))
    (Run.single Nat.one_pos exec_cancelled)
  regional_complete := rfl
  global := []
  globalEnd := ⟨[], [], []⟩
  global_run := .refl _
  global_complete := rfl
  world := { ctxDone := true }
  world_run := rfl
  gone := [selectionKey "sns-topic" "us-east-1" "a"]
  gone_perm := by simp [selectionKeys, Selection.key]

/-- The topic of the cancelled run exists and is reported as gone. -/
theorem cancelledRun_not_truthful : ¬ ∀ key, cancelledRun.ReportsGone key ↔
    key ∈ selectionKeys [⟨"sns-topic", "us-east-1", "a"⟩] ∧
      key ∉ listedKeys (fun _ => [topic]) ["us-east-1"] := by
  intro h
  have hgone : cancelledRun.ReportsGone (selectionKey "sns-topic" "us-east-1" "a") :=
    cancelledRun.reportsGone_iff.mpr (by simp [cancelledRun])
  exact ((h _).mp hgone).2 (by decide)

end Broom.Engine
