import Broom.Jobs.Brief
import Mathlib.Data.List.DropRight

/-!
# The representation of a job's aggregates

A map of entries and a list of its keys are kept side by side. The list has the keys
of the events in the order of their first occurrence, the map has the fields of the
latest event for each key; for found resources only the events since the last rescan
count. The state, the error and the time of the end are set once.
-/

namespace Broom.Jobs

open Broom.Core Broom.Engine

/-! ## First and latest occurrences -/

/-- The keys of events in the order of their first occurrence. -/
def firstKeys (events : List Event) : List String := (events.map Event.key).reverse.dedup.reverse

/-- The latest event with a key. -/
def latest (key : String) (events : List Event) : Option Event :=
  (events.filter (·.key = key)).getLast?

/-- The event starts a rescan. -/
def isRescan (ev : Event) : Bool := ev.type = .phase ∧ ev.phase = "rescan"

/-- The events after the last start of a rescan. -/
def sinceRescan (events : List Event) : List Event := events.rtakeWhile fun ev => !isRescan ev

/-- The finds that still count. -/
def discoveries (events : List Event) : List Event :=
  (sinceRescan events).filter (·.type = .resourceFound)

/-- The outcomes that were reported. -/
def deletions (events : List Event) : List Event := events.filter (·.type = .resourceDeleted)

theorem mem_firstKeys {key : String} {events : List Event} :
    key ∈ firstKeys events ↔ key ∈ events.map Event.key := by
  simp [firstKeys]

theorem firstKeys_nodup (events : List Event) : (firstKeys events).Nodup :=
  List.nodup_reverse.mpr (List.nodup_dedup _)

/-- One more event adds its key at the end unless it occurred before. -/
theorem firstKeys_append_singleton (events : List Event) (ev : Event) :
    firstKeys (events ++ [ev]) =
      if ev.key ∈ events.map Event.key then firstKeys events
      else firstKeys events ++ [ev.key] := by
  unfold firstKeys
  rw [List.map_append, List.map_singleton, List.reverse_append, List.reverse_singleton,
    List.singleton_append]
  split
  · rename_i h
    rw [List.dedup_cons_of_mem (List.mem_reverse.mpr h)]
  · rename_i h
    rw [List.dedup_cons_of_notMem (List.mem_reverse.not.mpr h), List.reverse_cons]

theorem latest_append_singleton (key : String) (events : List Event) (ev : Event) :
    latest key (events ++ [ev]) = if ev.key = key then some ev else latest key events := by
  unfold latest
  split
  · rename_i h
    simp [h]
  · rename_i h
    simp [h]

/-- A key occurs exactly if it has a latest event. -/
theorem latest_isSome {key : String} {events : List Event} :
    (latest key events).isSome ↔ key ∈ events.map Event.key := by
  simp [latest, List.mem_map]

/-! ## Entries beside their keys -/

/-- Entries filed under the keys of events, and the keys in order. -/
structure Indexes {V : Type} (entry : Event → V) (map : PlainMap String V) (ord : List String)
    (events : List Event) : Prop where
  ord_eq : ord = firstKeys events
  lookup_eq : ∀ key, map.lookup key = (latest key events).map entry

theorem Indexes.empty {V : Type} (entry : Event → V) : Indexes entry ∅ [] [] :=
  ⟨rfl, fun _ => rfl⟩

/-- The keys of the map are those of the events. -/
theorem Indexes.mem_iff {V : Type} {entry : Event → V} {map : PlainMap String V}
    {ord : List String} {events : List Event} (h : Indexes entry map ord events) {key : String} :
    key ∈ map ↔ key ∈ events.map Event.key := by
  rw [← AList.lookup_isSome, h.lookup_eq, Option.isSome_map, latest_isSome]

/-- Filing one more event overwrites its entry, and lists its key if it is new. -/
theorem Indexes.insert {V : Type} {entry : Event → V} {map : PlainMap String V}
    {ord : List String} {events : List Event} (h : Indexes entry map ord events) (ev : Event) :
    Indexes entry (map.insert ev.key (entry ev)) (if ev.key ∈ map then ord else ord ++ [ev.key])
      (events ++ [ev]) := by
  refine ⟨?_, fun key => ?_⟩
  · rw [firstKeys_append_singleton, h.ord_eq]
    exact if_congr h.mem_iff rfl rfl
  · rw [latest_append_singleton]
    by_cases hkey : ev.key = key
    · subst hkey
      rw [AList.lookup_insert, if_pos rfl, Option.map_some]
    · rw [AList.lookup_insert_ne (Ne.symm hkey), if_neg hkey, h.lookup_eq]

/-- The aggregates index the finds that still count and all outcomes. -/
structure Aggregates.Index (a : Aggregates) (events : List Event) : Prop where
  found : Indexes foundOf a.found a.foundOrd (discoveries events)
  results : Indexes resultOf a.results a.resOrd (deletions events)

theorem sinceRescan_append_singleton (events : List Event) (ev : Event) :
    sinceRescan (events ++ [ev]) =
      if isRescan ev then [] else sinceRescan events ++ [ev] := by
  unfold sinceRescan
  split
  · rename_i h
    exact List.rtakeWhile_concat_neg _ _ _ (by simp [h])
  · rename_i h
    exact List.rtakeWhile_concat_pos _ _ _ (by simp [h])

theorem discoveries_append_singleton (events : List Event) (ev : Event) :
    discoveries (events ++ [ev]) =
      if isRescan ev then []
      else if ev.type = .resourceFound then discoveries events ++ [ev] else discoveries events := by
  unfold discoveries
  rw [sinceRescan_append_singleton]
  split
  · rfl
  · rw [List.filter_append]
    split
    · rename_i htype
      simp [htype]
    · rename_i htype
      simp [htype]

theorem deletions_append_singleton (events : List Event) (ev : Event) :
    deletions (events ++ [ev]) =
      if ev.type = .resourceDeleted then deletions events ++ [ev] else deletions events := by
  unfold deletions
  rw [List.filter_append]
  split
  · rename_i htype
    simp [htype]
  · rename_i htype
    simp [htype]

/-- Taking in an event files it, unless it is of another kind, and a rescan forgets the
finds. -/
theorem Aggregates.Index.aggregate {a : Aggregates} {events : List Event} (h : a.Index events)
    (ev : Event) : (aggregate a ev).Index (events ++ [ev]) := by
  have hfound (ht : ev.type ≠ .resourceFound) (hr : isRescan ev = false) :
      discoveries (events ++ [ev]) = discoveries events := by
    rw [discoveries_append_singleton, if_neg (by simp [hr]), if_neg ht]
  have hresults (ht : ev.type ≠ .resourceDeleted) :
      deletions (events ++ [ev]) = deletions events := by
    rw [deletions_append_singleton, if_neg ht]
  have hother (ht : ev.type ≠ .resourceFound) (ht' : ev.type ≠ .resourceDeleted)
      (hr : isRescan ev = false) {b : Aggregates} (hf : b.found = a.found)
      (hfo : b.foundOrd = a.foundOrd) (hres : b.results = a.results)
      (hro : b.resOrd = a.resOrd) : b.Index (events ++ [ev]) := by
    refine ⟨?_, ?_⟩
    · rw [hfound ht hr, hf, hfo]
      exact h.found
    · rw [hresults ht', hres, hro]
      exact h.results
  unfold Jobs.aggregate
  cases htype : ev.type with
  | phase =>
    have hres := hresults (by simp [htype])
    dsimp only
    split
    · rename_i hphase
      have hnone : discoveries (events ++ [ev]) = [] := by
        rw [discoveries_append_singleton, if_pos (by simp [isRescan, htype, hphase])]
      refine ⟨?_, hres ▸ h.results⟩
      rw [hnone]
      exact Indexes.empty foundOf
    · rename_i hphase
      exact hother (by simp [htype]) (by simp [htype]) (by simp [isRescan, hphase]) rfl rfl rfl rfl
  | resourceFound =>
    have hmore : discoveries (events ++ [ev]) = discoveries events ++ [ev] := by
      rw [discoveries_append_singleton, if_neg (by simp [isRescan, htype]), if_pos htype]
    have hres := hresults (by simp [htype])
    exact ⟨hmore ▸ h.found.insert ev, hres ▸ h.results⟩
  | resourceDeleted =>
    have hmore : deletions (events ++ [ev]) = deletions events ++ [ev] := by
      rw [deletions_append_singleton, if_pos htype]
    have hsame := hfound (by simp [htype]) (by simp [isRescan, htype])
    exact ⟨hsame ▸ h.found, hmore ▸ h.results.insert ev⟩
  | log =>
    dsimp only
    split <;>
      exact hother (by simp [htype]) (by simp [htype]) (by simp [isRescan, htype]) rfl rfl rfl rfl
  | _ =>
    exact hother (by simp [htype]) (by simp [htype]) (by simp [isRescan, htype]) rfl rfl rfl rfl

/-- The aggregates of a list of events index it. -/
theorem index_foldl (events : List Event) : (events.foldl aggregate {}).Index events := by
  induction events using List.reverseRecOn with
  | nil => exact ⟨Indexes.empty foundOf, Indexes.empty resultOf⟩
  | append_singleton events ev ih =>
    rw [List.foldl_append]
    exact ih.aggregate ev

/-! ## The end of a job -/

namespace Job

/-- The time of the end is set in a final state and only there. -/
def EndTimed (j : Job) : Prop := j.finishedAt ≠ 0 ↔ j.state.terminal = true

/-- The clock of an operation is not at Go's zero time. -/
def Clocked : JobOp → Prop
  | .setState _ _ now => now ≠ 0
  | _ => True

/-- The state and what goes with its end. -/
def ending (j : Job) : State × String × Nat := (j.state, j.errMsg, j.finishedAt)

/-- Only a transition touches the state and what goes with it. -/
theorem ending_step {j : Job} {op : JobOp} (h : ∀ s errMsg now, op ≠ .setState s errMsg now) :
    (j.step op).ending = j.ending := by
  cases op with
  | publish ev now => exact (congrArg ending (j.body_publish ev now) :)
  | setState s errMsg now => exact absurd rfl (h s errMsg now)
  | subscribe afterSeq => rfl
  | unsubscribe i => exact (congrArg ending (j.body_unsubscribe i) :)
  | receive i => exact (congrArg ending (j.body_receive i) :)
  | install => rfl

/-- A final state, its error and its time stay as they are. -/
theorem ending_step_of_terminal {j : Job} (h : j.state.terminal = true) (op : JobOp) :
    (j.step op).ending = j.ending := by
  cases op with
  | setState s errMsg now =>
    have hset : j.setState s errMsg now = j := by simp [Job.setState, h]
    rw [Job.step, hset]
  | _ => exact ending_step fun _ _ _ => JobOp.noConfusion

theorem ending_run_of_terminal {j : Job} (h : j.state.terminal = true) (ops : List JobOp) :
    (j.run ops).ending = j.ending := by
  induction ops generalizing j with
  | nil => rfl
  | cons op ops ih =>
    have hstep := ending_step_of_terminal h op
    have hstate : (j.step op).state = j.state := congrArg Prod.fst hstep
    exact (ih (hstate ▸ h)).trans hstep

theorem EndTimed.step {j : Job} (h : j.EndTimed) {op : JobOp} (hop : Clocked op) :
    (j.step op).EndTimed := by
  have hsame {op : JobOp} (hend : (j.step op).ending = j.ending) : (j.step op).EndTimed := by
    have hstate : (j.step op).state = j.state := congrArg Prod.fst hend
    have htime : (j.step op).finishedAt = j.finishedAt := congrArg (fun e => e.2.2) hend
    rw [EndTimed, hstate, htime]
    exact h
  cases op with
  | setState s errMsg now =>
    cases hj : j.state.terminal with
    | true => exact hsame (ending_step_of_terminal hj _)
    | false =>
      have hb := congrArg ending (j.body_setState s errMsg now)
      rw [hj] at hb
      have htime : (j.setState s errMsg now).finishedAt =
          if s.terminal then now else j.finishedAt := congrArg (fun e => e.2.2) hb
      have hstate : (j.setState s errMsg now).state = s := congrArg Prod.fst hb
      change (j.setState s errMsg now).EndTimed
      rw [EndTimed, hstate, htime]
      cases hs : s.terminal with
      | true => simpa [Clocked] using hop
      | false =>
        have hzero := (h.not.mpr (by simp [hj]))
        simpa using hzero
  | _ => exact hsame (ending_step fun _ _ _ => JobOp.noConfusion)

theorem EndTimed.run {j : Job} (h : j.EndTimed) {ops : List JobOp} (hops : ∀ op ∈ ops, Clocked op) :
    (j.run ops).EndTimed := by
  induction ops generalizing j with
  | nil => exact h
  | cons op ops ih =>
    exact ih (h.step (hops op (List.mem_cons_self ..))) fun op' hop' =>
      hops op' (List.mem_cons_of_mem _ hop')

end Job

/-- An entry of the found resources has the fields of its event; what is not said to be
protected may be deleted. -/
theorem foundOf_eq : foundOf = fun ev =>
    { resourceType := ev.resourceType, region := ev.region, identifier := ev.identifier,
      nukable := ev.nukable.getD true, reason := ev.reason } := by
  funext ev
  unfold foundOf
  congr 1
  rcases ev.nukable with _ | _ | _ <;> rfl

/-- An entry of the results has the fields of its event; what is not said to be deleted is not. -/
theorem resultOf_eq : resultOf = fun ev =>
    { resourceType := ev.resourceType, region := ev.region, identifier := ev.identifier,
      success := ev.success.getD false, warning := ev.warning, error := ev.error,
      note := ev.note } := by
  funext ev
  unfold resultOf
  congr 1
  rcases ev.success with _ | _ | _ <;> rfl

/-- What the aggregates and the lifecycle fields of a job stand for, after any
operations. -/
theorem representation_holds (id sessionId accountId : String) (spec : Spec) (now : Nat)
    {ops : List JobOp} (hclock : ∀ op ∈ ops, Job.Clocked op) :
    let j := (newJob id sessionId accountId spec now).run ops
    j.events = stamped 0 ops ∧
    (j.seq = j.events.length ∧ ∀ i ev, j.events[i]? = some ev → ev.seq = i + 1) ∧
    (j.foundOrd = firstKeys (discoveries j.events) ∧ j.foundOrd.Nodup ∧
      ∀ key, key ∈ j.foundOrd ↔ key ∈ j.found) ∧
    (j.resOrd = firstKeys (deletions j.events) ∧ j.resOrd.Nodup ∧
      ∀ key, key ∈ j.resOrd ↔ key ∈ j.results) ∧
    (∀ key, j.found.lookup key = (latest key (discoveries j.events)).map fun ev =>
      { resourceType := ev.resourceType, region := ev.region, identifier := ev.identifier,
        nukable := ev.nukable.getD true, reason := ev.reason }) ∧
    (∀ key, j.results.lookup key = (latest key (deletions j.events)).map fun ev =>
      { resourceType := ev.resourceType, region := ev.region, identifier := ev.identifier,
        success := ev.success.getD false, warning := ev.warning, error := ev.error,
        note := ev.note }) ∧
    (∃ s, j.snapshot = some s ∧ s.found.length = j.brief.found) ∧
    (j.finishedAt ≠ 0 ↔ j.state.terminal = true) ∧
    (j.state.terminal = true → ∀ more, (j.run more).state = j.state ∧
      (j.run more).errMsg = j.errMsg ∧ (j.run more).finishedAt = j.finishedAt) := by
  intro j
  have hcons : j.Consistent := ((newJob_consistent id sessionId accountId spec now).run ops).1
  have hagg : j.Aggregated := (newJob_aggregated id sessionId accountId spec now).run ops
  have hindex : j.toAggregates.Index j.events := by
    rw [hagg]
    exact index_foldl j.events
  have htimed : j.EndTimed :=
    Job.EndTimed.run (by simp [Job.EndTimed, newJob, State.terminal]) hclock
  refine ⟨Job.log_run _ ops, ⟨hcons.seq_eq, hcons.numbered⟩,
    ⟨hindex.found.ord_eq, ?_, fun key => ?_⟩, ⟨hindex.results.ord_eq, ?_, fun key => ?_⟩,
    fun key => ?_, fun key => ?_, ?_, htimed, fun hterm more => ?_⟩
  · rw [hindex.found.ord_eq]
    exact firstKeys_nodup _
  · rw [hindex.found.mem_iff, hindex.found.ord_eq, mem_firstKeys]
  · rw [hindex.results.ord_eq]
    exact firstKeys_nodup _
  · rw [hindex.results.mem_iff, hindex.results.ord_eq, mem_firstKeys]
  · rw [hindex.found.lookup_eq, foundOf_eq]
  · rw [hindex.results.lookup_eq, resultOf_eq]
  · obtain ⟨s, hs, -⟩ := hcons.snapshot
    refine ⟨s, hs, ?_⟩
    rw [Job.brief_of_snapshot hcons hs]
  · have hend := Job.ending_run_of_terminal hterm more
    exact ⟨congrArg Prod.fst hend, congrArg (fun e => e.2.1) hend, congrArg (fun e => e.2.2) hend⟩

/-- A topic that was found or deleted. -/
private def topicEvent (type : EventType) (id note : String) (flag : Option Bool) : Event where
  type := type
  resourceType := "sns-topic"
  region := "us-east-1"
  identifier := id
  nukable := flag
  success := flag
  reason := note
  note := note

/-- A clean-up that finds a topic twice after its rescan, deletes it and ends. -/
private def topicOps : List JobOp :=
  [.setState .running "" 2, .publish (topicEvent .resourceFound "a" "" none) 3,
    .publish { type := .phase, phase := "rescan" } 4,
    .publish (topicEvent .resourceFound "b" "" none) 5,
    .publish (topicEvent .resourceFound "b" "in use" (some false)) 6,
    .publish (topicEvent .resourceDeleted "b" "at last" (some true)) 7,
    .setState .succeeded "" 8]

/-- The entries of the topic are from the latest events about it. -/
theorem representation_holds_nuke :
    let j := (newJob "j" "s" "1" ⟨.nuke, ["us-east-1"], ["sns-topic"], none, "", [], 0⟩ 1).run
      topicOps
    j.foundOrd = [selectionKey "sns-topic" "us-east-1" "b"] ∧
    j.found.lookup (selectionKey "sns-topic" "us-east-1" "b") =
      some ⟨"sns-topic", "us-east-1", "b", false, "in use"⟩ ∧
    j.results.lookup (selectionKey "sns-topic" "us-east-1" "b") =
      some ⟨"sns-topic", "us-east-1", "b", true, false, "", "at last"⟩ := by
  have hclock : ∀ op ∈ topicOps, Job.Clocked op := by
    simp [Job.Clocked, topicOps]
  obtain ⟨-, -, hfound, -, hentry, hresult, -⟩ := representation_holds "j" "s" "1"
    ⟨.nuke, ["us-east-1"], ["sns-topic"], none, "", [], 0⟩ 1 hclock
  refine ⟨hfound.1.trans (by decide +kernel), (hentry _).trans (by decide +kernel),
    (hresult _).trans (by decide +kernel)⟩

end Broom.Jobs
