import Broom.Jobs.View
import Broom.Web.Reducer

/-!
# Browser and server agree

The reducer refines the same view that the server's aggregates keep: each first
delivery applies its event, each replay is skipped, and rebuilding the maps between
batches loses nothing. So a page that joins at any snapshot ends up showing what the
last snapshot shows.
-/

namespace Broom.Web

open Broom.Core Broom.Engine Broom.Jobs

/-! ## The reducer's loop -/

/-- The wire keeps the keys of resources and outcomes. -/
theorem key_encodeFound (f : Jobs.FoundResource) : (encodeFound f).key = f.key := rfl

theorem key_encodeResult (r : Jobs.DeleteResult) : (encodeResult r).key = r.key := rfl

/-- The page's job shows a view, up to an event number. -/
structure Job.Shows (job : Job) (v : View) (n : Nat) : Prop where
  found : job.found = v.found.values.map encodeFound
  results : job.results = v.results.values.map encodeResult
  errors : job.errors = v.errors.map encodeError
  phase : job.phase = omitEmpty v.phase
  summary : job.summary = v.summary
  lastSeq : job.lastSeq = n

/-- The loop's variables stand for a view, up to an event number. -/
structure Loop.Shows (st : Loop) (v : View) (n : Nat) : Prop where
  found : st.found = v.found.mapValues encodeFound
  results : st.results = v.results.mapValues encodeResult
  errors : st.next.errors = v.errors.map encodeError
  phase : st.next.phase = omitEmpty v.phase
  summary : st.next.summary = v.summary
  lastSeq : st.next.lastSeq = n
  found_clean : st.foundDirty = false → st.next.found = st.found.values
  results_clean : st.resultsDirty = false → st.next.results = st.results.values

/-- The maps of a batch are rebuilt from the lists of the job. -/
theorem Job.Shows.start {job : Job} {v : View} {n : Nat} (h : job.Shows v n) (hv : v.Keyed)
    (scanned : Finset String) : (Loop.start job scanned).Shows v n := by
  have hfound : OrderedMap.ofValues FoundResource.key job.found =
      v.found.mapValues encodeFound := by
    rw [h.found, ← OrderedMap.values_mapValues]
    exact OrderedMap.ofValues_values (hv.found.mapValues key_encodeFound)
  have hresults : OrderedMap.ofValues DeleteResult.key job.results =
      v.results.mapValues encodeResult := by
    rw [h.results, ← OrderedMap.values_mapValues]
    exact OrderedMap.ofValues_values (hv.results.mapValues key_encodeResult)
  refine ⟨hfound, hresults, h.errors, h.phase, h.summary, h.lastSeq, fun _ => ?_, fun _ => ?_⟩
  · rw [Loop.start, hfound, OrderedMap.values_mapValues]
    exact h.found
  · rw [Loop.start, hresults, OrderedMap.values_mapValues]
    exact h.results

/-- The lists of the job are written back from the maps of the batch. -/
theorem Loop.Shows.finish {st : Loop} {v : View} {n : Nat} (h : st.Shows v n) :
    st.finish.Shows v n := by
  refine ⟨?_, ?_, h.errors, h.phase, h.summary, h.lastSeq⟩
  · have hvalues : st.finish.found = st.found.values := by
      cases hd : st.foundDirty with
      | true => simp [Loop.finish, hd]
      | false => simpa [Loop.finish, hd] using h.found_clean hd
    rw [hvalues, h.found, OrderedMap.values_mapValues]
  · have hvalues : st.finish.results = st.results.values := by
      cases hd : st.resultsDirty with
      | true => simp [Loop.finish, hd]
      | false => simpa [Loop.finish, hd] using h.results_clean hd
    rw [hvalues, h.results, OrderedMap.values_mapValues]

/-- An event that was seen before is skipped. -/
theorem Loop.Shows.replay {st : Loop} {v : View} {n : Nat} (h : st.Shows v n) {ev : Event}
    (hseq : ev.seq ≤ n) : applyEvent st (encodeEvent ev) = st :=
  if_pos (h.lastSeq ▸ hseq)

/-- The next event is applied as the view applies it. -/
theorem Loop.Shows.next {st : Loop} {v : View} {n : Nat} (h : st.Shows v n) {ev : Event}
    (hseq : ev.seq = n + 1) : (applyEvent st (encodeEvent ev)).Shows (v.apply ev) (n + 1) := by
  have hfresh : ¬ (encodeEvent ev).seq ≤ st.next.lastSeq := by
    rw [h.lastSeq, Nat.not_le]
    exact Nat.lt_of_lt_of_eq (Nat.lt_succ_self n) hseq.symm
  rw [applyEvent, if_neg hfresh]
  unfold View.apply
  simp only [encodeEvent, getD_omitEmpty]
  cases ev.type with
  | phase =>
    simp only [omitEmpty_eq_some (by decide : "rescan" ≠ "")]
    split
    · exact ⟨rfl, h.results, rfl, rfl, h.summary, hseq, fun hd => by simp at hd, h.results_clean⟩
    · exact ⟨h.found, h.results, h.errors, rfl, h.summary, hseq, h.found_clean, h.results_clean⟩
  | resourceFound =>
    have hnukable : ev.nukable.getD true = decide (ev.nukable = none ∨ ev.nukable = some true) := by
      rcases ev.nukable with _ | _ | _ <;> rfl
    refine ⟨?_, h.results, h.errors, h.phase, h.summary, hseq, fun hd => by simp at hd,
      h.results_clean⟩
    rw [OrderedMap.mapValues_set, ← h.found]
    simp only [hnukable]
    rfl
  | generalError =>
    refine ⟨h.found, h.results, ?_, h.phase, h.summary, hseq, h.found_clean, h.results_clean⟩
    rw [List.map_append, ← h.errors]
    rfl
  | resourceDeleted =>
    have hsuccess : ev.success.getD false = decide (ev.success = some true) := by
      rcases ev.success with _ | _ | _ <;> rfl
    refine ⟨h.found, ?_, h.errors, h.phase, h.summary, hseq, h.found_clean,
      fun hd => by simp at hd⟩
    rw [OrderedMap.mapValues_set, ← h.results]
    simp only [hsuccess]
    rfl
  | summary => exact ⟨h.found, h.results, h.errors, h.phase, rfl, hseq, h.found_clean,
      h.results_clean⟩
  | _ => exact ⟨h.found, h.results, h.errors, h.phase, h.summary, hseq, h.found_clean,
      h.results_clean⟩

/-! ## Deliveries -/

/-- A delivery of the recorded events from one position to another: each event is the
next one, or one that came before. -/
inductive Delivered (events : List Event) : Nat → List Event → Nat → Prop
  | done (k) : Delivered events k [] k
  | next {k ev rest n} : events[k]? = some ev → Delivered events (k + 1) rest n →
      Delivered events k (ev :: rest) n
  | replay {i k ev rest n} : i < k → events[i]? = some ev → Delivered events k rest n →
      Delivered events k (ev :: rest) n

/-- A delivery may be cut anywhere. -/
theorem Delivered.split {events : List Event} {k n : Nat} {ds ds' : List Event}
    (h : Delivered events k (ds ++ ds') n) :
    ∃ m, Delivered events k ds m ∧ Delivered events m ds' n := by
  induction ds generalizing k with
  | nil => exact ⟨k, .done k, h⟩
  | cons ev ds ih =>
    cases h with
    | next hev h =>
      obtain ⟨m, h₁, h₂⟩ := ih h
      exact ⟨m, .next hev h₁, h₂⟩
    | replay hi hev h =>
      obtain ⟨m, h₁, h₂⟩ := ih h
      exact ⟨m, .replay hi hev h₁, h₂⟩

/-- A delivery that ends at some position leaves the view of the events up to there. -/
theorem Loop.Shows.delivered {events : List Event}
    (hnum : ∀ i ev, events[i]? = some ev → ev.seq = i + 1) {st : Loop} {k n : Nat}
    {ds : List Event} (h : st.Shows (viewOf (events.take k)) k)
    (hd : Delivered events k ds n) :
    ((ds.map encodeEvent).foldl applyEvent st).Shows (viewOf (events.take n)) n := by
  induction hd generalizing st with
  | done k => exact h
  | @next k ev rest n hev _ ih =>
    have hstep := h.next (hnum k ev hev)
    have hview : (viewOf (events.take k)).apply ev = viewOf (events.take (k + 1)) := by
      rw [List.take_add_one, hev, viewOf_append]
      rfl
    rw [hview] at hstep
    exact ih hstep
  | @replay i k ev rest n hi hev _ ih =>
    rw [List.map_cons, List.foldl_cons, h.replay (hnum i ev hev ▸ hi)]
    exact ih h

/-- Several batches that together are a delivery leave the view of its end. -/
theorem Job.Shows.batches {events : List Event}
    (hnum : ∀ i ev, events[i]? = some ev → ev.seq = i + 1) {batches : List (List Event)}
    {job : Job} {k n : Nat} (h : job.Shows (viewOf (events.take k)) k)
    (hd : Delivered events k batches.flatten n) (scanned : Finset String) :
    (applyBatches job scanned (batches.map (List.map encodeEvent))).1.Shows
      (viewOf (events.take n)) n := by
  induction batches generalizing job scanned k with
  | nil =>
    cases hd
    exact h
  | cons batch batches ih =>
    obtain ⟨m, h₁, h₂⟩ := Delivered.split hd
    exact ih ((h.start (viewOf_keyed _) scanned).delivered hnum h₁).finish h₂ _

/-! ## Agreement -/

/-- The encoded snapshot of a consistent job shows the view of its events. -/
theorem shows_encodeSnapshot (wf : WireFormat) {j : Jobs.Job} (h : j.Consistent) :
    ∃ s, j.snapshot = some s ∧ (encodeSnapshot wf s).Shows (viewOf j.events) j.events.length := by
  obtain ⟨s, hs, hfound, hresults, herrors, hsummary, hphase, hseq⟩ := h.snapshot
  exact ⟨s, hs, by simp [encodeSnapshot, hfound], by simp [encodeSnapshot, hresults],
    by simp [encodeSnapshot, herrors], by simp [encodeSnapshot, hphase],
    by simp [encodeSnapshot, hsummary], by simp [encodeSnapshot, hseq]⟩

/-- What a page shows of a run. -/
structure Shown where
  found : List FoundResource
  results : List DeleteResult
  errors : List GeneralError
  summary : Option Summary
  phase : Option String
  lastSeq : Nat
  deriving DecidableEq, Repr

def Job.shown (job : Job) : Shown :=
  ⟨job.found, job.results, job.errors, job.summary, job.phase, job.lastSeq⟩

/-- Two jobs that show the same view are shown alike. -/
theorem Job.Shows.shown_eq {job job' : Job} {v : View} {n : Nat} (h : job.Shows v n)
    (h' : job'.Shows v n) : job.shown = job'.shown := by
  simp only [Job.shown, h.found, h'.found, h.results, h'.results, h.errors, h'.errors,
    h.summary, h'.summary, h.phase, h'.phase, h.lastSeq, h'.lastSeq]

/-- A page that loads a snapshot of a job and gets the events recorded after it, with
any replays and in any batches, shows what the snapshot after them shows. What is recorded is
what was published, in this order. -/
theorem shown_applyBatches (wf : WireFormat) (id sessionId accountId : String)
    (spec : Engine.Spec) (now : Nat) (before after : List JobOp) (scanned : Finset String)
    (batches : List (List Event))
    (hd : Delivered (((newJob id sessionId accountId spec now).run before).run after).events
      ((newJob id sessionId accountId spec now).run before).events.length batches.flatten
      (((newJob id sessionId accountId spec now).run before).run after).events.length) :
    (∃ s s', ((newJob id sessionId accountId spec now).run before).snapshot = some s ∧
      (((newJob id sessionId accountId spec now).run before).run after).snapshot = some s' ∧
      (applyBatches (encodeSnapshot wf s) scanned (batches.map (List.map encodeEvent))).1.shown =
        (encodeSnapshot wf s').shown) ∧
    (((newJob id sessionId accountId spec now).run before).run after).events =
      stamped 0 (before ++ after) := by
  obtain ⟨hc, -⟩ := (newJob_consistent id sessionId accountId spec now).run before
  obtain ⟨hc', hprefix⟩ := hc.run after
  obtain ⟨s, hs, hshows⟩ := shows_encodeSnapshot wf hc
  obtain ⟨s', hs', hshows'⟩ := shows_encodeSnapshot wf hc'
  have hlog := Jobs.Job.log_run (newJob id sessionId accountId spec now) (before ++ after)
  rw [Jobs.Job.run_append] at hlog
  refine ⟨⟨s, s', hs, hs', ?_⟩, hlog⟩
  have htake : viewOf ((newJob id sessionId accountId spec now).run before).events = _ :=
    congrArg viewOf (List.prefix_iff_eq_take.mp hprefix)
  rw [htake] at hshows
  have hfinal := hshows.batches hc'.numbered hd scanned
  rw [List.take_length] at hfinal
  exact hfinal.shown_eq hshows'

/-- A topic found by a scan. -/
private def topicFound (id : String) (nukable : Bool) (seq now : Nat) : Event where
  type := .resourceFound
  seq := seq
  atTime := now
  resourceType := "sns-topic"
  region := "us-east-1"
  identifier := id
  nukable := some nukable

private def plainFormat : WireFormat where
  time n := toString n
  duration n := toString n

/-- A page joins after the first topic, sees it again, and gets two more events in two
batches with a replay between them. -/
theorem shown_applyBatches_topics :
    ∃ s s', ((newJob "j" "s" "1" ⟨.scan, ["us-east-1"], ["sns-topic"], none, "", [], 0⟩ 1).run
        [.publish (topicFound "a" true 0 0) 2]).snapshot = some s ∧
      (((newJob "j" "s" "1" ⟨.scan, ["us-east-1"], ["sns-topic"], none, "", [], 0⟩ 1).run
        [.publish (topicFound "a" true 0 0) 2]).run
        [.publish (topicFound "b" true 0 0) 3, .publish (topicFound "a" false 0 0) 4]).snapshot =
          some s' ∧
      (applyBatches (encodeSnapshot plainFormat s) ∅
        ([[topicFound "a" true 1 2, topicFound "b" true 2 3],
          [topicFound "b" true 2 3, topicFound "a" false 3 4]].map
            (List.map encodeEvent))).1.shown =
        (encodeSnapshot plainFormat s').shown :=
  And.left <| shown_applyBatches plainFormat _ _ _ _ _ _ _ _ _ <|
    .replay (Nat.zero_lt_succ 0) rfl <| .next rfl <| .replay (Nat.lt_succ_self 1) rfl <|
      .next rfl <| .done 3

end Broom.Web
