import Broom.Engine.Run
import Broom.Jobs.Supervisor

/-!
# Whether a run was recorded whole

The event reader ignores the error with which the scanner meets a line that does not
fit its buffer, and the worker's clean exit alone makes the job succeed. So the log
of a succeeded job holds the whole run exactly when all lines fit.
-/

namespace Broom.Jobs

open Broom.Core Broom.Engine

/-- The events of newline-terminated lines, decoded one by one. -/
def decoded (wire : Wire) (lines : List Line) : List Event :=
  lines.filterMap fun l => lineEvent wire (dropCR l.bytes)

/-- The line fits the reader's buffer together with its newline. -/
def Fits (l : Line) : Prop := l.bytes.length < maxEventLine

instance (l : Line) : Decidable (Fits l) := inferInstanceAs (Decidable (_ < _))

theorem maxEventLine_pos : 0 < maxEventLine := by decide

/-- A line that does not fit is not empty, so it has an event. -/
theorem lineEvent_ne_none_of_not_fits {wire : Wire} {l : Line} (h : ¬ Fits l) :
    lineEvent wire (dropCR l.bytes) ≠ none := by
  have hlen := length_le_dropCR l.bytes
  have hne : dropCR l.bytes ≠ [] := by
    intro hnil
    rw [hnil, List.length_nil] at hlen
    have hmax : 1 < maxEventLine := by decide
    exact h (Nat.lt_of_le_of_lt hlen hmax)
  unfold lineEvent
  rw [if_neg hne]
  split <;> exact Option.some_ne_none _

theorem decoded_cons (wire : Wire) (l : Line) (lines : List Line) :
    decoded wire (l :: lines) =
      (lineEvent wire (dropCR l.bytes)).toList ++ decoded wire lines := by
  rw [decoded, List.filterMap_cons]
  cases lineEvent wire (dropCR l.bytes) <;> rfl

/-- Nothing is left out before the first line that does not fit exactly when every line
fits. -/
theorem decoded_takeWhile_eq_iff {wire : Wire} {lines : List Line} :
    decoded wire (lines.takeWhile fun l => decide (Fits l)) = decoded wire lines ↔
      ∀ l ∈ lines, Fits l := by
  induction lines with
  | nil => simp
  | cons l lines ih =>
    rw [List.takeWhile_cons]
    by_cases hl : Fits l
    · rw [if_pos (decide_eq_true hl), decoded_cons, decoded_cons, List.append_cancel_left_eq,
        ih, List.forall_mem_cons, and_iff_right hl]
    · obtain ⟨ev, hev⟩ := Option.ne_none_iff_exists'.mp
        (@lineEvent_ne_none_of_not_fits wire l hl)
      rw [if_neg (by simpa using hl), decoded_cons, hev]
      exact iff_of_false (List.cons_ne_nil _ _).symm fun h => hl (h l (List.mem_cons_self ..))

/-- A line for each event, from which the reader gets the event back. -/
def Encodes (wire : Wire) (encode : Event → Line) : Prop :=
  ∀ ev, lineEvent wire (dropCR (encode ev).bytes) = some ev

theorem decoded_encode {wire : Wire} {encode : Event → Line} (h : Encodes wire encode)
    (events : List Event) : decoded wire (events.map encode) = events := by
  rw [decoded, List.filterMap_map]
  exact (List.filterMap_congr fun ev _ => h ev).trans List.filterMap_some

section lines

variable {wire : Wire} {lines : List Line} {stderr : List UInt8} {j : Job}

/-- The reader publishes the events of the lines before the first that does not fit. -/
theorem published_joinLines (x : Supervised wire (joinLines lines) stderr j) :
    x.published = decoded wire (lines.takeWhile fun l => decide (Fits l)) := by
  rw [x.published_eq, scanLines_joinLines maxEventLine_pos, List.filterMap_map]
  rfl

/-- If a job succeeds, all events of its worker's output are published exactly when all
lines fit. What is published is in the log in order; and the whole output of a worker
that exits cleanly holds its summary. -/
theorem succeeded_recorded_iff (x : Supervised wire (joinLines lines) stderr j) :
    ((x.Succeeds → x.published = decoded wire lines) ↔ (x.Succeeds → ∀ l ∈ lines, Fits l)) ∧
    (x.published.map content).Sublist (x.result.events.map content) ∧
    ∀ {cn isGlobal now} (quote : String → String) (clock : Nat → Nat) (input : Except String Spec)
      (y : ∀ spec, input = .ok spec → Surroundings cn isGlobal now spec) (encode : Event → Line),
      Encodes wire encode → (runWorker quote clock input y).2 = 0 →
      lines = (runWorker quote clock input y).1.written.map encode →
      x.published = decoded wire lines → ∃ ev ∈ x.result.events, ev.type = .summary := by
  refine ⟨?_, x.published_sublist, ?_⟩
  · rw [published_joinLines, decoded_takeWhile_eq_iff]
  · intro cn isGlobal now quote clock input y encode hcodec hexit hlines hall
    obtain ⟨ev, hev, htype⟩ := runWorker_summary hexit
    have hpub : ev ∈ x.published := by
      rwa [hall, hlines, decoded_encode hcodec]
    obtain ⟨ev', hev', hcontent⟩ :=
      List.mem_map.mp (x.published_sublist.subset (List.mem_map_of_mem hpub))
    exact ⟨ev', hev', (congrArg Event.type hcontent :).trans htype⟩

end lines

/-! ## A long line before the summary -/

/-- A line of output that fills the whole buffer. -/
private def longLine : Line where
  bytes := List.replicate maxEventLine 120
  no_newline h := absurd (List.eq_of_mem_replicate h) (by decide)

/-- The JSON text of the summary event. -/
private def summaryLine : Line where
  bytes := "\x7b\"seq\":2,\"type\":\"summary\"\x7d".toList.map fun c => c.toNat.toUInt8
  no_newline := by decide

/-- Decoding succeeds on the summary's line. -/
private def summaryWire : Wire where
  unmarshal line :=
    if line = summaryLine.bytes then some { type := .summary, seq := 2 } else none
  text bytes := String.ofList (bytes.map fun b => Char.ofNat b.toNat)
  trimSpace bytes := bytes

/-- A worker writes a long line and its summary, and exits cleanly. -/
def longLineLife : Supervised summaryWire (joinLines [longLine, summaryLine]) []
    { newJob "j" "s" "1" ⟨.scan, ["us-east-1"], ["sns-topic"], none, "", [], 0⟩ 1 with
      state := .running } :=
  .inOrder _ _ _ _ none none 2

private theorem longLine_not_fits : ¬ Fits longLine := by
  rw [Fits, longLine, List.length_replicate]
  exact Nat.lt_irrefl _

/-- The job of the long line succeeds, with nothing of the run in its log. -/
theorem longLineLife_incomplete :
    ¬ (longLineLife.Succeeds → longLineLife.published =
      decoded summaryWire [longLine, summaryLine]) := by
  intro h
  have hpub : longLineLife.published = [] := by
    rw [published_joinLines, List.takeWhile_cons_of_neg (by simpa using longLine_not_fits)]
    rfl
  have hdecoded : decoded summaryWire [longLine, summaryLine] ≠ [] := by
    obtain ⟨ev, hev⟩ := Option.ne_none_iff_exists'.mp
      (@lineEvent_ne_none_of_not_fits summaryWire longLine longLine_not_fits)
    rw [decoded_cons, hev]
    exact List.cons_ne_nil _ _
  have hsucceeds : longLineLife.Succeeds :=
    ⟨congrArg State.terminal Supervised.state_read_inOrder, rfl⟩
  exact hdecoded ((h hsucceeds).symm.trans hpub)

end Broom.Jobs
