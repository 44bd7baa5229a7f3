import Broom.Engine.Spec

/-!
# The worker's event emitter

Reports of a run are flattened into events, tallied and written in order. The
tally is a fold over the written events, so a property of the final summary is a
property of the list of events alone.
-/

namespace Broom.Engine

/-- The reports a run makes to its collector. -/
inductive Report
  | scanProgress (resourceType region : String)
  | resourceFound (resourceType region identifier : String) (nukable : Bool) (reason : String)
  | generalError (resourceType description error : String)
  | nukeProgress (resourceType region : String) (batchSize : Nat)
  | resourceDeleted (resourceType region identifier : String) (success warning : Bool)
      (error : String)
  /-- A confirmed identifier that the rescan no longer sees. -/
  | resourceGone (resourceType region identifier : String)
  /-- Start and completion reports, which phase events stand for. -/
  | lifecycle
  deriving DecidableEq, Repr

/-- The event a report is flattened to. -/
def Report.event : Report → Option Event
  | .scanProgress t g => some { type := .scanProgress, resourceType := t, region := g }
  | .resourceFound t g i nukable reason => some
      { type := .resourceFound, resourceType := t, region := g, identifier := i,
        nukable := some nukable, reason := reason }
  | .generalError t description error => some
      { type := .generalError, resourceType := t, message := description, error := error }
  | .nukeProgress t g size => some
      { type := .nukeProgress, resourceType := t, region := g, batchSize := size }
  | .resourceDeleted t g i success warning error => some
      { type := .resourceDeleted, resourceType := t, region := g, identifier := i,
        success := some success, warning := warning, error := error }
  | .resourceGone t g i => some
      { type := .resourceDeleted, resourceType := t, region := g, identifier := i,
        success := some true, note := "already_gone" }
  | .lifecycle => none

/-- Count one event in the summary. -/
def tally (s : Summary) (ev : Event) : Summary :=
  match ev.type with
  | .resourceFound =>
    if ev.nukable = some false then
      { s with found := s.found + 1, notNukable := s.notNukable + 1 }
    else { s with found := s.found + 1, nukable := s.nukable + 1 }
  | .generalError => { s with generalErrors := s.generalErrors + 1 }
  | .resourceDeleted =>
    if ev.note = "already_gone" then { s with alreadyGone := s.alreadyGone + 1 }
    else if ev.success = some true then { s with deleted := s.deleted + 1 }
    else if ev.warning then { s with warned := s.warned + 1 }
    else { s with failed := s.failed + 1 }
  | _ => s

/-- Serialises events with an increasing sequence number. -/
structure Emitter where
  /-- The clock reading at each emission. -/
  now : Nat → Nat
  seq : Nat := 0
  summary : Summary := {}
  /-- The events written so far, one line each. -/
  written : List Event := []

namespace Emitter

/-- Write one event. -/
def emit (em : Emitter) (ev : Event) : Emitter :=
  let ev := { ev with seq := em.seq + 1, atTime := em.now (em.seq + 1) }
  { em with seq := em.seq + 1, summary := tally em.summary ev, written := em.written ++ [ev] }

/-- Write the event of a report. -/
def onEvent (em : Emitter) (report : Report) : Emitter :=
  match report.event with
  | some ev => em.emit ev
  | none => em

/-- Write a phase marker. -/
def phase (em : Emitter) (phase message : String) : Emitter :=
  em.emit { type := .phase, phase := phase, message := message }

/-- Write a fatal error. -/
def fatal (em : Emitter) (error : String) : Emitter := em.emit { type := .fatal, error := error }

/-- Write the final summary for a mode. -/
def summaryEvent (em : Emitter) (mode : Mode) (notSelected : Nat) : Emitter :=
  em.emit { type := .summary,
            summary := some { em.summary with mode := mode, notSelected := notSelected } }

/-- Write the events of several reports in order. -/
def onEvents (em : Emitter) (reports : List Report) : Emitter := reports.foldl onEvent em

end Emitter

/-! ## Tallies -/

/-- Sequence numbers and times do not count. -/
@[simp] theorem tally_stamp (s : Summary) (ev : Event) (seq now : Nat) :
    tally s { ev with seq := seq, atTime := now } = tally s ev := rfl

/-- The tally of a list of reports. -/
def tallyReports (s : Summary) (reports : List Report) : Summary :=
  (reports.filterMap Report.event).foldl tally s

/-- The resources a summary counts as closed out. -/
def Summary.closed (s : Summary) : Nat := s.deleted + s.warned + s.failed + s.alreadyGone

/-- The key a report closes out. -/
def Report.outcome : Report → Option String
  | .resourceDeleted t g i _ _ _ => some (selectionKey t g i)
  | .resourceGone t g i => some (selectionKey t g i)
  | _ => none

/-- The keys a list of reports closes out, with repetitions. -/
def outcomes (reports : List Report) : List String := reports.filterMap Report.outcome

@[simp] theorem outcomes_append (rs rs' : List Report) :
    outcomes (rs ++ rs') = outcomes rs ++ outcomes rs' := List.filterMap_append

/-- The reports that close out a key as gone. -/
def Report.isGone : Report → Bool
  | .resourceGone _ _ _ => true
  | _ => false

@[simp] theorem tallyReports_append (s : Summary) (rs rs' : List Report) :
    tallyReports s (rs ++ rs') = tallyReports (tallyReports s rs) rs' := by
  simp [tallyReports]

/-- A report adds one to the closed-out resources if it closes out a key, and one to
those already gone if it says so. -/
theorem tallyReports_single (s : Summary) (r : Report) :
    (tallyReports s [r]).closed = s.closed + (outcomes [r]).length ∧
      (tallyReports s [r]).alreadyGone = s.alreadyGone + [r].countP Report.isGone := by
  cases r with
  | resourceDeleted t g i success warning error =>
    cases success <;> cases warning <;>
      simp [tallyReports, Report.event, tally, outcomes, Report.outcome, Summary.closed,
        Report.isGone] <;> omega
  | resourceFound t g i nukable reason =>
    cases nukable <;>
      simp [tallyReports, Report.event, tally, outcomes, Report.outcome, Summary.closed,
        Report.isGone]
  | resourceGone t g i =>
    simp [tallyReports, Report.event, tally, outcomes, Report.outcome, Summary.closed,
      Report.isGone]
    omega
  | lifecycle => exact ⟨rfl, rfl⟩
  | _ =>
    simp [tallyReports, Report.event, tally, outcomes, Report.outcome, Summary.closed,
      Report.isGone]

/-- The tally of reports counts the keys they close out. -/
theorem tallyReports_closed (s : Summary) (rs : List Report) :
    (tallyReports s rs).closed = s.closed + (outcomes rs).length ∧
      (tallyReports s rs).alreadyGone = s.alreadyGone + rs.countP Report.isGone := by
  induction rs generalizing s with
  | nil => simp [tallyReports, outcomes]
  | cons r rs ih =>
    have hr := tallyReports_single s r
    have hrs := ih (tallyReports s [r])
    have hout : outcomes (r :: rs) = outcomes [r] ++ outcomes rs := outcomes_append [r] rs
    have htally := tallyReports_append s [r] rs
    have hcount : (r :: rs).countP Report.isGone =
        [r].countP Report.isGone + rs.countP Report.isGone :=
      @List.countP_append _ Report.isGone [r] rs
    rw [List.singleton_append] at htally
    rw [htally, hout, hcount, List.length_append]
    omega

theorem Emitter.onEvent_summary (em : Emitter) (report : Report) :
    (em.onEvent report).summary = tallyReports em.summary [report] := by
  cases h : report.event <;> simp [Emitter.onEvent, Emitter.emit, tallyReports, h]

/-- An emitter's summary is the tally of the reports it was given. -/
theorem Emitter.onEvents_summary (em : Emitter) (reports : List Report) :
    (em.onEvents reports).summary = tallyReports em.summary reports := by
  induction reports generalizing em with
  | nil => rfl
  | cons report reports ih =>
    rw [onEvents, List.foldl_cons, ← onEvents, ih, onEvent_summary]
    cases h : report.event <;> simp [tallyReports, h]

end Broom.Engine
