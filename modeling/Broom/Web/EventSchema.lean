import Broom.Engine.Wire
import Broom.Web.History

/-!
# The browser's event schema

The page parses the data of every message as JSON and checks it against a schema. An
optional field may be left out but may not be null.
-/

namespace Broom.Web

open Broom.Core Broom.Engine

/-- All that the schema lets through of an event. -/
structure SchemaEvent extends JobEvent where
  atTime : String
  batchSize : Option Nat
  deriving DecidableEq, Repr

/-! ## The schema -/

namespace Schema

def string : Json → Option String
  | .str s => some s
  | _ => none

def boolean : Json → Option Bool
  | .bool b => some b
  | _ => none

/-- Numbers, which are counts here. -/
def number : Json → Option Nat
  | .num n => if 0 ≤ n then some n.toNat else none
  | _ => none

def eventType : Json → Option EventType
  | .str s => EventType.ofName s
  | _ => none

/-- The two modes of a job. -/
def mode : Json → Option Mode
  | .str s => if s = "scan" then some .scan else if s = "nuke" then some .nuke else none
  | _ => none

/-- A field that must be there. -/
def required {α : Type} (parse : Json → Option α) (field : Option Json) : Option α :=
  field.bind parse

/-- A field that may be left out. -/
def optional {α : Type} (parse : Json → Option α) : Option Json → Option (Option α)
  | none => some none
  | some v => (parse v).map some

def summary (v : Json) : Option Summary := do
  let mode ← required mode (v.get? "mode")
  let found ← required number (v.get? "found")
  let nukable ← required number (v.get? "nukable")
  let notNukable ← required number (v.get? "notNukable")
  let generalErrors ← required number (v.get? "generalErrors")
  let deleted ← required number (v.get? "deleted")
  let warned ← required number (v.get? "warned")
  let failed ← required number (v.get? "failed")
  let alreadyGone ← required number (v.get? "alreadyGone")
  let notSelected ← required number (v.get? "notSelected")
  return { mode := mode, found := found, nukable := nukable, notNukable := notNukable,
           generalErrors := generalErrors, deleted := deleted, warned := warned,
           failed := failed, alreadyGone := alreadyGone, notSelected := notSelected }

/-- The schema of events. -/
def event (v : Json) : Option SchemaEvent := do
  let seq ← required number (v.get? "seq")
  let type ← required eventType (v.get? "type")
  let atTime ← required string (v.get? "at")
  let phase ← optional string (v.get? "phase")
  let message ← optional string (v.get? "message")
  let resourceType ← optional string (v.get? "resourceType")
  let region ← optional string (v.get? "region")
  let identifier ← optional string (v.get? "identifier")
  let nukable ← optional boolean (v.get? "nukable")
  let reason ← optional string (v.get? "reason")
  let success ← optional boolean (v.get? "success")
  let warning ← optional boolean (v.get? "warning")
  let error ← optional string (v.get? "error")
  let note ← optional string (v.get? "note")
  let batchSize ← optional number (v.get? "batchSize")
  let summary ← optional summary (v.get? "summary")
  return { seq := seq, type := type, phase := phase, message := message,
           resourceType := resourceType, region := region, identifier := identifier,
           nukable := nukable, reason := reason, success := success, warning := warning,
           error := error, note := note, summary := summary, atTime := atTime,
           batchSize := batchSize }

end Schema

/-! ## What the schema makes of the server's events -/

/-- The event that the page gets. -/
def schemaEvent (fmt : GoFormat) (ev : Event) : SchemaEvent where
  toJobEvent := encodeEvent ev
  atTime := fmt.time ev.atTime
  batchSize := omitZero ev.batchSize

/-- The server's event of what the page has, an absent field standing for the zero value. -/
def SchemaEvent.toEvent (fmt : GoFormat) (e : SchemaEvent) : Option Event :=
  (fmt.parseTime e.atTime).map fun t =>
    { type := e.type, seq := e.seq, atTime := t, phase := e.phase.getD "",
      message := e.message.getD "", resourceType := e.resourceType.getD "",
      region := e.region.getD "", identifier := e.identifier.getD "", nukable := e.nukable,
      reason := e.reason.getD "", success := e.success, warning := e.warning.getD false,
      error := e.error.getD "", note := e.note.getD "", batchSize := e.batchSize.getD 0,
      summary := e.summary }

/-- The page has all that the server sent. -/
theorem toEvent_schemaEvent (fmt : GoFormat) (ev : Event) :
    (schemaEvent fmt ev).toEvent fmt = some ev := by
  have hwarning (b : Bool) : (omitFalse b).getD false = b := by cases b <;> rfl
  have hsize (n : Nat) : (omitZero n).getD 0 = n := by
    unfold omitZero
    split <;> simp_all
  simp [SchemaEvent.toEvent, schemaEvent, encodeEvent, fmt.parseTime_time, hwarning, hsize]

/-- The events that a worker emits: a summary is one of a scan or of a clean-up. -/
def Emittable (ev : Event) : Prop := ∀ s ∈ ev.summary, s.mode = .scan ∨ s.mode = .nuke

namespace Schema

@[simp] theorem required_number (n : Nat) : required number (some (Codec.nat.put n)) = some n := by
  simp [required, number, Codec.nat]

@[simp] theorem required_string (s : String) : required string (some (.str s)) = some s := rfl

@[simp] theorem required_eventType (t : EventType) :
    required eventType (some (.str t.name)) = some t := EventType.ofName_name t

@[simp] theorem optional_string (s : String) :
    optional string (Codec.string.omitZero s) = some (omitEmpty s) := by
  unfold Codec.omitZero omitEmpty
  by_cases h : s = "" <;> simp [h, Codec.string, optional, string]

@[simp] theorem optional_warning (b : Bool) :
    optional boolean (Codec.bool.omitZero b) = some (omitFalse b) := by
  cases b <;> rfl

@[simp] theorem optional_boolean (o : Option Bool) :
    optional boolean (o.map Codec.bool.put) = some o := by
  cases o <;> rfl

@[simp] theorem optional_number (n : Nat) :
    optional number (Codec.nat.omitZero n) = some (omitZero n) := by
  unfold Codec.omitZero omitZero
  by_cases h : n = 0 <;> simp [h, Codec.nat, optional, number]

theorem summary_put {s : Summary} (h : s.mode = .scan ∨ s.mode = .nuke) :
    summary (Encoding.summary.put s) = some s := by
  have hn : ((Encoding.summaryFields s).map Prod.fst).Nodup := by simp [Encoding.summaryFields]
  have hmode : required mode (some (Encoding.mode.put s.mode)) = some s.mode := by
    rcases h with h | h <;> rw [h] <;> rfl
  change summary (.record (Encoding.summaryFields s)) = some s
  simp only [summary, Json.get?_record hn]
  simp [Encoding.summaryFields, List.lookup_cons, hmode]

end Schema

/-- The schema accepts every event of the server, with its values. -/
theorem schema_event (fmt : GoFormat) {ev : Event} (h : Emittable ev) :
    Schema.event ((Encoding.event fmt).put ev) = some (schemaEvent fmt ev) := by
  have hsummary : Schema.optional Schema.summary (ev.summary.map Encoding.summary.put) =
      some ev.summary := by
    cases hs : ev.summary with
    | none => rfl
    | some s => rw [Option.map_some, Schema.optional, Schema.summary_put (h s hs)]; rfl
  have htime : Schema.required Schema.string (some ((Encoding.time fmt).put ev.atTime)) =
      some (fmt.time ev.atTime) := rfl
  change Schema.event (.record (Encoding.eventFields fmt ev)) = some (schemaEvent fmt ev)
  simp only [Schema.event, Json.get?_record (Encoding.eventFields_nodup fmt ev)]
  simp [Encoding.eventFields, List.lookup_cons, htime, hsummary, schemaEvent, encodeEvent]

end Broom.Web
