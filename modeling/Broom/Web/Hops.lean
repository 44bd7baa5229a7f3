import Broom.Core.EventSource
import Broom.Jobs.Recorded
import Broom.Web.EventSchema

/-!
# Events on their way to the browser

An event crosses three hops: the worker writes it as a line of JSON, the server decodes
the line, records the event and writes it as a frame of its event stream, and the page
parses the frame's data with its schema.
-/

namespace Broom.Web

open Broom.Core Broom.Engine Broom.Jobs

variable (fmt : GoFormat)

/-! ## The worker's lines -/

/-- The line that the emitter writes for an event. -/
def eventLine (ev : Event) : Line where
  bytes := ((Encoding.event fmt).put ev).bytes
  no_newline h := absurd (Json.le_of_mem_bytes h) (by decide)

/-- The server's decoding of lines. -/
def jsonWire (text : List UInt8 → String) (trimSpace : List UInt8 → List UInt8) : Jobs.Wire where
  unmarshal line := (Json.ofBytes line).bind (Encoding.event fmt).take
  text := text
  trimSpace := trimSpace

variable {fmt}

theorem Emittable.valid {ev : Event} (h : Emittable ev) : (Encoding.event fmt).Valid ev := by
  intro s hs
  rcases h s hs with hmode | hmode
  all_goals
    change Mode.ofName s.mode.name = s.mode
    rw [hmode]
    rfl

/-- The server reads an event back from its line. -/
theorem lineEvent_eventLine {ev : Event} (h : Emittable ev) (text : List UInt8 → String)
    (trimSpace : List UInt8 → List UInt8) :
    lineEvent (jsonWire fmt text trimSpace) (dropCR (eventLine fmt ev).bytes) = some ev := by
  have hread : Json.ofBytes (eventLine fmt ev).bytes = some ((Encoding.event fmt).put ev) :=
    Json.ofBytes_bytes _
  have hcr : dropCR (eventLine fmt ev).bytes = (eventLine fmt ev).bytes := by
    rw [dropCR, if_neg]
    intro hlast
    exact absurd (Json.le_of_mem_bytes (List.mem_of_getLast? hlast)) (by decide)
  have hne : (eventLine fmt ev).bytes ≠ [] := Json.bytes_ne_nil _
  have htake : (Encoding.event fmt).take ((Encoding.event fmt).put ev) = some ev :=
    (Encoding.event fmt).take_put ev h.valid nofun
  rw [hcr, lineEvent, if_neg hne, jsonWire]
  simp only [hread, Option.bind_some, htake]

/-! ## The server's frames -/

variable (fmt) in
/-- The frame that the handler of the event stream writes. -/
def writeEvent (ev : Event) : List Char :=
  "id: ".toList ++ Nat.toDigits 10 ev.seq ++ "\nevent: ".toList ++ ev.type.name.toList ++
    "\ndata: ".toList ++ ((Encoding.event fmt).put ev).render ++ "\n\n".toList

variable (fmt) in
/-- The message that the page gets for an event. -/
def message (ev : Event) : EventSource.Message where
  event := ev.type.name.toList
  data := ((Encoding.event fmt).put ev).render
  lastEventId := Nat.toDigits 10 ev.seq

theorem writeEvent_eq (ev : Event) : writeEvent fmt ev = EventSource.frame (message fmt ev) := by
  have hid : "id: ".toList = ['i', 'd', ':', ' '] := rfl
  have hevent : "\nevent: ".toList = '\n' :: ['e', 'v', 'e', 'n', 't', ':', ' '] := rfl
  have hdata : "\ndata: ".toList = '\n' :: ['d', 'a', 't', 'a', ':', ' '] := rfl
  have hend : "\n\n".toList = ['\n', '\n'] := rfl
  unfold writeEvent EventSource.frame message
  rw [hid, hevent, hdata, hend]
  generalize ((Encoding.event fmt).put ev).render = data
  generalize Nat.toDigits 10 ev.seq = id
  generalize ev.type.name.toList = event
  simp only [List.append_assoc, List.cons_append, List.nil_append]

/-- Text without control characters is on one line. -/
theorem oneLine_of_printable {cs : List Char} (h : Json.Printable cs) : EventSource.OneLine cs :=
  ⟨fun hc => absurd (h _ hc) (by decide), fun hc => absurd (h _ hc) (by decide),
    fun hc => absurd (h _ hc) (by decide)⟩

theorem message_framed (ev : Event) : (message fmt ev).Framed where
  event_ne := by
    change ev.type.name.toList ≠ []
    cases ev.type <;> decide
  event := by
    change EventSource.OneLine ev.type.name.toList
    cases ev.type <;> decide
  data := oneLine_of_printable (Json.printable_render _)
  lastEventId := oneLine_of_printable (Json.printable_digits (.ofNat ev.seq))

/-- The page gets one message for each frame. -/
theorem messages_writeEvent (events : List Event) :
    EventSource.messages (events.flatMap (writeEvent fmt)) = events.map (message fmt) := by
  have hframes : events.flatMap (writeEvent fmt) =
      (events.map (message fmt)).flatMap EventSource.frame := by
    rw [List.flatMap_map]
    exact List.flatMap_congr fun ev _ => writeEvent_eq ev
  rw [hframes]
  refine EventSource.messages_frames fun m hm => ?_
  obtain ⟨ev, -, rfl⟩ := List.mem_map.mp hm
  exact message_framed ev

/-! ## All three hops -/

/-- The event as a job records it. -/
def recorded (j : Jobs.Job) (ev : Event) (now : Nat) : Event :=
  { ev with seq := j.seq + 1, atTime := if ev.atTime = 0 then now else ev.atTime }

/-- An event that a worker emits is one line; if the line fits the reader's buffer, the
server reads the event back, and records it with its own number. The frame that the server
writes for it is one message to the page, whose data the page's schema accepts as the same
event. -/
theorem event_hops (fmt : GoFormat) {ev : Event} (h : Emittable ev) (text : List UInt8 → String)
    (trimSpace : List UInt8 → List UInt8) (j : Jobs.Job) (now : Nat) :
    newline ∉ ((Encoding.event fmt).put ev).bytes ∧
    (Fits (eventLine fmt ev) →
      (scanLines maxEventLine (((Encoding.event fmt).put ev).bytes ++ [newline])).filterMap
        (lineEvent (jsonWire fmt text trimSpace)) = [ev]) ∧
    (j.publish ev now).events = j.events ++ [recorded j ev now] ∧
    (Json.utf8Decode (Json.utf8 (writeEvent fmt (recorded j ev now)))).map EventSource.messages =
      some [message fmt (recorded j ev now)] ∧
    (Json.parse (String.ofList (message fmt (recorded j ev now)).data)).bind Schema.event =
      some (schemaEvent fmt (recorded j ev now)) ∧
    (schemaEvent fmt (recorded j ev now)).toEvent fmt = some (recorded j ev now) := by
  refine ⟨(eventLine fmt ev).no_newline, fun hfits => ?_, (j.publish_same ev now).2.1, ?_, ?_,
    toEvent_schemaEvent fmt _⟩
  · have hline : ((Encoding.event fmt).put ev).bytes ++ [newline] =
        joinLines [eventLine fmt ev] := by
      simp [joinLines, eventLine]
    rw [hline, scanLines_joinLines maxEventLine_pos, List.takeWhile_cons,
      if_pos (decide_eq_true (show (eventLine fmt ev).bytes.length < maxEventLine from hfits))]
    simp [lineEvent_eventLine h text trimSpace]
  · have hmessages := @messages_writeEvent fmt [recorded j ev now]
    rw [List.flatMap_singleton, List.map_singleton] at hmessages
    rw [Json.utf8Decode_utf8, Option.map_some, hmessages]
  · have hparse : Json.parse (String.ofList (message fmt (recorded j ev now)).data) =
        some ((Encoding.event fmt).put (recorded j ev now)) := Json.parse_text _
    rw [hparse, Option.bind_some]
    exact schema_event fmt h

/-- A topic that cannot be deleted, with a newline in its name. -/
def foundEvent : Event where
  type := .resourceFound
  seq := 7
  atTime := 3
  resourceType := "sns-topic"
  region := "us-east-1"
  identifier := "a\nb"
  nukable := some false

/-- The topic's event comes through all hops. -/
theorem foundEvent_hops :
    (scanLines maxEventLine (((Encoding.event smallFormat).put foundEvent).bytes ++
      [newline])).filterMap (lineEvent (jsonWire smallFormat (fun _ => "") id)) = [foundEvent] ∧
    (schemaEvent smallFormat (recorded (newJob "j" "s" "1" ⟨.scan, [], [], none, "", [], 0⟩ 1)
      foundEvent 2)).toEvent smallFormat = some { foundEvent with seq := 1 } := by
  obtain ⟨-, hline, -, -, -, hevent⟩ := event_hops smallFormat
    (show Emittable foundEvent from nofun) (fun _ => "") id
    (newJob "j" "s" "1" ⟨.scan, [], [], none, "", [], 0⟩ 1) 2
  exact ⟨hline (by decide +kernel), hevent⟩

end Broom.Web
