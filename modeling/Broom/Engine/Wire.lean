import Broom.Core.Codec
import Broom.Engine.Spec

/-!
# The wire format of the worker

The spec crosses from the server to the worker as JSON, and events come back as one line
of JSON each. Times and durations are strings that the standard library formats and parses.
-/

namespace Broom.Engine

open Broom.Core

/-- How the standard library writes times and durations, and reads them back. -/
structure GoFormat where
  time : Nat → String
  parseTime : String → Option Nat
  duration : Int → String
  parseDuration : String → Option Int
  /-- The duration of a JSON number, which is decoded as a `float64`. -/
  ofFloat : Int → Int
  parseTime_time : ∀ t, parseTime (time t) = some t
  parseDuration_duration : ∀ d, parseDuration (duration d) = some d

/-! ## Names -/

/-- A mode on the wire. -/
def Mode.name : Mode → String
  | .scan => "scan"
  | .nuke => "nuke"
  | .other name => name

def Mode.ofName (s : String) : Mode :=
  if s = "scan" then .scan else if s = "nuke" then .nuke else .other s

/-- An event type on the wire. -/
def EventType.name : EventType → String
  | .phase => "phase"
  | .scanProgress => "scan_progress"
  | .resourceFound => "resource_found"
  | .generalError => "general_error"
  | .nukeProgress => "nuke_progress"
  | .resourceDeleted => "resource_deleted"
  | .summary => "summary"
  | .fatal => "fatal"
  | .log => "log"

/-- All event types. -/
def EventType.all : List EventType :=
  [.phase, .scanProgress, .resourceFound, .generalError, .nukeProgress, .resourceDeleted,
    .summary, .fatal, .log]

def EventType.ofName (s : String) : Option EventType := all.find? fun t => t.name = s

@[simp] theorem EventType.ofName_name (t : EventType) : ofName t.name = some t := by
  cases t <;> decide

/-! ## Codecs -/

namespace Encoding

def mode : Codec Mode where
  zero := .other ""
  put m := .str m.name
  take | .str s => some (.ofName s)
       | _ => none
  Valid m := Mode.ofName m.name = m
  take_put _ h _ := congrArg some h
  eq_zero _ h := nomatch h

def time (fmt : GoFormat) : Codec Nat where
  zero := 0
  put t := .str (fmt.time t)
  take | .str s => fmt.parseTime s
       | _ => none
  Valid _ := True
  take_put t _ _ := fmt.parseTime_time t
  eq_zero _ h := nomatch h

def duration (fmt : GoFormat) : Codec Int where
  zero := 0
  put d := .str (fmt.duration d)
  take | .num n => some (fmt.ofFloat n)
       | .str s => fmt.parseDuration s
       | _ => none
  Valid _ := True
  take_put d _ _ := fmt.parseDuration_duration d
  eq_zero _ h := nomatch h

def selectionFields (s : Selection) : List (String × Option Json) :=
  [("resourceType", some (Codec.string.put s.resourceType)),
    ("region", some (Codec.string.put s.region)),
    ("identifier", some (Codec.string.put s.identifier))]

def takeSelection (v : Json) : Option Selection := do
  let resourceType ← Codec.string.read (v.get? "resourceType")
  let region ← Codec.string.read (v.get? "region")
  let identifier ← Codec.string.read (v.get? "identifier")
  return { resourceType := resourceType, region := region, identifier := identifier }

def selection : Codec Selection :=
  .struct ⟨"", "", ""⟩ selectionFields takeSelection (fun _ => True) fun s _ => by
    have hn : ((selectionFields s).map Prod.fst).Nodup := by simp [selectionFields]
    simp only [takeSelection, Json.get?_record hn]
    simp [selectionFields, List.lookup_cons]

def specFields (fmt : GoFormat) (s : Spec) : List (String × Option Json) :=
  [("mode", some (mode.put s.mode)),
    ("regions", some (Codec.string.list.put s.regions)),
    ("resourceTypes", some (Codec.string.list.put s.resourceTypes)),
    ("olderThan", s.olderThan.map (duration fmt).put),
    ("excludeIamUserName", Codec.string.omitZero s.excludeIAMUserName),
    ("selections", selection.list.omitZero s.selections),
    ("parallelism", Codec.int.omitZero s.parallelism)]

def takeSpec (fmt : GoFormat) (v : Json) : Option Spec := do
  let mode ← mode.read (v.get? "mode")
  let regions ← Codec.string.list.read (v.get? "regions")
  let resourceTypes ← Codec.string.list.read (v.get? "resourceTypes")
  let olderThan ← (duration fmt).readPointer (v.get? "olderThan")
  let excludeIAMUserName ← Codec.string.read (v.get? "excludeIamUserName")
  let selections ← selection.list.read (v.get? "selections")
  let parallelism ← Codec.int.read (v.get? "parallelism")
  return { mode := mode, regions := regions, resourceTypes := resourceTypes,
           olderThan := olderThan, excludeIAMUserName := excludeIAMUserName,
           selections := selections, parallelism := parallelism }

def spec (fmt : GoFormat) : Codec Spec :=
  .struct ⟨.other "", [], [], none, "", [], 0⟩ (specFields fmt) (takeSpec fmt)
    (fun s => mode.Valid s.mode) fun s hmode => by
    have hn : ((specFields fmt s).map Prod.fst).Nodup := by simp [specFields]
    have hselections : selection.list.read (selection.list.omitZero s.selections) =
        some s.selections :=
      selection.list.read_omitZero fun _ _ => trivial
    have holder : (duration fmt).readPointer (s.olderThan.map (duration fmt).put) =
        some s.olderThan :=
      Codec.readPointer_map _ fun _ _ => ⟨trivial, nofun⟩
    simp only [takeSpec, Json.get?_record hn]
    simp [specFields, List.lookup_cons, hmode, hselections, holder]

def summaryFields (s : Summary) : List (String × Option Json) :=
  [("mode", some (mode.put s.mode)),
    ("found", some (Codec.nat.put s.found)),
    ("nukable", some (Codec.nat.put s.nukable)),
    ("notNukable", some (Codec.nat.put s.notNukable)),
    ("generalErrors", some (Codec.nat.put s.generalErrors)),
    ("deleted", some (Codec.nat.put s.deleted)),
    ("warned", some (Codec.nat.put s.warned)),
    ("failed", some (Codec.nat.put s.failed)),
    ("alreadyGone", some (Codec.nat.put s.alreadyGone)),
    ("notSelected", some (Codec.nat.put s.notSelected))]

def takeSummary (v : Json) : Option Summary := do
  let mode ← mode.read (v.get? "mode")
  let found ← Codec.nat.read (v.get? "found")
  let nukable ← Codec.nat.read (v.get? "nukable")
  let notNukable ← Codec.nat.read (v.get? "notNukable")
  let generalErrors ← Codec.nat.read (v.get? "generalErrors")
  let deleted ← Codec.nat.read (v.get? "deleted")
  let warned ← Codec.nat.read (v.get? "warned")
  let failed ← Codec.nat.read (v.get? "failed")
  let alreadyGone ← Codec.nat.read (v.get? "alreadyGone")
  let notSelected ← Codec.nat.read (v.get? "notSelected")
  return { mode := mode, found := found, nukable := nukable, notNukable := notNukable,
           generalErrors := generalErrors, deleted := deleted, warned := warned,
           failed := failed, alreadyGone := alreadyGone, notSelected := notSelected }

def summary : Codec Summary :=
  .struct {} summaryFields takeSummary (fun s => mode.Valid s.mode) fun s hmode => by
    have hn : ((summaryFields s).map Prod.fst).Nodup := by simp [summaryFields]
    simp only [takeSummary, Json.get?_record hn]
    simp [summaryFields, List.lookup_cons, hmode]

def eventFields (fmt : GoFormat) (ev : Event) : List (String × Option Json) :=
  [("seq", some (Codec.nat.put ev.seq)),
    ("type", some (.str ev.type.name)),
    ("at", some ((time fmt).put ev.atTime)),
    ("phase", Codec.string.omitZero ev.phase),
    ("message", Codec.string.omitZero ev.message),
    ("resourceType", Codec.string.omitZero ev.resourceType),
    ("region", Codec.string.omitZero ev.region),
    ("identifier", Codec.string.omitZero ev.identifier),
    ("nukable", ev.nukable.map Codec.bool.put),
    ("reason", Codec.string.omitZero ev.reason),
    ("success", ev.success.map Codec.bool.put),
    ("warning", Codec.bool.omitZero ev.warning),
    ("error", Codec.string.omitZero ev.error),
    ("note", Codec.string.omitZero ev.note),
    ("batchSize", Codec.nat.omitZero ev.batchSize),
    ("summary", ev.summary.map summary.put)]

/-- The type of an event; one that is none of the known types is refused. -/
def takeType : Json → Option EventType
  | .str s => EventType.ofName s
  | _ => none

def takeEvent (fmt : GoFormat) (v : Json) : Option Event := do
  let seq ← Codec.nat.read (v.get? "seq")
  let type ← (v.get? "type").bind takeType
  let atTime ← (time fmt).read (v.get? "at")
  let phase ← Codec.string.read (v.get? "phase")
  let message ← Codec.string.read (v.get? "message")
  let resourceType ← Codec.string.read (v.get? "resourceType")
  let region ← Codec.string.read (v.get? "region")
  let identifier ← Codec.string.read (v.get? "identifier")
  let nukable ← Codec.bool.readPointer (v.get? "nukable")
  let reason ← Codec.string.read (v.get? "reason")
  let success ← Codec.bool.readPointer (v.get? "success")
  let warning ← Codec.bool.read (v.get? "warning")
  let error ← Codec.string.read (v.get? "error")
  let note ← Codec.string.read (v.get? "note")
  let batchSize ← Codec.nat.read (v.get? "batchSize")
  let summary ← summary.readPointer (v.get? "summary")
  return { type := type, seq := seq, atTime := atTime, phase := phase, message := message,
           resourceType := resourceType, region := region, identifier := identifier,
           nukable := nukable, reason := reason, success := success, warning := warning,
           error := error, note := note, batchSize := batchSize, summary := summary }

theorem eventFields_nodup (fmt : GoFormat) (ev : Event) :
    ((eventFields fmt ev).map Prod.fst).Nodup := by
  simp [eventFields]

def event (fmt : GoFormat) : Codec Event :=
  .struct { type := .log } (eventFields fmt) (takeEvent fmt)
    (fun ev => ∀ s ∈ ev.summary, mode.Valid s.mode) fun ev h => by
    have hbool (o : Option Bool) : Codec.bool.readPointer (o.map Codec.bool.put) = some o :=
      Codec.readPointer_map _ fun _ _ => ⟨trivial, nofun⟩
    have hsummary : summary.readPointer (ev.summary.map summary.put) = some ev.summary :=
      Codec.readPointer_map _ fun s hs => ⟨h s hs, nofun⟩
    have htime : (time fmt).read (some ((time fmt).put ev.atTime)) = some ev.atTime :=
      (time fmt).read_put trivial
    simp only [takeEvent, Json.get?_record (eventFields_nodup fmt ev)]
    simp [eventFields, List.lookup_cons, takeType, htime, hbool, hsummary]

end Encoding

/-! ## A format -/

/-- A number with a unit. -/
def readUnit (unit : List Char) (cs : List Char) : Option Int :=
  match Json.readNumber cs with
  | some (.num n, rest) => if rest = unit then some n else none
  | _ => none

theorem readUnit_append {unit : List Char} (h : Json.Delimits unit) (n : Int) :
    readUnit unit (Json.digits n ++ unit) = some n := by
  rw [readUnit, Json.readNumber_digits n h]
  exact if_pos rfl

/-- Durations in nanoseconds, but for an hour. -/
def writeDuration (d : Int) : String :=
  if d = 3600000000000 then "1h0m0s" else String.ofList (Json.digits d ++ ['n', 's'])

def readDuration (s : String) : Option Int :=
  if s = "1h0m0s" then some 3600000000000 else readUnit ['n', 's'] s.toList

theorem readDuration_writeDuration (d : Int) : readDuration (writeDuration d) = some d := by
  have hunit : Json.Delimits ['n', 's'] := by simp [Json.Delimits]
  have hread := readUnit_append hunit d
  unfold readDuration writeDuration
  split
  · rename_i hd
    rw [if_pos rfl, hd]
  · rw [if_neg, String.toList_ofList, hread]
    intro heq
    have hhour : readUnit ['n', 's'] "1h0m0s".toList = none := by decide
    rw [← heq, String.toList_ofList, hread] at hhour
    cases hhour

/-- The day of the zero time. -/
def firstDay : List Char := "0001-01-01T00:00:00".toList

/-- Times as nanoseconds of the first day. -/
def writeTime (t : Nat) : String :=
  String.ofList (firstDay ++ if t = 0 then ['Z'] else
    '.' :: (List.replicate 8 '0' ++ (Json.digits t ++ ['Z'])))

def readTime (s : String) : Option Nat :=
  match s.toList.drop 19 with
  | '.' :: rest => (readUnit ['Z'] (rest.drop 8)).map Int.toNat
  | _ => some 0

theorem readTime_writeTime (t : Nat) : readTime (writeTime t) = some t := by
  have hunit : Json.Delimits ['Z'] := by simp [Json.Delimits]
  have hdrop (cs : List Char) : (firstDay ++ cs).drop 19 = cs := List.drop_left' rfl
  unfold readTime writeTime
  rw [String.toList_ofList, hdrop]
  by_cases ht : t = 0
  · simp [ht]
  · simp [ht, readUnit_append hunit]

/-- A format that agrees with the standard library's on an hour, on the zero time and on the
first nanoseconds after it. -/
def smallFormat : GoFormat where
  time := writeTime
  parseTime := readTime
  duration := writeDuration
  parseDuration := readDuration
  ofFloat n := n
  parseTime_time := readTime_writeTime
  parseDuration_duration := readDuration_writeDuration

end Broom.Engine
