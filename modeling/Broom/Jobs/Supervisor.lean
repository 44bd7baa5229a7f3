import Broom.Core.LineScanner
import Broom.Core.Pool
import Broom.Jobs.View

/-!
# Supervising a worker

Two goroutines read the worker's standard output and standard error line by line and
publish what they read. When both have met the end of their streams, the worker's
exit decides the state of the job. The goroutines interleave with each other and
with whatever else happens to the job.
-/

namespace Broom.Jobs

open Broom.Core Broom.Engine Broom.Core.Pool

/-! ## Reading -/

/-- What reading takes from Go's libraries. -/
structure Wire where
  /-- Decode a line of JSON. -/
  unmarshal : List UInt8 → Option Event
  /-- The string of some bytes. -/
  text : List UInt8 → String
  /-- Bytes without leading and trailing white space. -/
  trimSpace : List UInt8 → List UInt8

/-- The buffer of the event reader. -/
def maxEventLine : Nat := 4 * 1024 * 1024

/-- The buffer of the log reader. -/
def maxLogLine : Nat := 1024 * 1024

/-- The first bytes of a string, with an ellipsis if there are more. -/
def truncate (s : List UInt8) (n : Nat) : List UInt8 :=
  if s.length ≤ n then s else s.take n ++ [0xE2, 0x80, 0xA6]

/-- The readers publish events; the answer is the clock reading at the publication. -/
inductive ReadOp
  | publish (ev : Event)

abbrev ReadOp.Ans : ReadOp → Type
  | .publish _ => Nat

/-- The event of a publication. -/
def ReadOp.event : ReadOp → Event
  | .publish ev => ev

abbrev ReadM := Prog ReadOp ReadOp.Ans

def publish (ev : Event) : ReadM Nat := .call (.publish ev) .ret

/-- The event of a line of standard output; an empty line has none. -/
def lineEvent (wire : Wire) (line : List UInt8) : Option Event :=
  if line = [] then none
  else match wire.unmarshal line with
    | none => some { type := .log,
                     message := "unparsable worker output: " ++ wire.text (truncate line 300) }
    | some ev => some ev

/-- The event of a line of standard error. -/
def logEvent (wire : Wire) (line : List UInt8) : Option Event :=
  if wire.trimSpace line = [] then none
  else some { type := .log, message := wire.text (truncate (wire.trimSpace line) 1000) }

/-- The loop of the event reader; it returns the last fatal message. -/
def readEventLines (wire : Wire) : List (List UInt8) → String → ReadM String
  | [], fatal => pure fatal
  | line :: lines, fatal =>
    match lineEvent wire line with
    | none => readEventLines wire lines fatal
    | some ev => do
      let _ ← publish ev
      readEventLines wire lines (if ev.type = .fatal then ev.error else fatal)

/-- The loop of the log reader, which returns nothing of interest. -/
def readLogLines (wire : Wire) : List (List UInt8) → ReadM String
  | [] => pure ""
  | line :: lines =>
    match logEvent wire line with
    | none => readLogLines wire lines
    | some ev => do
      let _ ← publish ev
      readLogLines wire lines

/-- Publish the events of standard output. -/
def readEvents (wire : Wire) (stdout : List UInt8) : ReadM String :=
  readEventLines wire (scanLines maxEventLine stdout) ""

/-- Publish the lines of standard error. -/
def readLogs (wire : Wire) (stderr : List UInt8) : ReadM String :=
  readLogLines wire (scanLines maxLogLine stderr)

/-! ## The worker's life -/

/-- Why a context is done. -/
inductive CtxErr
  | canceled
  | deadlineExceeded
  deriving DecidableEq, Repr

/-- An operation on the job that publishes nothing. -/
structure SilentOp where
  op : JobOp
  silent : ∀ ev now, op ≠ .publish ev now

/-- A step while the worker runs. -/
abbrev LifeStep := Label SilentOp ReadOp.Ans

/-- The job after a step. -/
def Job.live (j : Job) : LifeStep → Job
  | .env e => j.step e.op
  | .act _ ⟨.publish ev, now⟩ => j.publish ev now

/-- The life of a worker that writes some bytes to its two streams: the interleaving of
the readers, then the state of the context and the exit of the process. -/
structure Supervised (wire : Wire) (stdout stderr : List UInt8) (j : Job) where
  trace : List LifeStep
  readers : Pool ReadOp ReadOp.Ans String
  run : Pool.Run 2 (Pool.ofList [readEvents wire stdout, readLogs wire stderr]) trace readers
  complete : readers.Complete
  ctxErr : Option CtxErr
  waitErr : Option String
  now : Nat

/-- The state and the message that an exit leads to. -/
def exitState (ctxErr : Option CtxErr) (waitErr : Option String) (sawFatal : String) :
    State × String :=
  match ctxErr, waitErr with
  | some .canceled, _ => (.cancelled, "cancelled")
  | some .deadlineExceeded, _ => (.failed, "job timed out")
  | none, some err => (.failed, if sawFatal = "" then "worker exited: " ++ err else sawFatal)
  | none, none => (.succeeded, "")

namespace Supervised

variable {wire : Wire} {stdout stderr : List UInt8} {j : Job}

/-- The job when both readers have returned. -/
def read (x : Supervised wire stdout stderr j) : Job := x.trace.foldl Job.live j

/-- The fatal message that the event reader returned. -/
def sawFatal (x : Supervised wire stdout stderr j) : String :=
  (x.readers.finished.lookup 0).getD ""

/-- The job when the supervising goroutine has returned. -/
def result (x : Supervised wire stdout stderr j) : Job :=
  x.read.setState (exitState x.ctxErr x.waitErr x.sawFatal).1
    (exitState x.ctxErr x.waitErr x.sawFatal).2 x.now

/-- The supervising goroutine moves the job to succeeded. -/
def Succeeds (x : Supervised wire stdout stderr j) : Prop :=
  x.read.state.terminal = false ∧ (exitState x.ctxErr x.waitErr x.sawFatal).1 = .succeeded

/-- The events that the event reader published, in order. -/
def published (x : Supervised wire stdout stderr j) : List Event :=
  (project 0 x.trace).map fun a => a.1.event

/-- A life in which the readers take turns, standard output first. -/
def inOrder (wire : Wire) (stdout stderr : List UInt8) (j : Job) (ctxErr : Option CtxErr)
    (waitErr : Option String) (now : Nat) : Supervised wire stdout stderr j where
  trace := sequential (fun | .publish _ => now)
    (ofList [readEvents wire stdout, readLogs wire stderr]).waiting
  readers := _
  run := Run.sequential Nat.two_pos _ _ _
  complete := rfl
  ctxErr := ctxErr
  waitErr := waitErr
  now := now

end Supervised

/-! ## What the readers publish -/

@[simp] theorem exec_publish {ev : Event} {τ : List (Act ReadOp.Ans)} {now : Nat} :
    Prog.Exec (publish ev) τ now ↔ τ = [⟨.publish ev, now⟩] := Prog.exec_perform

/-- The event reader publishes the events of the lines it gets, in order. -/
theorem events_of_exec_readEventLines {wire : Wire} {lines : List (List UInt8)} {fatal : String}
    {τ : List (Act ReadOp.Ans)} {out : String}
    (h : Prog.Exec (readEventLines wire lines fatal) τ out) :
    τ.map (fun a => a.1.event) = lines.filterMap (lineEvent wire) := by
  induction lines generalizing fatal τ with
  | nil =>
    rw [(Prog.exec_pure.mp h).1]
    rfl
  | cons line lines ih =>
    rw [readEventLines] at h
    cases hev : lineEvent wire line with
    | none =>
      rw [hev] at h
      rw [List.filterMap_cons_none hev]
      exact ih h
    | some ev =>
      rw [hev] at h
      obtain ⟨_, now, τ', rfl, hp, h⟩ := Prog.exec_bind.mp h
      rw [exec_publish.mp hp, List.filterMap_cons_some hev, ← ih h]
      rfl

namespace Supervised

variable {wire : Wire} {stdout stderr : List UInt8} {j : Job}

/-- The event reader publishes the events of the tokens that the scanner returns. -/
theorem published_eq (x : Supervised wire stdout stderr j) :
    x.published = (scanLines maxEventLine stdout).filterMap (lineEvent wire) := by
  obtain ⟨hnum, hexec, -⟩ := x.run.summarised_ofList x.complete
  have hmem : 0 ∈ x.readers.finished.map Prod.fst :=
    hnum.mem_iff.mpr (List.mem_range.mpr Nat.two_pos)
  obtain ⟨⟨i, out⟩, hout, rfl⟩ := List.mem_map.mp hmem
  obtain ⟨q, hq, he⟩ := hexec _ out hout
  obtain rfl : readEvents wire stdout = q := Option.some.inj hq
  exact events_of_exec_readEventLines he

end Supervised

/-- An event without what recording it changes. -/
def content (ev : Event) : Event := { ev with seq := 0, atTime := 0 }

/-- A step of a worker's life records what it publishes. -/
theorem Job.events_live (j : Job) (l : LifeStep) :
    (j.live l).events.map content =
      j.events.map content ++ (acts [l]).map fun a => content a.1.event := by
  rcases l with ⟨op, hsilent⟩ | ⟨i, ⟨ev⟩, now⟩
  · have hstep : (j.step op).events = j.events := by
      cases op with
      | publish ev now => exact absurd rfl (hsilent ev now)
      | setState s errMsg now =>
        have hb := j.body_setState s errMsg now
        split at hb
        · exact (congrArg Job.events hb :)
        · exact (congrArg Job.events hb :)
      | unsubscribe i =>
        simp only [Job.step, Job.unsubscribe]
        split
        · exact (congrArg Job.events (j.body_drop i) :)
        · rfl
      | receive i =>
        simp only [Job.step, Job.receive]
        split <;> rfl
      | _ => rfl
    rw [Job.live, hstep]
    simp
  · have he : (j.publish ev now).events = j.events ++ [j.stamp ev now] :=
      (congrArg Job.events (j.body_publish ev now) :)
    rw [Job.live, he, List.map_append]
    rfl

/-- A worker's life records everything that its readers publish. -/
theorem Job.events_foldl_live (j : Job) (τ : List LifeStep) :
    (τ.foldl Job.live j).events.map content =
      j.events.map content ++ (acts τ).map fun a => content a.1.event := by
  induction τ generalizing j with
  | nil => simp
  | cons l τ ih =>
    have hacts : acts (l :: τ) = acts [l] ++ acts τ := acts_append [l] τ
    rw [List.foldl_cons, ih, j.events_live, hacts, List.map_append, List.append_assoc]

/-- What the event reader published is in the job's log, in order. -/
theorem Supervised.published_sublist {wire : Wire} {stdout stderr : List UInt8} {j : Job}
    (x : Supervised wire stdout stderr j) :
    (x.published.map content).Sublist (x.result.events.map content) := by
  have hresult : x.result.events = x.read.events := by
    have hb := x.read.body_setState (exitState x.ctxErr x.waitErr x.sawFatal).1
      (exitState x.ctxErr x.waitErr x.sawFatal).2 x.now
    split at hb
    · exact (congrArg Job.events hb :)
    · exact (congrArg Job.events hb :)
  rw [hresult, read, Job.events_foldl_live, published, List.map_map]
  exact ((project_sublist_acts 0 x.trace).map _).trans (List.sublist_append_right ..)

/-- The readers alone do not change the state of the job. -/
theorem Supervised.state_read_inOrder {wire : Wire} {stdout stderr : List UInt8} {j : Job}
    {ctxErr : Option CtxErr} {waitErr : Option String} {now : Nat} :
    (inOrder wire stdout stderr j ctxErr waitErr now).read.state = j.state := by
  have hfold (τ : List LifeStep) : ∀ j : Job, (∀ e, .env e ∉ τ) →
      (τ.foldl Job.live j).state = j.state := by
    induction τ with
    | nil => exact fun _ _ => rfl
    | cons l τ ih =>
      intro j hτ
      refine (ih _ fun e he => hτ e (List.mem_cons_of_mem _ he)).trans ?_
      rcases l with e | ⟨i, ⟨ev⟩, now⟩
      · exact absurd (List.mem_cons_self ..) (hτ e)
      · exact (congrArg Job.state (j.body_publish ev now) :)
  refine hfold _ j fun e he => ?_
  obtain ⟨job, -, hj⟩ := List.mem_flatMap.mp he
  obtain ⟨a, -, ha⟩ := List.mem_map.mp hj
  cases ha

end Broom.Jobs
