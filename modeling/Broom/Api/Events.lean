import Broom.Core.Transition
import Broom.Jobs.Subscription

/-!
# The event stream

The handler of a job's event stream writes every event it receives and resumes after a
drop. When the channel is closed it looks at the job: a final state makes it write the
closing event. While it works, other parties publish, end the job and subscribe.
-/

namespace Broom.Api

open Broom.Core Broom.Engine Broom.Jobs

/-! ## The handler -/

/-- Where the handler stands. -/
inductive Pc
  /-- It is about to subscribe. -/
  | subscribing
  /-- It waits for the next event on a channel. -/
  | receiving (ch : Nat)
  /-- It found the channel closed. -/
  | closed (ch : Nat)
  /-- It saw a job that still runs, and is about to give the channel up. -/
  | dropped (ch : Nat)
  /-- It is about to return. -/
  | leaving (ch : Nat)
  | returned
  deriving DecidableEq, Repr

/-- The channel that the handler's deferred call would give up. -/
def Pc.chan : Pc → Option Nat
  | .receiving ch | .closed ch | .dropped ch | .leaving ch => some ch
  | .subscribing | .returned => none

/-- A job and one handler that streams its events. -/
structure Stream where
  job : Job
  pc : Pc := .subscribing
  lastSeq : Int
  /-- The events written to the client. -/
  written : List Event := []
  /-- The state and the error in the closing event. -/
  done : Option (State × String) := none

/-- A handler that starts after a sequence number. -/
def handleJobEvents (j : Job) (after : Int) : Stream where
  job := j
  lastSeq := after

/-- What can happen next. -/
inductive Act
  /-- Another party operates on the job. -/
  | job (op : JobOp)
  | subscribe
  | receive
  | closed
  | snapshot
  | unsubscribe
  /-- The client has gone. -/
  | disconnect
  | leave

/-- What other parties can do: the handler's channel is its own. -/
def Stream.admits (s : Stream) : JobOp → Bool
  | .unsubscribe i | .receive i => s.pc.chan ≠ some i
  | .publish _ _ | .setState _ _ _ | .subscribe _ | .install => true

/-- Nobody publishes to a finished job. -/
def Stream.Quiet (s : Stream) : Act → Prop
  | .job (.publish _ _) => s.job.state.terminal = false
  | _ => True

/-- One step of the handler or of another party. -/
def Stream.step (s : Stream) : Act → Option Stream
  | .job op => if s.admits op then some { s with job := s.job.step op } else none
  | .subscribe =>
    match s.pc with
    | .subscribing =>
      some { s with job := s.job.subscribe s.lastSeq, pc := .receiving s.job.chans.length }
    | _ => none
  | .receive =>
    match s.pc with
    | .receiving ch =>
      (s.job.receive ch).map fun (ev, j) =>
        { s with job := j, written := s.written ++ [ev], lastSeq := ev.seq }
    | _ => none
  | .closed =>
    match s.pc with
    | .receiving ch =>
      if ∃ c ∈ s.job.chans[ch]?, c.buffer = [] ∧ c.closed = true then
        some { s with pc := .closed ch }
      else none
    | _ => none
  | .snapshot =>
    match s.pc with
    | .closed ch =>
      if s.job.state.terminal then
        some { s with pc := .leaving ch, done := some (s.job.state, s.job.errMsg) }
      -- dropped as a slow subscriber: resume from what was last delivered
      else some { s with pc := .dropped ch }
    | _ => none
  | .unsubscribe =>
    match s.pc with
    | .dropped ch => some { s with job := s.job.unsubscribe ch, pc := .subscribing }
    | _ => none
  | .disconnect =>
    match s.pc with
    | .receiving ch => some { s with pc := .leaving ch }
    | _ => none
  | .leave =>
    match s.pc with
    | .leaving ch => some { s with job := s.job.unsubscribe ch, pc := .returned }
    | _ => none

/-- What the steps do. -/
inductive Stream.Moves (s : Stream) : Act → Stream → Prop
  | job (op : JobOp) (ha : s.admits op = true) : Moves s (.job op) { s with job := s.job.step op }
  | subscribe (hpc : s.pc = .subscribing) :
    Moves s .subscribe
      { s with job := s.job.subscribe s.lastSeq, pc := .receiving s.job.chans.length }
  | receive {ch : Nat} {ev : Event} {j : Job} (hpc : s.pc = .receiving ch)
      (hr : s.job.receive ch = some (ev, j)) :
    Moves s .receive { s with job := j, written := s.written ++ [ev], lastSeq := ev.seq }
  | closed {ch : Nat} {c : Chan} (hpc : s.pc = .receiving ch) (hch : s.job.chans[ch]? = some c)
      (hbuf : c.buffer = []) (hclosed : c.closed = true) :
    Moves s .closed { s with pc := .closed ch }
  | finish {ch : Nat} (hpc : s.pc = .closed ch) (hterm : s.job.state.terminal = true) :
    Moves s .snapshot { s with pc := .leaving ch, done := some (s.job.state, s.job.errMsg) }
  | resume {ch : Nat} (hpc : s.pc = .closed ch) (hrun : s.job.state.terminal = false) :
    Moves s .snapshot { s with pc := .dropped ch }
  | unsubscribe {ch : Nat} (hpc : s.pc = .dropped ch) :
    Moves s .unsubscribe { s with job := s.job.unsubscribe ch, pc := .subscribing }
  | disconnect {ch : Nat} (hpc : s.pc = .receiving ch) :
    Moves s .disconnect { s with pc := .leaving ch }
  | leave {ch : Nat} (hpc : s.pc = .leaving ch) :
    Moves s .leave { s with job := s.job.unsubscribe ch, pc := .returned }

theorem Stream.moves_of_step {s s' : Stream} {a : Act} (hs : s.step a = some s') :
    s.Moves a s' := by
  cases a with
  | job op =>
    obtain ⟨ha, rfl⟩ := Option.ite_some_none_eq_some.mp hs
    exact .job op ha
  | subscribe =>
    simp only [Stream.step] at hs
    split at hs <;> cases hs
    exact .subscribe ‹_›
  | receive =>
    simp only [Stream.step] at hs
    split at hs
    · obtain ⟨⟨ev, j⟩, hr, rfl⟩ := Option.map_eq_some_iff.mp hs
      exact .receive ‹_› hr
    · cases hs
  | closed =>
    simp only [Stream.step] at hs
    split at hs
    · obtain ⟨⟨c, hch, hbuf, hclosed⟩, rfl⟩ := Option.ite_some_none_eq_some.mp hs
      exact .closed ‹_› hch hbuf hclosed
    · cases hs
  | snapshot =>
    simp only [Stream.step] at hs
    split at hs
    · split at hs <;> cases hs
      · exact .finish ‹_› ‹_›
      · exact .resume ‹_› (Bool.not_eq_true _ ▸ ‹_›)
    · cases hs
  | unsubscribe =>
    simp only [Stream.step] at hs
    split at hs <;> cases hs
    exact .unsubscribe ‹_›
  | disconnect =>
    simp only [Stream.step] at hs
    split at hs <;> cases hs
    exact .disconnect ‹_›
  | leave =>
    simp only [Stream.step] at hs
    split at hs <;> cases hs
    exact .leave ‹_›

/-- Only publishing can break the quiet. -/
theorem Stream.quiet_of_ne {s : Stream} {a : Act} (h : ∀ ev now, a ≠ .job (.publish ev now)) :
    s.Quiet a := by
  cases a with
  | job op =>
    cases op with
    | publish ev now => exact absurd rfl (h ev now)
    | _ => trivial
  | _ => trivial

/-- The handler still reads a channel that was closed under it because it was full. -/
def Stream.lagging (s : Stream) : Bool :=
  match s.pc with
  | .receiving ch | .closed ch =>
    !s.job.state.terminal && (s.job.chans[ch]?).any Chan.closed
  | _ => false

/-- The job does not end while the handler is lagging. -/
def Stream.NotCut (s : Stream) : Act → Prop
  | .job (.setState st _ _) => st.terminal = true → s.lagging = false
  | _ => True

end Broom.Api
