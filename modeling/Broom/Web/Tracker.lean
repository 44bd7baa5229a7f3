import Broom.Core.Transition
import Broom.Web.History
import Mathlib.Data.Finset.Insert
import Mathlib.Logic.Function.Basic

/-!
# The job tracker of one tab

The tracker lists the session's jobs, records the finished ones and takes snapshots
from pages. It runs as several activations that wait for the server and for links of
the history's serial chain, so its steps interleave with the chain's, with the pages'
and with the server's. A record of what was stored in a final state, and not deleted
since, is kept beside the model's own state.
-/

namespace Broom.Web

open Broom.Core Broom.Engine

/-! ## State -/

/-- The final states of some jobs. -/
abbrev Outcomes := String → Option Jobs.State

/-- An operation on the history. -/
inductive HistoryOp
  | get (id : String)
  | save (entry : HistoryEntry)
  | markLost (alive : List String)
  | delete (id : String)
  | clear
  | list

/-- Which activation waits for a link of the chain. -/
inductive Waiter
  | nobody
  | refresh
  | record (id : String)
  deriving DecidableEq, Repr

/-- One link of the serial chain. -/
structure ChainLink where
  op : HistoryOp
  waiter : Waiter := .nobody

/-- Where the one activation of `refresh` stands. -/
inductive RefreshPc
  | idle
  /-- The list of jobs has been requested. -/
  | listing
  /-- At the head of the loop over the unfinished jobs. -/
  | live (jobs rest : List JobBrief)
  /-- Waiting for the stored entry of a job. -/
  | checking (jobs : List JobBrief) (j : JobBrief) (rest : List JobBrief)
  /-- The stored entry has been read. -/
  | checked (jobs : List JobBrief) (j : JobBrief) (rest : List JobBrief)
      (existing : Option HistoryEntry)
  /-- Waiting for the placeholder of a job to be stored. -/
  | saving (jobs rest : List JobBrief)
  /-- Waiting for the finished jobs to be recorded. -/
  | recording (jobs : List JobBrief)
  /-- Waiting for the lost entries to be marked. -/
  | marking

/-- Where an activation of `recordFinished` stands. -/
inductive RecordPc
  | getting
  | gotten (existing : Option HistoryEntry)
  | fetching
  | saving

structure Tracker where
  /-- The final states that the server's jobs have reached. -/
  outcome : Outcomes := fun _ => none
  stored : List HistoryEntry := []
  chain : List ChainLink := []
  /-- Ids whose final record is already in the history, or on its way. -/
  saved : Finset String := ∅
  /-- Ids whose placeholder is. -/
  seen : Finset String := ∅
  running : List JobBrief := []
  refresh : RefreshPc := .idle
  records : List (String × RecordPc) := []
  /-- The final states that have been stored and not been deleted since. -/
  settled : Outcomes := fun _ => none

/-! ## The serial chain -/

/-- Put an operation at the end of the chain. -/
def Tracker.serial (t : Tracker) (op : HistoryOp) (waiter : Waiter) : Tracker :=
  { t with chain := t.chain ++ [⟨op, waiter⟩] }

/-- The stored list after an operation. -/
def HistoryOp.apply (rt : Runtime) (now : Int) (all : List HistoryEntry) :
    HistoryOp → List HistoryEntry
  | .get _ => all
  | .save entry => saveHistory rt all entry
  | .markLost alive => markLostHistory rt all alive now 60000
  | .delete id => deleteHistory all id
  | .clear => []
  | .list => all

/-- What the operation returns to the activation that waits for it. -/
def HistoryOp.reply (all : List HistoryEntry) : HistoryOp → Option HistoryEntry
  | .get id => getHistory all id
  | _ => none

/-- The final states on record after an operation. -/
def settle (op : HistoryOp) (settled : Outcomes) : Outcomes :=
  match op with
  | .save entry =>
    match entry.state with
    | .job s => if s.terminal then Function.update settled entry.id (some s) else settled
    | .lost => settled
  | .delete id => Function.update settled id none
  | .clear => fun _ => none
  | .get _ | .markLost _ | .list => settled

/-- The step of an activation of `recordFinished` when its link is done. -/
def RecordPc.wake (existing : Option HistoryEntry) : RecordPc → Option RecordPc
  | .getting => some (.gotten existing)
  | .gotten e => some (.gotten e)
  | .fetching => some .fetching
  | .saving => none

/-- Wake the activation that waited for a link. -/
def Tracker.wake (t : Tracker) (existing : Option HistoryEntry) : Waiter → Tracker
  | .nobody => t
  | .refresh =>
    match t.refresh with
    | .checking jobs j rest => { t with refresh := .checked jobs j rest existing }
    | .saving jobs rest => { t with refresh := .live jobs rest }
    | .marking => { t with refresh := .idle }
    | _ => t
  | .record id =>
    { t with records := t.records.filterMap fun p =>
        if p.1 = id then (p.2.wake existing).map (p.1, ·) else some p }

/-! ## Activations -/

/-- Begin to record a finished job. -/
def Tracker.recordFinished (t : Tracker) (id : String) : Tracker :=
  if id ∈ t.saved then t
  else { t.serial (.get id) (.record id) with
    saved := insert id t.saved, records := t.records ++ [(id, .getting)] }

/-- Move an activation of `recordFinished`; none ends it. -/
def Tracker.setRecord (t : Tracker) (id : String) (pc : Option RecordPc) : Tracker :=
  { t with records := t.records.filterMap fun p => if p.1 = id then pc.map (id, ·) else some p }

/-- The server's answers: a final state is the job's own, an earlier one may be stale. -/
def possible (outcome : Outcomes) (id : String) (s : Jobs.State) : Bool :=
  s.terminal → outcome id = some s

/-- The state that the server answers with now. -/
def current (outcome : Outcomes) (id : String) (s : Jobs.State) : Bool :=
  match outcome id with
  | some final => s = final
  | none => !s.terminal

/-- The indicator would show the same of two versions of a job. -/
def sameShown (x y : JobBrief) : Bool :=
  x.state = y.state ∧ x.phase = y.phase ∧ x.deleted = y.deleted ∧ x.found = y.found

/-- The indicator would show the same of two lists. -/
def sameRunning (a b : List JobBrief) : Bool :=
  a.length = b.length ∧ (a.zip b).all fun p => p.1.id = p.2.id ∧ sameShown p.1 p.2

/-- The list of running jobs with one brought up to date. -/
def updateRunning (rt : Runtime) (running : List JobBrief) (b : JobBrief) : List JobBrief :=
  match running.findIdx? fun j => j.id = b.id with
  | none => (b :: running).insertionSort fun x y => newestFirst rt x.createdAt y.createdAt
  | some i =>
    if (running[i]?).any fun cur => sameShown cur b then running else running.set i b

/-- Take a snapshot from a page. -/
def Tracker.sync (rt : Runtime) (t : Tracker) (job : Job) : Tracker :=
  if job.state.terminal then
    let t := { t with running := t.running.filter fun j => j.id ≠ job.id }
    if job.id ∈ t.saved then t
    else { t.serial (.save (toHistory job)) .nobody with saved := insert job.id t.saved }
  else
    let t := { t with running := updateRunning rt t.running (briefOf job) }
    if job.id ∈ t.seen then t
    else { t.serial (.save (toHistory job)) .nobody with seen := insert job.id t.seen }

/-! ## Steps -/

inductive TrackerAction
  /-- A job of the server reaches a final state. -/
  | finish (id : String) (s : Jobs.State)
  | refresh
  | listFailed
  | listed (jobs : List JobBrief)
  /-- The loop over the unfinished jobs goes on. -/
  | next
  /-- `refresh` goes on with the entry it waited for. -/
  | resume
  | recorded
  /-- An activation of `recordFinished` goes on with the entry it waited for. -/
  | resumeRecord (id : String)
  | fetched (id : String) (job : Job)
  | fetchFailed (id : String)
  | sync (job : Job)
  /-- The first link of the chain is done. -/
  | link (now : Int)
  | delete (id : String)
  | clear
  /-- The session is gone, and the placeholders are forgotten. -/
  | disconnect

/-- An entry that `recordFinished` leaves alone. -/
def recordedFinally (existing : Option HistoryEntry) : Bool :=
  existing.any fun e => isHistoryTerminal e.state && e.state ≠ .lost

/-- The position of an activation of `recordFinished`. -/
def Tracker.recordPc (t : Tracker) (id : String) : Option RecordPc := t.records.lookup id

/-- One step of the tab. -/
def Tracker.step (rt : Runtime) (t : Tracker) : TrackerAction → Option Tracker
  | .finish id s =>
    if s.terminal ∧ t.outcome id = none then
      some { t with outcome := Function.update t.outcome id (some s) }
    else none
  | .refresh =>
    match t.refresh with
    | .idle => some { t with refresh := .listing }
    | _ => some t
  | .listFailed =>
    match t.refresh with
    | .listing => some { t with refresh := .idle }
    | _ => none
  | .listed jobs =>
    match t.refresh with
    | .listing =>
      if jobs.all fun j => possible t.outcome j.id j.state then
        let live := jobs.filter fun j => !j.state.terminal
        some { t with running := if sameRunning t.running live then t.running else live
                      refresh := .live jobs live }
      else none
    | _ => none
  | .next =>
    match t.refresh with
    | .live jobs (j :: rest) =>
      if j.id ∈ t.seen then some { t with refresh := .live jobs rest }
      else some { t.serial (.get j.id) .refresh with
        seen := insert j.id t.seen, refresh := .checking jobs j rest }
    | .live jobs [] =>
      some { (jobs.filter fun j => j.state.terminal).foldl (fun t j => t.recordFinished j.id) t with
        refresh := .recording jobs }
    | _ => none
  | .resume =>
    match t.refresh with
    | .checked jobs j rest none =>
      some { t.serial (.save (briefToHistory j)) .refresh with refresh := .saving jobs rest }
    | .checked jobs _ rest (some _) => some { t with refresh := .live jobs rest }
    | _ => none
  | .recorded =>
    match t.refresh with
    | .recording jobs =>
      if t.records.isEmpty then
        some { t.serial (.markLost (jobs.map JobBrief.id)) .refresh with refresh := .marking }
      else none
    | _ => none
  | .resumeRecord id =>
    match t.recordPc id with
    | some (.gotten existing) =>
      some (t.setRecord id (if recordedFinally existing then none else some .fetching))
    | _ => none
  | .fetched id job =>
    match t.recordPc id with
    | some .fetching =>
      if job.id = id ∧ current t.outcome id job.state then
        some ((t.serial (.save (toHistory job)) (.record id)).setRecord id (some .saving))
      else none
    | _ => none
  | .fetchFailed id =>
    match t.recordPc id with
    | some .fetching => some { t.setRecord id none with saved := t.saved.erase id }
    | _ => none
  | .sync job =>
    if possible t.outcome job.id job.state then some (t.sync rt job) else none
  | .link now =>
    match t.chain with
    | l :: rest =>
      some (Tracker.wake
        { t with
          chain := rest
          stored := l.op.apply rt now t.stored
          settled := settle l.op t.settled }
        (l.op.reply t.stored) l.waiter)
    | [] => none
  | .delete id => some (t.serial (.delete id) .nobody)
  | .clear => some (t.serial .clear .nobody)
  | .disconnect => some { t with seen := ∅, running := [] }

/-! ## What the steps do -/

/-- What the steps of the tab do, and what the tab has checked before each. -/
inductive Tracker.Moves (rt : Runtime) (t : Tracker) : TrackerAction → Tracker → Prop
  | finish {id : String} {s : Jobs.State} (hterm : s.terminal = true)
      (hnone : t.outcome id = none) :
      Moves rt t (.finish id s) { t with outcome := Function.update t.outcome id (some s) }
  | refresh (hpc : t.refresh = .idle) : Moves rt t .refresh { t with refresh := .listing }
  /-- The one activation of `refresh` is under way. -/
  | refreshBusy : Moves rt t .refresh t
  | listFailed (hpc : t.refresh = .listing) : Moves rt t .listFailed { t with refresh := .idle }
  | listed {jobs : List JobBrief} (hpc : t.refresh = .listing)
      (hpossible : ∀ j ∈ jobs, possible t.outcome j.id j.state = true) {live : List JobBrief}
      (hlive : live = jobs.filter fun j => !j.state.terminal) :
      Moves rt t (.listed jobs) { t with
        running := if sameRunning t.running live then t.running else live
        refresh := .live jobs live }
  /-- The job has its placeholder. -/
  | nextSeen {jobs rest : List JobBrief} {j : JobBrief} (hpc : t.refresh = .live jobs (j :: rest))
      (hseen : j.id ∈ t.seen) :
      Moves rt t .next { t with refresh := .live jobs rest }
  | nextCheck {jobs rest : List JobBrief} {j : JobBrief}
      (hpc : t.refresh = .live jobs (j :: rest)) (hseen : j.id ∉ t.seen) :
      Moves rt t .next { t.serial (.get j.id) .refresh with
        seen := insert j.id t.seen, refresh := .checking jobs j rest }
  /-- The loop has ended. -/
  | nextRecord {jobs : List JobBrief} (hpc : t.refresh = .live jobs []) :
      Moves rt t .next { (jobs.filter fun j => j.state.terminal).foldl
          (fun t j => t.recordFinished j.id) t with
        refresh := .recording jobs }
  | resumeSave {jobs rest : List JobBrief} {j : JobBrief}
      (hpc : t.refresh = .checked jobs j rest none) :
      Moves rt t .resume { t.serial (.save (briefToHistory j)) .refresh with
        refresh := .saving jobs rest }
  | resumeSkip {jobs rest : List JobBrief} {j : JobBrief} {existing : HistoryEntry}
      (hpc : t.refresh = .checked jobs j rest (some existing)) :
      Moves rt t .resume { t with refresh := .live jobs rest }
  | recorded {jobs : List JobBrief} (hpc : t.refresh = .recording jobs)
      (hrecords : t.records.isEmpty = true) :
      Moves rt t .recorded { t.serial (.markLost (jobs.map JobBrief.id)) .refresh with
        refresh := .marking }
  | resumeRecord {id : String} {existing : Option HistoryEntry}
      (hpc : t.recordPc id = some (.gotten existing)) :
      Moves rt t (.resumeRecord id)
        (t.setRecord id (if recordedFinally existing then none else some .fetching))
  | fetched {job : Job} (hpc : t.recordPc job.id = some .fetching)
      (hcur : current t.outcome job.id job.state = true) :
      Moves rt t (.fetched job.id job)
        ((t.serial (.save (toHistory job)) (.record job.id)).setRecord job.id (some .saving))
  | fetchFailed {id : String} (hpc : t.recordPc id = some .fetching) :
      Moves rt t (.fetchFailed id) { t.setRecord id none with saved := t.saved.erase id }
  | sync {job : Job} (hpossible : possible t.outcome job.id job.state = true) :
      Moves rt t (.sync job) (t.sync rt job)
  | link {now : Int} {l : ChainLink} {rest : List ChainLink} (hchain : t.chain = l :: rest) :
      Moves rt t (.link now) (Tracker.wake
        { t with
          chain := rest
          stored := l.op.apply rt now t.stored
          settled := settle l.op t.settled }
        (l.op.reply t.stored) l.waiter)
  | delete {id : String} : Moves rt t (.delete id) (t.serial (.delete id) .nobody)
  | clear : Moves rt t .clear (t.serial .clear .nobody)
  | disconnect : Moves rt t .disconnect { t with seen := ∅, running := [] }

theorem Tracker.moves_of_step {rt : Runtime} {t t' : Tracker} {a : TrackerAction}
    (hstep : t.step rt a = some t') : t.Moves rt a t' := by
  cases a with
  | finish id s =>
    simp only [Tracker.step, Option.ite_none_right_eq_some, Option.some.injEq] at hstep
    obtain ⟨⟨hterm, hnone⟩, rfl⟩ := hstep
    exact .finish hterm hnone
  | refresh =>
    simp only [Tracker.step] at hstep
    split at hstep <;> obtain rfl := Option.some.inj hstep
    · rename_i hpc
      exact .refresh hpc
    · exact .refreshBusy
  | listFailed =>
    simp only [Tracker.step] at hstep
    split at hstep
    · rename_i hpc
      obtain rfl := Option.some.inj hstep
      exact .listFailed hpc
    · cases hstep
  | listed jobs =>
    simp only [Tracker.step] at hstep
    split at hstep
    · rename_i hpc
      split at hstep
      · rename_i hpossible
        obtain rfl := Option.some.inj hstep
        exact .listed hpc (List.all_eq_true.mp hpossible) rfl
      · cases hstep
    · cases hstep
  | next =>
    simp only [Tracker.step] at hstep
    split at hstep
    · rename_i jobs j rest hpc
      split at hstep <;> obtain rfl := Option.some.inj hstep
      · exact .nextSeen hpc ‹_›
      · exact .nextCheck hpc ‹_›
    · rename_i jobs hpc
      obtain rfl := Option.some.inj hstep
      exact .nextRecord hpc
    · cases hstep
  | resume =>
    simp only [Tracker.step] at hstep
    split at hstep
    · rename_i jobs j rest hpc
      obtain rfl := Option.some.inj hstep
      exact .resumeSave hpc
    · rename_i jobs j rest existing hpc
      obtain rfl := Option.some.inj hstep
      exact .resumeSkip hpc
    · cases hstep
  | recorded =>
    simp only [Tracker.step] at hstep
    split at hstep
    · rename_i jobs hpc
      split at hstep
      · rename_i hrecords
        obtain rfl := Option.some.inj hstep
        exact .recorded hpc hrecords
      · cases hstep
    · cases hstep
  | resumeRecord id =>
    simp only [Tracker.step] at hstep
    split at hstep
    · rename_i existing hpc
      obtain rfl := Option.some.inj hstep
      exact .resumeRecord hpc
    · cases hstep
  | fetched id job =>
    simp only [Tracker.step] at hstep
    split at hstep
    · rename_i hpc
      split at hstep
      · rename_i hjob
        obtain rfl := Option.some.inj hstep
        obtain ⟨rfl, hcur⟩ := hjob
        exact .fetched hpc hcur
      · cases hstep
    · cases hstep
  | fetchFailed id =>
    simp only [Tracker.step] at hstep
    split at hstep
    · rename_i hpc
      obtain rfl := Option.some.inj hstep
      exact .fetchFailed hpc
    · cases hstep
  | sync job =>
    simp only [Tracker.step, Option.ite_none_right_eq_some, Option.some.injEq] at hstep
    obtain ⟨hpossible, rfl⟩ := hstep
    exact .sync hpossible
  | link now =>
    simp only [Tracker.step] at hstep
    split at hstep
    · rename_i l rest hchain
      obtain rfl := Option.some.inj hstep
      exact .link hchain
    · cases hstep
  | delete id =>
    obtain rfl := Option.some.inj hstep
    exact .delete
  | clear =>
    obtain rfl := Option.some.inj hstep
    exact .clear
  | disconnect =>
    obtain rfl := Option.some.inj hstep
    exact .disconnect

end Broom.Web
