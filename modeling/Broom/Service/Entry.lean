import Broom.Api.Nukes
import Broom.Jobs.Supervisor

/-!
# Jobs and their workers

An entry is a job with everything that acts on it: the request that starts its worker
step by step, the worker process, the context of the process, and the goroutine that
supervises it. Cancelling a job is two steps, reading its cancel function and acting on
what was read; only the second changes the job.
-/

namespace Broom.Service

open Broom.Api Broom.Engine Broom.Jobs

/-! ## Entries -/

/-- Where the request that starts a job stands. -/
inductive StartPc
  /-- The job is registered. -/
  | admitted
  /-- Its cancel function is installed. -/
  | installed
  /-- The worker could not be started. -/
  | failing
  /-- The worker process runs. -/
  | launched
  | returned
  deriving DecidableEq, Repr

/-- The worker process and the goroutine that supervises it. -/
inductive Worker
  /-- No process was started. -/
  | absent
  | live
  /-- The process has exited, and its output may not be read to the end. -/
  | exited
  /-- The goroutine has returned. -/
  | reaped
  deriving DecidableEq, Repr

/-- What a job was created for. -/
inductive Request
  | scan
  | nuke (body : CreateNukeRequest)
  deriving DecidableEq, Repr

/-- A job of the store. -/
structure Entry where
  job : Job
  request : Request
  start : StartPc := .admitted
  worker : Worker := .absent
  /-- Why the worker's context is done. -/
  ctxErr : Option CtxErr := none
  /-- The store still knows the job. -/
  listed : Bool := true

/-- The worker's output is still being read. -/
def Worker.running : Worker → Bool
  | .live | .exited => true
  | .absent | .reaped => false

/-- The operations that readers of a job perform. -/
def watches : JobOp → Bool
  | .subscribe _ | .unsubscribe _ | .receive _ => true
  | .publish _ _ | .setState _ _ _ | .install => false

/-- The context is cancelled, unless it was done before. -/
def Entry.cancelCtx (e : Entry) : Entry := { e with ctxErr := e.ctxErr.or (some .canceled) }

/-! ## Steps -/

/-- What can happen to a job. -/
inductive EntryAct
  | install
  /-- `Start` returns an error. -/
  | startFails
  | launch
  | setRunning (now : Nat)
  | fail (now : Nat)
  /-- The timeout passes, or the server's base context is cancelled. -/
  | expire (err : CtxErr)
  | publish (ev : Event) (now : Nat)
  | exit
  | finish (waitErr : Option String) (sawFatal : String) (now : Nat)
  /-- The reaper of the store forgets a finished job. -/
  | sweep
  | watch (op : JobOp)
  /-- `Cancel` acts on what it read: whether there was a cancel function. -/
  | cancel (read : Bool) (now : Nat)

/-- One step of a job. -/
def Entry.step (e : Entry) : EntryAct → Option Entry
  | .install =>
    if e.start = .admitted then some { e with job := e.job.step .install, start := .installed }
    else none
  | .startFails =>
    match e.start with
    | .admitted => some { e with start := .failing }
    | .installed => some { e.cancelCtx with start := .failing }
    | _ => none
  | .launch =>
    -- starting a command fails when its context is done already
    if e.start = .installed ∧ e.ctxErr = none then
      some { e with start := .launched, worker := .live }
    else none
  | .setRunning now =>
    if e.start = .launched then
      some { e with job := e.job.setState .running "" now, start := .returned }
    else none
  | .fail now =>
    if e.start = .failing then
      some { e with job := e.job.fail "could not start worker" now, start := .returned }
    else none
  | .expire err =>
    if e.job.cancel then some { e with ctxErr := e.ctxErr.or (some err) } else none
  | .publish ev now =>
    if e.start = .returned ∧ e.worker.running then some { e with job := e.job.publish ev now }
    else none
  | .exit => if e.worker = .live then some { e with worker := .exited } else none
  | .finish waitErr sawFatal now =>
    if e.start = .returned ∧ e.worker = .exited then
      some { e.cancelCtx with
        job := e.job.setState (exitState e.ctxErr waitErr sawFatal).1
          (exitState e.ctxErr waitErr sawFatal).2 now
        worker := .reaped }
    else none
  | .sweep => if e.job.finishedAt ≠ 0 then some { e with listed := false } else none
  | .watch op => if watches op then some { e with job := e.job.step op } else none
  | .cancel read now =>
    if read then some e.cancelCtx
    else some { e with job := e.job.setState .cancelled "cancelled before start" now }

/-- What the steps do. -/
inductive Entry.Moves (e : Entry) : EntryAct → Entry → Prop
  | install (h : e.start = .admitted) :
    Moves e .install { e with job := e.job.step .install, start := .installed }
  | startFails (h : e.start = .admitted) : Moves e .startFails { e with start := .failing }
  | startCancelled (h : e.start = .installed) :
    Moves e .startFails { e.cancelCtx with start := .failing }
  | launch (h : e.start = .installed) (hctx : e.ctxErr = none) :
    Moves e .launch { e with start := .launched, worker := .live }
  | setRunning (now : Nat) (h : e.start = .launched) :
    Moves e (.setRunning now)
      { e with job := e.job.setState .running "" now, start := .returned }
  | fail (now : Nat) (h : e.start = .failing) :
    Moves e (.fail now)
      { e with job := e.job.fail "could not start worker" now, start := .returned }
  | expire (err : CtxErr) (h : e.job.cancel = true) :
    Moves e (.expire err) { e with ctxErr := e.ctxErr.or (some err) }
  | publish (ev : Event) (now : Nat) (h : e.start = .returned) (hw : e.worker.running = true) :
    Moves e (.publish ev now) { e with job := e.job.publish ev now }
  | exit (h : e.worker = .live) : Moves e .exit { e with worker := .exited }
  | finish (waitErr : Option String) (sawFatal : String) (now : Nat) (h : e.start = .returned)
      (hw : e.worker = .exited) :
    Moves e (.finish waitErr sawFatal now) { e.cancelCtx with
      job := e.job.setState (exitState e.ctxErr waitErr sawFatal).1
        (exitState e.ctxErr waitErr sawFatal).2 now
      worker := .reaped }
  | sweep (h : e.job.finishedAt ≠ 0) : Moves e .sweep { e with listed := false }
  | watch (op : JobOp) (h : watches op = true) :
    Moves e (.watch op) { e with job := e.job.step op }
  | cancel (now : Nat) : Moves e (.cancel true now) e.cancelCtx
  | cancelEarly (now : Nat) :
    Moves e (.cancel false now)
      { e with job := e.job.setState .cancelled "cancelled before start" now }

theorem Entry.moves_of_step {e e' : Entry} {a : EntryAct} (h : e.step a = some e') :
    e.Moves a e' := by
  cases a with
  | startFails =>
    simp only [Entry.step] at h
    split at h <;> cases h
    · exact .startFails ‹_›
    · exact .startCancelled ‹_›
  | cancel read now =>
    cases read with
    | true =>
      obtain rfl := Option.some.inj h
      exact .cancel now
    | false =>
      obtain rfl := Option.some.inj h
      exact .cancelEarly now
  | launch =>
    obtain ⟨⟨hs, hctx⟩, rfl⟩ := Option.ite_some_none_eq_some.mp h
    exact .launch hs hctx
  | publish ev now =>
    obtain ⟨⟨hs, hw⟩, rfl⟩ := Option.ite_some_none_eq_some.mp h
    exact .publish ev now hs hw
  | finish waitErr sawFatal now =>
    obtain ⟨⟨hs, hw⟩, rfl⟩ := Option.ite_some_none_eq_some.mp h
    exact .finish waitErr sawFatal now hs hw
  | install =>
    obtain ⟨hs, rfl⟩ := Option.ite_some_none_eq_some.mp h
    exact .install hs
  | setRunning now =>
    obtain ⟨hs, rfl⟩ := Option.ite_some_none_eq_some.mp h
    exact .setRunning now hs
  | fail now =>
    obtain ⟨hs, rfl⟩ := Option.ite_some_none_eq_some.mp h
    exact .fail now hs
  | expire err =>
    obtain ⟨hs, rfl⟩ := Option.ite_some_none_eq_some.mp h
    exact .expire err hs
  | exit =>
    obtain ⟨hs, rfl⟩ := Option.ite_some_none_eq_some.mp h
    exact .exit hs
  | sweep =>
    obtain ⟨hs, rfl⟩ := Option.ite_some_none_eq_some.mp h
    exact .sweep hs
  | watch op =>
    obtain ⟨hs, rfl⟩ := Option.ite_some_none_eq_some.mp h
    exact .watch op hs

/-! ## What always holds -/

/-- The workers that go with a stage of the start. -/
def StartPc.fits : StartPc → Worker → Bool
  | .admitted, w | .installed, w | .failing, w => w = .absent
  | .launched, w => w.running
  | .returned, _ => true

/-- How far a job has come shows in its fields. -/
structure Entry.Sound (e : Entry) : Prop where
  fits : e.start.fits e.worker = true
  installed : e.start = .installed ∨ e.worker ≠ .absent → e.job.cancel = true
  failed : e.start = .returned → e.worker = .absent → e.job.state.terminal = true
  reaped : e.worker = .reaped → e.job.state.terminal = true ∧ e.ctxErr.isSome = true
  unlisted : e.listed = false ∨ e.job.finishedAt ≠ 0 → e.job.state.terminal = true
  succeeded : e.job.state = .succeeded → e.worker = .reaped

/-- Watching a job changes nothing but its channels. -/
theorem body_watch {op : JobOp} (h : watches op = true) (j : Job) : (j.step op).body = j.body := by
  cases op with
  | subscribe afterSeq => rfl
  | unsubscribe i => exact j.body_unsubscribe i
  | receive i => exact j.body_receive i
  | publish ev now | setState s errMsg now | install => cases h

/-- The end of a worker is a final state. -/
theorem exitState_terminal (ctxErr : Option CtxErr) (waitErr : Option String) (sawFatal : String) :
    (exitState ctxErr waitErr sawFatal).1.terminal = true := by
  rcases ctxErr with - | - | - <;> cases waitErr <;> rfl

/-- A stage before the launch has no worker. -/
theorem Entry.Sound.absent {e : Entry} (h : e.Sound)
    (hs : e.start = .admitted ∨ e.start = .installed ∨ e.start = .failing) :
    e.worker = .absent := by
  have hfits := h.fits
  rcases hs with hs | hs | hs <;> simpa [hs, StartPc.fits] using hfits

/-- A final state other than success leaves the entry as it should be. -/
theorem Entry.Sound.setState {e : Entry} (h : e.Sound) {s : State} (hs : s ≠ .succeeded)
    (errMsg : String) (now : Nat) :
    { e with job := e.job.setState s errMsg now }.Sound := by
  obtain ⟨-, -, hcancel, -⟩ := e.job.setState_same s errMsg now
  have hterm := e.job.setState_terminal s errMsg now
  refine ⟨h.fits, fun hi => hcancel.trans (h.installed hi), fun hr hw => ?_, fun hw => ?_, ?_, ?_⟩
  · rw [hterm, h.failed hr hw, Bool.true_or]
  · rw [hterm, (h.reaped hw).1, Bool.true_or]
    exact ⟨rfl, (h.reaped hw).2⟩
  · rintro (hl | hf)
    · rw [hterm, h.unlisted (.inl hl), Bool.true_or]
    · rcases Job.setState_finishedAt hf with hf | ht
      · rw [hterm, h.unlisted (.inr hf), Bool.true_or]
      · exact ht
  · intro hsucc
    rw [Job.setState_state] at hsucc
    split at hsucc
    · exact h.succeeded hsucc
    · exact absurd hsucc hs

/-- Every step keeps a job as it should be. -/
theorem Entry.Sound.step {e e' : Entry} {a : EntryAct} (h : e.Sound) (hm : e.Moves a e') :
    e'.Sound := by
  cases hm with
  | install hs =>
    have hw := h.absent (.inl hs)
    exact ⟨by simp [StartPc.fits, hw], fun _ => rfl, by simp, h.reaped, h.unlisted, h.succeeded⟩
  | startFails hs =>
    have hw := h.absent (.inl hs)
    exact ⟨by simp [StartPc.fits, hw], by simp [hw], by simp, h.reaped, h.unlisted, h.succeeded⟩
  | startCancelled hs =>
    have hw := h.absent (.inr (.inl hs))
    refine ⟨by simp [StartPc.fits, Entry.cancelCtx, hw], by simp [Entry.cancelCtx, hw], by simp,
      fun hr => ?_, h.unlisted, h.succeeded⟩
    exact absurd (hw.symm.trans hr) (by decide)
  | launch hs hctx =>
    have hw := h.absent (.inr (.inl hs))
    refine ⟨rfl, fun _ => h.installed (.inl hs), by simp, by simp, h.unlisted, fun hsucc => ?_⟩
    exact absurd (hw.symm.trans (h.succeeded hsucc)) (by decide)
  | setRunning now hs =>
    have hset := h.setState (s := .running) (by decide) "" now
    have hfits := h.fits
    rw [hs, StartPc.fits] at hfits
    refine ⟨rfl, fun hi => hset.installed (.inr (hi.resolve_left (by simp))), fun _ hw => ?_,
      hset.reaped, hset.unlisted, hset.succeeded⟩
    have hw : e.worker = .absent := hw
    rw [hw] at hfits
    cases hfits
  | fail now hs =>
    have hset := h.setState (s := .failed) (by decide) "could not start worker" now
    refine ⟨rfl, fun hi => hset.installed (.inr (hi.resolve_left (by simp))), fun _ _ => ?_,
      hset.reaped, hset.unlisted, hset.succeeded⟩
    exact (e.job.setState_terminal .failed _ now).trans (Bool.or_true _)
  | expire err hc =>
    refine ⟨h.fits, h.installed, h.failed, fun hw => ?_, h.unlisted, h.succeeded⟩
    exact ⟨(h.reaped hw).1, by simp⟩
  | publish ev now hs hw =>
    obtain ⟨-, -, hst, hfin, hcancel, -⟩ := e.job.publish_same ev now
    refine ⟨h.fits, fun hi => hcancel.trans (h.installed hi), ?_, ?_, ?_, ?_⟩
    · simpa only [hst] using h.failed
    · simpa only [hst] using h.reaped
    · simpa only [hst, hfin] using h.unlisted
    · simpa only [hst] using h.succeeded
  | exit hw =>
    have hfits := h.fits
    rw [hw] at hfits
    refine ⟨?_, fun _ => h.installed (.inr (by simp [hw])), by simp, by simp, h.unlisted,
      fun hsucc => ?_⟩
    · revert hfits
      cases e.start <;> simp [StartPc.fits, Worker.running]
    · exact absurd (hw.symm.trans (h.succeeded hsucc)) (by decide)
  | finish waitErr sawFatal now hs hw =>
    obtain ⟨-, -, hcancel, -⟩ := e.job.setState_same (exitState e.ctxErr waitErr sawFatal).1
      (exitState e.ctxErr waitErr sawFatal).2 now
    have hterm := (e.job.setState_terminal (exitState e.ctxErr waitErr sawFatal).1
      (exitState e.ctxErr waitErr sawFatal).2 now).trans
      ((congrArg _ (exitState_terminal ..)).trans (Bool.or_true _))
    refine ⟨by simp [Entry.cancelCtx, hs, StartPc.fits],
      fun _ => hcancel.trans (h.installed (.inr (by simp [hw]))), fun _ _ => hterm,
      fun _ => ⟨hterm, by simp [Entry.cancelCtx]⟩, fun _ => hterm, fun _ => rfl⟩
  | sweep hf =>
    exact ⟨h.fits, h.installed, h.failed, h.reaped, fun _ => h.unlisted (.inr hf), h.succeeded⟩
  | watch op hop =>
    have hb := body_watch hop e.job
    have hst : (e.job.step op).state = e.job.state := (congrArg Job.state hb :)
    have hfin : (e.job.step op).finishedAt = e.job.finishedAt := (congrArg Job.finishedAt hb :)
    have hcancel : (e.job.step op).cancel = e.job.cancel := (congrArg Job.cancel hb :)
    refine ⟨h.fits, fun hi => hcancel.trans (h.installed hi), ?_, ?_, ?_, ?_⟩
    · simpa only [hst] using h.failed
    · simpa only [hst] using h.reaped
    · simpa only [hst, hfin] using h.unlisted
    · simpa only [hst] using h.succeeded
  | cancel now =>
    refine ⟨h.fits, h.installed, h.failed, fun hw => ?_, h.unlisted, h.succeeded⟩
    exact ⟨(h.reaped hw).1, by simp [Entry.cancelCtx]⟩
  | cancelEarly now => exact h.setState (by decide) _ now

/-- A job stays with its session and keeps its spec. -/
theorem Entry.Moves.identity_eq {e e' : Entry} {a : EntryAct} (h : e.Moves a e') :
    e'.job.identity = e.job.identity := by
  have hset (s : State) (errMsg : String) (now : Nat) :
      (e.job.setState s errMsg now).identity = e.job.identity :=
    (e.job.setState_same s errMsg now).2.2.2
  cases h with
  | setRunning | fail | finish | cancelEarly => exact hset ..
  | publish ev now => exact (e.job.publish_same ev now).2.2.2.2.2
  | watch op hop => exact (congrArg Job.identity (body_watch hop e.job) :)
  | _ => rfl

theorem Entry.Moves.sessionId_eq {e e' : Entry} {a : EntryAct} (h : e.Moves a e') :
    e'.job.sessionId = e.job.sessionId :=
  congrArg (fun p : String × String × String × Engine.Spec => p.2.1) h.identity_eq

theorem Entry.Moves.spec_eq {e e' : Entry} {a : EntryAct} (h : e.Moves a e') :
    e'.job.spec = e.job.spec :=
  congrArg (fun p : String × String × String × Engine.Spec => p.2.2.2) h.identity_eq

theorem Entry.Moves.request_eq {e e' : Entry} {a : EntryAct} (h : e.Moves a e') :
    e'.request = e.request := by
  cases h <;> rfl

end Broom.Service
