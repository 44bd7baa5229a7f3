import Broom.Service.Server

/-!
# Cancelled jobs

A cancellation that comes before the cancel function is installed marks the job and leaves
the start of its worker alone. As long as no worker is started after such a mark, and no
such mark falls on a running worker, a finished job has no live worker and gets no events.
-/

namespace Broom.Service

open Broom.Api Broom.Core Broom.Engine Broom.Jobs

/-! ## One job -/

/-- A step in which the start of a worker and an early cancellation miss each other. -/
def Entry.Untimely (e : Entry) : EntryAct → Prop
  | .launch => e.job.state.terminal = true
  | .cancel false _ => e.worker.running = true ∧ e.job.state.terminal = false
  | _ => False

instance (e : Entry) : DecidablePred e.Untimely
  | .launch => inferInstanceAs (Decidable (_ = _))
  | .cancel false _ => inferInstanceAs (Decidable (_ ∧ _))
  | .cancel true _ | .install | .startFails | .setRunning _ | .fail _ | .expire _ | .publish _ _
  | .exit | .finish _ _ _ | .sweep | .watch _ => .isFalse id

/-- A finished job has no worker, or one that is done. -/
def Entry.Quiet (e : Entry) : Prop :=
  e.job.state.terminal = true → e.worker = .absent ∨ e.worker = .reaped

/-- A job that is finished stays in its state. -/
theorem Entry.Moves.state_eq {e e' : Entry} {a : EntryAct} (h : e.Moves a e')
    (ht : e.job.state.terminal = true) : e'.job.state = e.job.state := by
  have hset (s : State) (errMsg : String) (now : Nat) :
      (e.job.setState s errMsg now).state = e.job.state := by
    rw [Job.setState_state, if_pos ht]
  cases h with
  | setRunning | fail | finish | cancelEarly => exact hset ..
  | publish ev now => exact (e.job.publish_same ev now).2.2.1
  | watch op hop => exact (congrArg Job.state (body_watch hop e.job) :)
  | _ => rfl

/-- Timely steps keep a finished job quiet. -/
theorem Entry.Quiet.step {e e' : Entry} {a : EntryAct} (h : e.Quiet) (hs : e.Sound)
    (hm : e.Moves a e') (ha : ¬ e.Untimely a) : e'.Quiet := by
  cases hm with
  | install hstart => exact h
  | startFails hstart => exact h
  | startCancelled hstart => exact h
  | launch hstart hctx => exact fun ht => absurd ht ha
  | setRunning now hstart =>
    intro ht
    rw [Job.setState_terminal, State.terminal, Bool.or_false] at ht
    exact h ht
  | fail now hstart => exact fun _ => .inl (hs.absent (.inr (.inr hstart)))
  | expire err hc => exact h
  | publish ev now hstart hw =>
    intro ht
    rw [(e.job.publish_same ev now).2.2.1] at ht
    exact h ht
  | exit hw =>
    intro ht
    rcases h ht with hw' | hw' <;> rw [hw] at hw' <;> cases hw'
  | finish waitErr sawFatal now hstart hw => exact fun _ => .inr rfl
  | sweep hf => exact h
  | watch op hop =>
    have hst : (e.job.step op).state = e.job.state :=
      (congrArg Job.state (body_watch hop e.job) :)
    intro ht
    rw [hst] at ht
    exact h ht
  | cancel now => exact h
  | cancelEarly now =>
    intro _
    cases hworker : e.worker with
    | absent => exact .inl rfl
    | reaped => exact .inr rfl
    | live | exited =>
      have hrun : e.worker.running = true := by rw [hworker, Worker.running]
      have ht := Bool.of_not_eq_false fun hf => ha ⟨hrun, hf⟩
      rcases h ht with hw | hw <;> rw [hworker] at hw <;> cases hw

/-- A job whose worker was not started when it was finished never gets one. -/
theorem Entry.Moves.absent {e e' : Entry} {a : EntryAct} (hm : e.Moves a e')
    (ha : ¬ e.Untimely a) (ht : e.job.state.terminal = true) (hw : e.worker = .absent) :
    e'.worker = .absent := by
  cases hm with
  | launch hstart hctx => exact absurd ht ha
  | exit hlive =>
    rw [hw] at hlive
    cases hlive
  | finish waitErr sawFatal now hstart hexited =>
    rw [hw] at hexited
    cases hexited
  | _ => exact hw

/-! ## All jobs -/

namespace Server

/-- No step in which a start and an early cancellation miss each other. -/
def Timely (s : Server) (act : Act) : Prop :=
  ∀ p ∈ s.effect act, ∀ e ∈ s.entries[p.1]?, ¬ e.Untimely p.2

instance : DecidableRel Timely := fun s act =>
  inferInstanceAs (Decidable (∀ p ∈ s.effect act, ∀ e ∈ s.entries[p.1]?, ¬ e.Untimely p.2))

/-- Events are published to unfinished jobs only. -/
def PublishesOpen (s : Server) (act : Act) : Prop :=
  ∀ i ev now e, act = .entry i (.publish ev now) → s.entries[i]? = some e →
    e.job.state.terminal = false

/-- All jobs are as they should be, and the finished ones are quiet. -/
def Settled (s : Server) : Prop := s.All fun e => e.Sound ∧ e.Quiet

section

variable {limits : Limits} {s s' : Server} {act : Act}

theorem settled_init : ({} : Server).Settled := by
  intro i e hi
  simp at hi

theorem Settled.step (hall : s.Settled) (h : s.Moves limits act s') (ht : s.Timely act) :
    s'.Settled := by
  refine All.step hall h (fun r _ id now => ⟨sound_entry r id now, fun _ => .inl rfl⟩) ?_
  rintro i a e e' heff he ⟨hsound, hquiet⟩ hm
  exact ⟨hsound.step hm, hquiet.step hsound hm (ht (i, a) heff e he)⟩

/-- A quiet job gets no events. -/
theorem Settled.publishesOpen (hall : s.Settled) (h : s.Moves limits act s') :
    s.PublishesOpen act := by
  rintro i ev now e rfl he
  cases h with
  | entry heff he' hm =>
    obtain ⟨rfl, rfl⟩ := Prod.mk.inj (Option.some.inj heff)
    obtain rfl := Option.some.inj (he.symm.trans he')
    cases hm with
    | publish ev now hstart hw =>
      refine Bool.eq_false_iff.mpr fun ht => ?_
      rcases (hall i e he).2 ht with hw' | hw' <;> rw [hw'] at hw <;> cases hw

/-- A job that was finished without a worker is without one for good. -/
theorem absent_of_execute {as : List Act} {i : Nat} {e : Entry}
    (hi : s.entries[i]? = some e) (ht : e.job.state.terminal = true) (hw : e.worker = .absent)
    (hrun : execute (Server.step limits) s as = some s')
    (hcond : Along (Server.step limits) Timely s as) :
    ∃ e', s'.entries[i]? = some e' ∧ e'.worker = .absent := by
  have hkeep := hcond.invariant hrun
    (fun s => ∃ e, s.entries[i]? = some e ∧ e.job.state.terminal = true ∧ e.worker = .absent)
    ⟨e, hi, ht, hw⟩ ?_
  · obtain ⟨e', hi', -, hw'⟩ := hkeep
    exact ⟨e', hi', hw'⟩
  · rintro s act s' hstep htimely ⟨e, hi, ht, hw⟩
    obtain ⟨e', hi', rfl | ⟨a, heff, hm⟩⟩ := (moves_of_step hstep).entry_next hi
    · exact ⟨e', hi', ht, hw⟩
    · exact ⟨e', hi', by rw [hm.state_eq ht, ht], hm.absent (htimely (i, a) heff e hi) ht hw⟩

end

end Server

/-- In a run in which no start and no early cancellation miss each other, a finished job
has no worker and gets none, or its worker has exited or is being stopped; and no event is
published to a finished job. -/
theorem Server.finished_quiet {limits : Limits} {as bs : List Act} {s s' : Server}
    (hrun : execute (Server.step limits) {} as = some s)
    (hmore : execute (Server.step limits) s bs = some s')
    (hcond : Along (Server.step limits) Timely {} (as ++ bs)) :
    (∀ (i : Nat) e, s.entries[i]? = some e → e.job.state.terminal = true →
      (e.worker = .absent ∧ ∃ e', s'.entries[i]? = some e' ∧ e'.worker = .absent) ∨
        e.worker = .exited ∨ e.worker = .reaped ∨ e.ctxErr.isSome = true) ∧
      Along (Server.step limits) PublishesOpen {} as := by
  have hfirst := hcond.of_append
  have hstep : ∀ s act s', Server.step limits s act = some s' → s.Timely act → s.Settled →
      s'.Settled := fun _ _ _ hs ht hall => hall.step (moves_of_step hs) ht
  refine ⟨fun i e hi ht => ?_, hfirst.imp hrun Settled settled_init hstep
    fun _ _ _ hs hall => hall.publishesOpen (moves_of_step hs)⟩
  have hall := hfirst.invariant hrun Settled settled_init hstep
  rcases (hall i e hi).2 ht with hw | hw
  · exact .inl ⟨hw, absent_of_execute hi ht hw hmore (hcond.after hrun)⟩
  · exact .inr (.inr (.inl hw))

/-- The scan is cancelled while it runs. -/
def stoppedScan : List Act :=
  admitted ++ [.entry 0 .install, .entry 0 .launch, .entry 0 (.setRunning 2), .readCancel 0,
    .cancel 0 3, .entry 0 .exit, .entry 0 (.finish none "" 4)]

/-- A scan that is cancelled while it runs ends quietly. -/
theorem stoppedScan_quiet :
    ∃ s, execute (Server.step ⟨1, 4⟩) {} stoppedScan = some s ∧
      (∀ (i : Nat) e, s.entries[i]? = some e → e.job.state.terminal = true →
        (e.worker = .absent ∧ ∃ e', s.entries[i]? = some e' ∧ e'.worker = .absent) ∨
          e.worker = .exited ∨ e.worker = .reaped ∨ e.ctxErr.isSome = true) ∧
      Along (Server.step ⟨1, 4⟩) Server.PublishesOpen {} stoppedScan := by
  obtain ⟨s, hrun⟩ : ∃ s, execute (Server.step ⟨1, 4⟩) {} stoppedScan = some s := ⟨_, rfl⟩
  exact ⟨s, hrun, Server.finished_quiet hrun (execute_nil s) (by decide)⟩

/-- The scan is cancelled before its cancel function is installed, and started. -/
def lateScan : List Act :=
  admitted ++ [.readCancel 0, .entry 0 .install, .entry 0 .launch, .entry 0 (.setRunning 2),
    .cancel 0 3]

/-- The cancelled scan has a live worker that nobody stops. -/
theorem lateScan_live :
    ∃ s e, execute (Server.step ⟨1, 4⟩) {} lateScan = some s ∧ s.entries[0]? = some e ∧
      e.job.state.terminal = true ∧ e.worker = .live ∧ e.ctxErr = none :=
  ⟨_, _, rfl, rfl, rfl, rfl, rfl⟩

end Broom.Service
