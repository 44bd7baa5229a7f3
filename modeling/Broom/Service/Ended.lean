import Broom.Service.Cancelled

/-!
# Ended sessions

Deleting a session cancels the jobs that its list of unfinished jobs contains. A request
that copied the credentials before can still start a worker afterwards. As long as every
worker of the session is started while the deletion, if there is one, can still stop it, none
of them goes on when the session has ended.
-/

namespace Broom.Service

open Broom.Api Broom.Core Broom.Engine Broom.Jobs

/-! ## One job -/

/-- The job is working, and its context is alive. -/
def Entry.Working (e : Entry) : Prop := e.worker.running = true ∧ e.ctxErr = none

/-- A working job was working before, or its worker was launched by the step. -/
theorem Entry.Moves.working {e e' : Entry} {a : EntryAct} (h : e.Moves a e')
    (hw : e'.Working) : (e.Working ∧ ∀ now, a ≠ .cancel true now) ∨ a = .launch := by
  obtain ⟨hrun, hctx⟩ := hw
  cases h with
  | launch => exact .inr rfl
  | startCancelled | cancel | finish => simp [Entry.cancelCtx] at hctx
  | expire err hc => simp at hctx
  | exit hlive => exact .inl ⟨⟨by rw [hlive, Worker.running], hctx⟩, by simp⟩
  | install | startFails | setRunning | fail | publish | sweep | watch | cancelEarly =>
    exact .inl ⟨⟨hrun, hctx⟩, by simp⟩

/-- A working job of a settled server is listed, unfinished and can be cancelled. -/
theorem Entry.Working.cancellable {e : Entry} (h : e.Working) (hs : e.Sound) (hq : e.Quiet) :
    e.listed = true ∧ e.job.state.terminal = false ∧ e.job.cancel = true := by
  have hrun := h.1
  have hterm : e.job.state.terminal = false := by
    refine Bool.eq_false_iff.mpr fun ht => ?_
    rcases hq ht with hw | hw <;> rw [hw] at hrun <;> cases hrun
  refine ⟨?_, hterm, hs.installed (.inr ?_)⟩
  · by_contra hl
    have ht := hs.unlisted (.inl (Bool.not_eq_true _ ▸ hl))
    rw [hterm] at ht
    cases ht
  · rintro hw
    rw [hw] at hrun
    cases hrun

/-! ## Deletions -/

/-- The deletion of the session, if it happens, can still stop the job. -/
def Phase.covers (i : Nat) : Phase → Bool
  | .live | .removed | .closed => true
  | .cancelling ids read => i ∈ ids ∨ read = some (i, true)
  | .ended => false

/-- The step starts a worker. -/
def EntryAct.launches : EntryAct → Bool
  | .launch => true
  | _ => false

namespace Server

/-- No start and no early cancellation of the session's jobs miss each other, and a worker of the
session is started only while its deletion can still stop it. -/
def Orderly (sid : String) (s : Server) (act : Act) : Prop :=
  ∀ p ∈ s.effect act, ∀ e ∈ s.entries[p.1]?, e.job.sessionId = sid →
    ¬ e.Untimely p.2 ∧ (p.2.launches = true → ∀ phase ∈ s.phase sid, phase.covers p.1 = true)

instance (sid : String) : DecidableRel (Orderly sid) := fun s act =>
  inferInstanceAs (Decidable (∀ p ∈ s.effect act, ∀ e ∈ s.entries[p.1]?,
    e.job.sessionId = sid → ¬ e.Untimely p.2 ∧
      (p.2.launches = true → ∀ phase ∈ s.phase sid, phase.covers p.1 = true)))

/-- All jobs are as they should be, and the finished ones of the session are quiet. -/
def Calm (s : Server) (sid : String) : Prop :=
  s.All fun e => e.Sound ∧ (e.job.sessionId = sid → e.Quiet)

/-- The deletion of the session can still stop each of its working jobs. -/
def Attended (s : Server) (sid : String) : Prop :=
  ∀ (i : Nat) e, s.entries[i]? = some e → e.job.sessionId = sid → e.Working →
    ∀ phase ∈ s.phase sid, phase.covers i = true

section

variable {limits : Limits} {s s' : Server} {act : Act} {sid : String}

theorem phase_setPhase (s : Server) (sid sid' : String) (sess : Session) (phase : Phase) :
    (s.setPhase sid sess phase).phase sid' = if sid' = sid then some phase else s.phase sid' := by
  unfold Server.phase setPhase
  by_cases h : sid' = sid
  · subst h
    simp
  · simp [h]

/-- Orderly steps keep the session calm. -/
theorem Calm.step (hcalm : s.Calm sid) (h : s.Moves limits act s') (ho : s.Orderly sid act) :
    s'.Calm sid := by
  refine All.step hcalm h (fun r _ id now => ⟨sound_entry r id now, fun _ _ => .inl rfl⟩) ?_
  rintro i a e e' heff he ⟨hsound, hquiet⟩ hm
  refine ⟨hsound.step hm, fun hsid => ?_⟩
  rw [hm.sessionId_eq] at hsid
  exact (hquiet hsid).step hsound hm (ho (i, a) heff e he hsid).1

/-- Before the sessions change, a step leaves every working job of the session attended. -/
theorem Attended.entries (hatt : s.Attended sid) (h : s.Moves limits act s')
    (ho : s.Orderly sid act) {i : Nat} {e' : Entry} (hi : s'.entries[i]? = some e')
    (hsid : e'.job.sessionId = sid) (hw : e'.Working) :
    (∀ phase ∈ s.phase sid, phase.covers i = true) ∧
      (∀ now, s.effect act ≠ some (i, .cancel true now)) ∧
      ∃ e, s.entries[i]? = some e ∧ e.job.sessionId = sid ∧
        (e.Working ∨ s.effect act = some (i, .launch)) := by
  have hcancel {e : Entry} (he : s.entries[i]? = some e) (now : Nat) :
      s.effect act ≠ some (i, .cancel true now) := by
    intro heff
    obtain ⟨e₁, hm, hi₁⟩ := h.of_effect heff he
    obtain rfl := Option.some.inj (hi.symm.trans hi₁)
    rcases hm.working hw with ⟨-, hne⟩ | ha
    · exact hne now rfl
    · cases ha
  rcases h.entry_cases hi with he | ⟨a, e, heff, he, hm⟩ | ⟨-, r, -, id, now, rfl⟩
  · exact ⟨hatt i e' he hsid hw, hcancel he, e', he, hsid, .inl hw⟩
  · rw [hm.sessionId_eq] at hsid
    refine ⟨?_, hcancel he, e, he, hsid, ?_⟩
    · rcases hm.working hw with ⟨hworking, -⟩ | rfl
      · exact hatt i e he hsid hworking
      · exact (ho (i, .launch) heff e he hsid).2 rfl
    · rcases hm.working hw with ⟨hworking, -⟩ | rfl
      · exact .inl hworking
      · exact .inr heff
  · cases hw.1

/-- Orderly steps keep every working job of the session attended. -/
theorem Attended.step (hatt : s.Attended sid) (hcalm : s.Calm sid) (h : s.Moves limits act s')
    (ho : s.Orderly sid act) : s'.Attended sid := by
  intro i e' hi hsid' hw phase hphase
  obtain ⟨hold, hcancel, e, he, hsid, hworking⟩ := hatt.entries h ho hi hsid' hw
  -- a step without an effect on jobs leaves the job as it was
  have hquiet (heff : s.effect act = none) :
      e.listed = true ∧ e.job.state.terminal = false ∧ e.job.cancel = true := by
    rcases hworking with hworking | hlaunch
    · exact hworking.cancellable (hcalm i e he).1 ((hcalm i e he).2 hsid)
    · rw [heff] at hlaunch
      cases hlaunch
  cases h with
  | signIn sid' identity hn =>
    by_cases hne : sid = sid'
    · simp only [Server.phase, hne, Function.update_self] at hphase
      obtain rfl := Option.some.inj hphase
      rfl
    · simp only [Server.phase, Function.update_of_ne hne] at hphase
      exact hold phase hphase
  | remove h hp | close h hp =>
    rw [phase_setPhase] at hphase
    split at hphase
    · obtain rfl := Option.some.inj hphase
      rfl
    · exact hold phase hphase
  | collect h hp hids =>
    rw [phase_setPhase] at hphase
    split at hphase
    · rename_i heq
      obtain rfl := Option.some.inj hphase
      obtain ⟨hl, ht, -⟩ := hquiet rfl
      have hmem := hids.2 i (List.getElem?_eq_some_iff.mp he).1
        (by simp [he, Entry.ownedBy, hl, ht, hsid, heq])
      simp [Phase.covers, hmem]
    · exact hold phase hphase
  | @readNext sid' sess j ids e₀ h hp he₀ =>
    rw [phase_setPhase] at hphase
    split at hphase
    · rename_i heq
      obtain rfl := Option.some.inj hphase
      obtain ⟨hl, -, hc⟩ := hquiet rfl
      have hcov' := hold (.cancelling (j :: ids) none) (by simp [Server.phase, heq, h, hp])
      by_cases hji : j = i
      · subst hji
        obtain rfl := Option.some.inj (he.symm.trans he₀)
        simp [Phase.covers, hl, hc]
      · have hmem : i ∈ ids := by
          simpa [Phase.covers, Ne.symm hji] using hcov'
        simp [Phase.covers, hmem]
    · exact hold phase hphase
  | @cancelNext sid' sess ids j now read e₀ e₁ h hp heff he₀ hm =>
    rw [phase_setPhase] at hphase
    split at hphase
    · rename_i heq
      obtain rfl := Option.some.inj hphase
      have hcov' := hold (.cancelling ids (some (j, read))) (by simp [Server.phase, heq, h, hp])
      have hne : ¬ (j = i ∧ read = true) := by
        rintro ⟨rfl, rfl⟩
        exact hcancel now heff
      simpa [Phase.covers, hne] using hcov'
    · exact hold phase hphase
  | @ended sid' sess h hp =>
    rw [phase_setPhase] at hphase
    split at hphase
    · rename_i heq
      have hcov' := hold (.cancelling [] none) (by simp [Server.phase, heq, h, hp])
      simp [Phase.covers] at hcov'
    · exact hold phase hphase
  | _ => exact hold phase hphase

end

end Server

/-- In a run that is orderly for a session, when it has been deleted and its requests have
returned, every job of it is finished or being stopped, and no worker of it runs on. -/
theorem Server.ended_stopped {limits : Limits} {as : List Act} {s : Server} {sid : String}
    (hrun : execute (Server.step limits) {} as = some s)
    (hcond : Along (Server.step limits) (Orderly sid) {} as)
    (hended : s.phase sid = some .ended)
    (hreturned : ∀ (i : Nat) e, s.entries[i]? = some e → e.job.sessionId = sid →
      e.start = .returned) :
    ∀ (i : Nat) e, s.entries[i]? = some e → e.job.sessionId = sid →
      ¬ (e.worker = .live ∧ e.ctxErr = none) ∧
        (e.job.state.terminal = true ∨ e.ctxErr.isSome = true) := by
  have hinv := hcond.invariant hrun (fun s => s.Calm sid ∧ s.Attended sid)
    ⟨by simp [Calm, All], by simp [Attended]⟩ fun s act s' hs ho h =>
      ⟨h.1.step (moves_of_step hs) ho, h.2.step h.1 (moves_of_step hs) ho⟩
  obtain ⟨hcalm, hatt⟩ := hinv
  intro i e hi hsid
  have hidle : ¬ e.Working := by
    intro hw
    have hcov := hatt i e hi hsid hw .ended hended
    cases hcov
  refine ⟨fun hlive => hidle ⟨by rw [hlive.1, Worker.running], hlive.2⟩, ?_⟩
  have hsound := (hcalm i e hi).1
  cases hw : e.worker with
  | absent => exact .inl (hsound.failed (hreturned i e hi hsid) hw)
  | reaped => exact .inl (hsound.reaped hw).1
  | live | exited =>
    refine .inr (Option.isSome_iff_ne_none.mpr fun hctx => hidle ⟨?_, hctx⟩)
    rw [hw, Worker.running]

/-- The user signs out while a scan runs. -/
def signOut : List Act :=
  admitted ++ [.entry 0 .install, .entry 0 .launch, .entry 0 (.setRunning 2), .remove "s",
    .close "s", .collect "s" [0], .readNext "s", .cancelNext "s" 3, .ended "s"]

/-- Signing out stops the scan. -/
theorem signOut_stopped :
    ∃ s, execute (Server.step ⟨1, 4⟩) {} signOut = some s ∧ s.phase "s" = some .ended ∧
      ∀ (i : Nat) e, s.entries[i]? = some e → e.job.sessionId = "s" →
        ¬ (e.worker = .live ∧ e.ctxErr = none) ∧
          (e.job.state.terminal = true ∨ e.ctxErr.isSome = true) := by
  obtain ⟨s, e, hrun, hended, hentries, hstart⟩ :
      ∃ s e, execute (Server.step ⟨1, 4⟩) {} signOut = some s ∧ s.phase "s" = some .ended ∧
        s.entries = [e] ∧ e.start = .returned := ⟨_, _, rfl, rfl, rfl, rfl⟩
  refine ⟨s, hrun, hended, Server.ended_stopped hrun (by decide) hended fun i e' hi _ => ?_⟩
  rw [hentries, List.getElem?_singleton] at hi
  obtain ⟨-, rfl⟩ : i = 0 ∧ e = e' := by simpa using hi
  exact hstart

/-- The user signs out while a request holds the credentials and has no job yet. -/
def straggler : List Act :=
  [.signIn "s" ⟨"123456789012", ""⟩, .createScan "s" ["us-east-1"] ["sns-topic"] none,
    .credentials 0, .remove "s", .close "s", .collect "s" [], .ended "s", .admitJob 0 "j" 1,
    .entry 0 .install, .entry 0 .launch, .entry 0 (.setRunning 2)]

/-- The session has ended, its request has returned, and the worker runs on. -/
theorem straggler_live :
    ∃ s e, execute (Server.step ⟨1, 4⟩) {} straggler = some s ∧ s.phase "s" = some .ended ∧
      s.authorized = [] ∧ s.entries = [e] ∧ e.job.sessionId = "s" ∧ e.start = .returned ∧
      e.job.state = .running ∧ e.worker = .live ∧ e.ctxErr = none :=
  ⟨_, _, rfl, rfl, rfl, rfl, rfl, rfl, rfl, rfl, rfl⟩

end Broom.Service
