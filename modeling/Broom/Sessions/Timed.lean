import Broom.Sessions.Store

/-!
# Calls at a moment

A request is served at one moment: its call of the store runs with nothing in between. That is
one of the ways in which its thread can run among all others.
-/

namespace Broom.Sessions

open Broom.Core

variable {α β : Type}

/-! ## Running a call at once -/

/-- What a call gets from outside. -/
structure Outside where
  /-- The next random token. -/
  token : Option String := none
  /-- The order in which the map is walked. -/
  order : List String := []
  deriving DecidableEq, Repr

/-- What the world answers to an operation. -/
def World.answer (c : Config) (o : Outside) (w : World) : (op : SessionOp) → op.Ans
  | .now => w.clock
  | .newToken => o.token
  | .lookup id | .remove id => decide (id ∈ w.sessions)
  | .inspect id now =>
    match w.objects id with
    | some s => (s.closed, decide (s.expiresAt < now), decide (s.lastSeen + c.idleTTL < now))
    | none => (false, false, false)
  | .busy id => decide (0 < w.jobs id)
  | .list => o.order
  | .credentials id =>
    match w.objects id with
    | some s => s.credentials
    | none => ({}, some .notFound)
  | .register _ _ _ | .touch _ _ | .close _ | .onClose _ => ()

/-- Run a program at once. -/
def World.run (c : Config) (o : Outside) (w : World) (p : SessionM α) : Option (α × World) :=
  Prog.atomic (World.answer c o) (World.perform c) w p

/-- A call at a moment is one of the ways in which its thread can run. -/
theorem runs_of_run {c : Config} {o : Outside} {w w' : World} {ts : List (SessionM Result)}
    {call : Call} {r : Result} (h : w.run c o call.program = some (r, w')) :
    Threads.Runs (machine c) ⟨w, ts ++ [call.program]⟩ ⟨w', ts ++ [.ret r]⟩ :=
  Threads.runs_of_atomic h

/-! ## Stale sessions -/

/-- The session should be dropped whether it is busy or not. -/
def Session.dead (s : Session) (now : Nat) : Prop := s.closed = true ∨ s.expiresAt < now

/-- The session's idle timer has run out. -/
def Session.idle (c : Config) (s : Session) (now : Nat) : Prop := s.lastSeen + c.idleTTL < now

instance (s : Session) (now : Nat) : Decidable (s.dead now) := inferInstanceAs (Decidable (_ ∨ _))

instance (c : Config) (s : Session) (now : Nat) : Decidable (s.idle c now) :=
  inferInstanceAs (Decidable (_ < _))

/-- A check would drop the session. -/
def World.Stale (c : Config) (w : World) (id : String) (now : Nat) : Prop :=
  ∃ s ∈ w.objects id, s.dead now ∨ s.idle c now ∧ w.jobs id = 0

/-! ## Operations -/

section operations

variable {c : Config} {o : Outside} {w w' : World} {id : String} {s : Session} {now : Nat}

@[simp] theorem run_pure (a : α) : w.run c o (pure a) = some (a, w) := rfl

theorem run_bind (p : SessionM α) (f : α → SessionM β) :
    w.run c o (p >>= f) = (w.run c o p).bind fun (a, w') => w'.run c o (f a) := Prog.atomic_bind

theorem run_ask (op : SessionOp) :
    w.run c o (ask op) =
      (w.perform c ⟨op, w.answer c o op⟩).map fun w' => (w.answer c o op, w') :=
  Prog.atomic_perform

/-- An operation that was performed got the world's answer. -/
theorem run_ask_some {op : SessionOp} {r : op.Ans} (h : w.run c o (ask op) = some (r, w')) :
    r = w.answer c o op ∧ w.perform c ⟨op, w.answer c o op⟩ = some w' := by
  obtain ⟨w₁, hw, hr⟩ := Option.map_eq_some_iff.mp ((run_ask op).symm.trans h)
  obtain ⟨rfl, rfl⟩ := Prod.mk.inj hr
  exact ⟨rfl, hw⟩

/-- A program that returned went through its first part. -/
theorem run_bind_some {p : SessionM α} {f : α → SessionM β} {b : β}
    (h : w.run c o (p >>= f) = some (b, w')) :
    ∃ a w₁, w.run c o p = some (a, w₁) ∧ w₁.run c o (f a) = some (b, w') := by
  rw [run_bind] at h
  obtain ⟨⟨a, w₁⟩, hp, hf⟩ := Option.bind_eq_some_iff.mp h
  exact ⟨a, w₁, hp, hf⟩

@[simp] theorem run_now : w.run c o (ask .now) = some (w.clock, w) :=
  (run_ask _).trans (by simp [World.perform, World.answer])

@[simp] theorem run_lookup : w.run c o (ask (.lookup id)) = some (decide (id ∈ w.sessions), w) :=
  (run_ask _).trans (by simp [World.perform, World.answer])

@[simp] theorem run_busy : w.run c o (ask (.busy id)) = some (decide (0 < w.jobs id), w) :=
  (run_ask _).trans (by simp [World.perform, World.answer])

theorem run_inspect (hs : w.objects id = some s) : w.run c o (ask (.inspect id now)) =
    some ((s.closed, decide (s.expiresAt < now), decide (s.idle c now)), w) :=
  (run_ask _).trans (by
    simp only [World.perform, World.answer, hs, Option.bind_eq_bind, Option.bind_some, and_self,
      if_true, Option.map_some]
    rfl)

/-- One session is another one now. -/
def World.put (w : World) (id : String) (s : Session) : World :=
  { w with objects := Function.update w.objects id (some s) }

theorem run_touch (hs : w.objects id = some s) : w.run c o (ask (.touch id now)) =
    some ((), w.put id { s with lastSeen := now }) :=
  (run_ask _).trans (by simp [World.perform, World.answer, World.update, World.put, hs])

/-- Only a session that was created can be inspected. -/
theorem created_of_inspect {r : Bool × Bool × Bool}
    (h : w.run c o (ask (.inspect id now)) = some (r, w')) : ∃ s, w.objects id = some s := by
  obtain ⟨s, hs, -⟩ := Option.bind_eq_some_iff.mp (run_ask_some h).2
  exact ⟨s, hs⟩

/-- A check renews the idle timer of a session that is idle and busy. -/
theorem run_expired (hs : w.objects id = some s) : w.run c o (expired id now) =
    some (if s.dead now then (true, w)
      else if s.idle c now then
        if 0 < w.jobs id then (false, w.put id { s with lastSeen := now }) else (true, w)
      else (false, w)) := by
  rw [expired, run_bind, run_inspect hs, Option.bind_some]
  have hiff : (s.closed = true ∨ decide (s.expiresAt < now) = true) ↔ s.dead now := by
    rw [decide_eq_true_eq, Session.dead]
  simp only [hiff]
  by_cases hdead : s.dead now
  · simp only [if_pos hdead, run_pure]
  · simp only [if_neg hdead]
    by_cases hidle : s.idle c now
    · simp only [hidle, decide_true, if_true]
      rw [run_bind, run_busy, Option.bind_some]
      by_cases hbusy : 0 < w.jobs id
      · simp only [hbusy, decide_true, if_true]
        rw [run_bind, run_touch hs]
        rfl
      · simp only [hbusy, decide_false, Bool.false_eq_true, if_false, run_pure]
    · simp only [hidle, decide_false, Bool.false_eq_true, if_false, run_pure]

/-- A check that does not drop a session leaves the map alone, and the session was not stale. -/
theorem fresh_of_expired (h : w.run c o (expired id now) = some (false, w')) :
    ¬ w.Stale c id now ∧ w'.sessions = w.sessions := by
  obtain ⟨r, w₁, hinspect, -⟩ := run_bind_some h
  obtain ⟨s, hs⟩ := created_of_inspect hinspect
  have hiff : w.Stale c id now ↔ s.dead now ∨ s.idle c now ∧ w.jobs id = 0 := by
    simp [World.Stale, hs]
  rw [run_expired hs] at h
  rw [hiff]
  by_cases hdead : s.dead now
  · rw [if_pos hdead] at h
    cases (Prod.mk.inj (Option.some.inj h)).1
  rw [if_neg hdead] at h
  by_cases hidle : s.idle c now
  · rw [if_pos hidle] at h
    by_cases hbusy : 0 < w.jobs id
    · rw [if_pos hbusy] at h
      obtain ⟨-, rfl⟩ := Prod.mk.inj (Option.some.inj h)
      exact ⟨by simp [hdead, hbusy.ne'], rfl⟩
    · rw [if_neg hbusy] at h
      cases (Prod.mk.inj (Option.some.inj h)).1
  · rw [if_neg hidle] at h
    obtain ⟨-, rfl⟩ := Prod.mk.inj (Option.some.inj h)
    exact ⟨by simp [hdead, hidle], rfl⟩

/-- A `Get` that is served has the session it asked for, which is in the map and not stale, and
stays in the map. -/
theorem served_of_get {id' : String} (h : w.run c o (get id) = some (.session (some id'), w')) :
    id' = id ∧ id ∈ w.sessions ∧ ¬ w.Stale c id w.clock ∧ id ∈ w'.sessions := by
  rw [get, run_bind, run_lookup, Option.bind_some] at h
  by_cases hin : id ∈ w.sessions
  · simp only [hin, decide_true, if_true] at h
    rw [run_bind, run_now, Option.bind_some] at h
    obtain ⟨stale, w₁, hexpired, hrest⟩ := run_bind_some h
    cases stale with
    | true =>
      obtain ⟨_, w₂, -, hret⟩ := run_bind_some hrest
      cases (Prod.mk.inj (Option.some.inj hret)).1
    | false =>
      obtain ⟨hfresh, hsame⟩ := fresh_of_expired hexpired
      obtain ⟨_, w₂, htouch, hret⟩ := run_bind_some hrest
      obtain ⟨hid, rfl⟩ := Prod.mk.inj (Option.some.inj hret)
      obtain ⟨s, -, rfl⟩ := Option.map_eq_some_iff.mp (run_ask_some htouch).2
      exact ⟨(Option.some.inj (Result.session.inj hid)).symm, hin, hfresh, hsame ▸ hin⟩
  · simp only [hin, decide_false, Bool.false_eq_true, if_false, run_pure] at h
    cases (Prod.mk.inj (Option.some.inj h)).1

end operations

end Broom.Sessions
