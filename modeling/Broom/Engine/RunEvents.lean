import Broom.Engine.Run

/-!
# The events of a run

A worker writes a phase event first, reports and phases after it, and at last the
summary or a fatal error. Its summary is the tally of the events before it. What is
said here of the events of a run holds of the events that a stopped worker has
written, too.
-/

namespace Broom.Engine

/-- An event after the first: it starts no rescan, and says only of a success that the
resource was already gone. -/
structure Plain (ev : Event) : Prop where
  phase : ev.type = .phase → ev.phase ≠ "rescan"
  gone : ev.note = "already_gone" → ev.success = some true

/-- The events that a worker may have written. -/
structure RunEvents (events : List Event) : Prop where
  first : ∀ ev ∈ events.head?, ev.type = .phase ∨ ev.type = .fatal
  plain : ∀ ev ∈ events.tail, Plain ev
  bare : ∀ ev ∈ events, ev.type ≠ .summary → ev.summary = none
  summary : ∀ before ev after, events = before ++ ev :: after → ev.type = .summary →
    after = [] ∧ ∃ mode notSelected, (mode = .scan ∨ mode = .nuke) ∧
      ev.summary = some { before.foldl tally {} with mode := mode, notSelected := notSelected }

theorem runEvents_nil : RunEvents [] where
  first := by simp
  plain := by simp
  bare := by simp
  summary := by simp

theorem RunEvents.cut {events events' : List Event} (h : RunEvents events)
    (hp : events' <+: events) : RunEvents events' := by
  obtain ⟨rest, rfl⟩ := hp
  refine ⟨fun ev hev => h.first ev ?_, fun ev hev => h.plain ev ?_,
    fun ev hev => h.bare ev (List.mem_append_left _ hev), fun before ev after he hev => ?_⟩
  · cases events' with
    | nil => simp at hev
    | cons ev' events' => exact hev
  · cases events' with
    | nil => simp at hev
    | cons ev' events' => exact List.mem_append_left _ hev
  · obtain ⟨hafter, hsummary⟩ := h.summary before ev (after ++ rest) (by simp [he]) hev
    exact ⟨(List.append_eq_nil_iff.mp hafter).1, hsummary⟩

/-! ## Writing -/

/-- An emitter that has not written its summary. -/
structure Emitter.Open (em : Emitter) : Prop where
  events : RunEvents em.written
  unsummarised : ∀ ev ∈ em.written, ev.type ≠ .summary
  tally : em.summary = em.written.foldl tally {}

theorem Emitter.open_new (clock : Nat → Nat) : (Emitter.new clock).Open :=
  ⟨runEvents_nil, by simp [new], rfl⟩

/-- The first event is no matter; a later one must be plain. -/
structure Emitter.Accepts (em : Emitter) (ev : Event) : Prop where
  first : em.written = [] → ev.type = .phase ∨ ev.type = .fatal
  plain : em.written ≠ [] → Plain ev
  bare : ev.type ≠ .summary → ev.summary = none

/-- Writing an event keeps the events of a run, if a summary counts what was written. -/
theorem Emitter.Open.events_emit {em : Emitter} (h : em.Open) {ev : Event} (hev : em.Accepts ev)
    (hsummary : ev.type = .summary → ∃ mode notSelected, (mode = .scan ∨ mode = .nuke) ∧
      ev.summary = some { em.summary with mode := mode, notSelected := notSelected }) :
    RunEvents (em.emit ev).written := by
  refine ⟨?_, ?_, ?_, ?_⟩
  · intro ev' hev'
    cases hw : em.written with
    | nil =>
      simp only [emit, hw, List.nil_append, List.head?_cons, Option.mem_some] at hev'
      exact hev' ▸ hev.first hw
    | cons e es =>
      simp only [emit, hw, List.cons_append, List.head?_cons] at hev'
      exact h.events.first ev' (by rwa [hw])
  · intro ev' hev'
    cases hw : em.written with
    | nil => simp [emit, hw] at hev'
    | cons e es =>
      simp only [emit, hw, List.cons_append, List.tail_cons] at hev'
      rcases List.mem_append.mp hev' with hes | hlast
      · exact h.events.plain ev' (by rwa [hw])
      · have hplain := hev.plain (hw ▸ List.cons_ne_nil _ _)
        obtain rfl := List.mem_singleton.mp hlast
        exact ⟨hplain.phase, hplain.gone⟩
  · intro ev' hev'
    rcases List.mem_append.mp hev' with hold | hlast
    · exact h.events.bare ev' hold
    · obtain rfl := List.mem_singleton.mp hlast
      exact hev.bare
  · intro before ev' after he htype
    rcases List.eq_nil_or_concat' after with rfl | ⟨after', last, rfl⟩
    · obtain ⟨rfl, hlast⟩ := List.append_inj' he rfl
      obtain rfl := List.singleton_inj.mp hlast
      obtain ⟨mode, notSelected, hmode, heq⟩ := hsummary htype
      exact ⟨rfl, mode, notSelected, hmode, h.tally ▸ heq⟩
    · -- a summary before the last event would have been written already
      have hmem : ev' ∈ em.written := by
        rw [← List.cons_append, ← List.append_assoc] at he
        rw [(List.append_inj' he rfl).1]
        exact List.mem_append_right _ (List.mem_cons_self ..)
      exact absurd htype (h.unsummarised ev' hmem)

theorem Emitter.Open.emit {em : Emitter} (h : em.Open) {ev : Event} (hev : em.Accepts ev)
    (htype : ev.type ≠ .summary) : (em.emit ev).Open := by
  refine ⟨h.events_emit hev fun hs => absurd hs htype, fun ev' hev' => ?_, ?_⟩
  · rcases List.mem_append.mp hev' with hold | hlast
    · exact h.unsummarised ev' hold
    · obtain rfl := List.mem_singleton.mp hlast
      exact htype
  · simp only [Emitter.emit, List.foldl_append, List.foldl_cons, List.foldl_nil, h.tally]

/-- The event of a report is plain, and counts something or shows progress. -/
theorem Report.plain {report : Report} {ev : Event} (h : report.event = some ev) :
    Plain ev ∧ ev.type ≠ .summary ∧ ev.summary = none := by
  cases report with
  | lifecycle => cases h
  | _ =>
    obtain rfl := Option.some.inj h
    exact ⟨⟨by simp, by simp⟩, by simp, rfl⟩

theorem Emitter.Open.onEvents {em : Emitter} (h : em.Open) (hne : em.written ≠ [])
    (reports : List Report) : (em.onEvents reports).Open ∧ (em.onEvents reports).written ≠ [] := by
  induction reports generalizing em with
  | nil => exact ⟨h, hne⟩
  | cons report reports ih =>
    rw [Emitter.onEvents, List.foldl_cons, ← Emitter.onEvents, Emitter.onEvent]
    cases hev : report.event with
    | none => exact ih h hne
    | some ev =>
      obtain ⟨hplain, htype, hbare⟩ := Report.plain hev
      exact ih (h.emit ⟨fun hnil => absurd hnil hne, fun _ => hplain, fun _ => hbare⟩ htype)
        (by simp [Emitter.emit])

section run

variable {cn : CloudNuke} {isGlobal : String → Bool} {now : Int} {spec : Spec}

/-- After the rescan the emitter is open. -/
theorem Surroundings.open_rescanned (x : Surroundings cn isGlobal now spec) (clock : Nat → Nat) :
    (x.rescanned (.new clock)).Open ∧ (x.rescanned (.new clock)).written ≠ [] := by
  refine Emitter.Open.onEvents ((Emitter.open_new clock).emit ⟨fun _ => .inl rfl, ?_, fun _ => rfl⟩
    EventType.noConfusion) (by simp [Emitter.emit]) _
  exact fun hne => absurd rfl hne

theorem Surroundings.open_deleted (x : Surroundings cn isGlobal now spec) (clock : Nat → Nat) :
    (x.deleted (.new clock)).Open ∧ (x.deleted (.new clock)).written ≠ [] := by
  obtain ⟨hopen, hne⟩ := x.open_rescanned clock
  refine Emitter.Open.onEvents (hopen.emit ⟨fun hnil => absurd hnil hne, fun _ => ?_, fun _ => rfl⟩
    EventType.noConfusion) (by simp [Emitter.emit]) _
  exact ⟨fun _ => by simp, by simp⟩

/-- A fatal error is written like any other event. -/
theorem Emitter.Open.fatal {em : Emitter} (h : em.Open) (error : String) :
    RunEvents (em.fatal error).written :=
  h.events_emit ⟨fun _ => .inr rfl, fun _ => ⟨nofun, by simp⟩, fun _ => rfl⟩ nofun

theorem Emitter.Open.summaryEvent {em : Emitter} (h : em.Open) (hne : em.written ≠ [])
    {mode : Mode} (hmode : mode = .scan ∨ mode = .nuke) (notSelected : Nat) :
    RunEvents (em.summaryEvent mode notSelected).written :=
  h.events_emit ⟨fun hnil => absurd hnil hne, fun _ => ⟨nofun, by simp⟩, fun hs => absurd rfl hs⟩
    fun _ => ⟨mode, notSelected, hmode, rfl⟩

/-- A run that fails has not written its summary; what a run writes are its events. -/
theorem run_events (x : Surroundings cn isGlobal now spec) (clock : Nat → Nat) :
    RunEvents (run x (.new clock)).1.written ∧
      (∀ e, (run x (.new clock)).2 = .error e → (run x (.new clock)).1.Open) := by
  obtain ⟨hscan, hscanne⟩ := x.open_rescanned clock
  obtain ⟨hdel, hdelne⟩ := x.open_deleted clock
  unfold run
  split
  · exact ⟨hscan.events, fun _ _ => hscan⟩
  · split
    · exact ⟨hscan.events, fun _ _ => hscan⟩
    · split
      · exact ⟨hscan.summaryEvent hscanne (.inl rfl) 0, nofun⟩
      · split
        · exact ⟨hdel.events, fun _ _ => hdel⟩
        · exact ⟨hdel.summaryEvent hdelne (.inr rfl) _, nofun⟩

end run

/-- What a worker writes are the events of a run. -/
theorem runWorker_events {cn : CloudNuke} {isGlobal : String → Bool} {now : Int}
    (quote : String → String) (clock : Nat → Nat) (input : Except String Spec)
    (x : ∀ spec, input = .ok spec → Surroundings cn isGlobal now spec) :
    RunEvents (runWorker quote clock input x).1.written := by
  unfold runWorker
  cases input with
  | error message => exact (Emitter.open_new clock).fatal _
  | ok spec =>
    dsimp only
    cases spec.validate with
    | error e => exact (Emitter.open_new clock).fatal _
    | ok u =>
      dsimp only
      obtain ⟨hevents, hopen⟩ := run_events (x spec rfl) clock
      rcases hr : run (x spec rfl) (Emitter.new clock) with ⟨em, (_ | _) | _⟩
      all_goals rw [hr] at hevents hopen
      · exact (hopen _ rfl).fatal _
      · exact (hopen _ rfl).fatal _
      · exact hevents

end Broom.Engine
