import Broom.Api.Closing
import Broom.Jobs.Brief
import Broom.Web.LivePage

/-!
# How a live page ends

Events never change the state that a page shows; only a snapshot does. So a page that shows
a final state shows the final snapshot, also where its event stream was cut off. And once
the job has ended, a page that has not failed can always get there: what it waits for is
under way, and nobody else has to move.
-/

namespace Broom.Web

open Broom.Core Broom.Engine Broom.Jobs

variable {fmt : GoFormat} {wf : WireFormat}

/-! ## A finished job -/

/-- The snapshot shows the state of the job. -/
theorem snapshot_state {j : Jobs.Job} {snap : Snapshot} (h : j.snapshot = some snap) :
    snap.state = j.state := by
  unfold Job.snapshot at h
  obtain ⟨found, -, h⟩ := Option.bind_eq_some_iff.mp h
  obtain ⟨results, -, h⟩ := Option.bind_eq_some_iff.mp h
  rw [← Option.some.inj h]

/-- The snapshot does not look at channels. -/
theorem snapshot_of_body {j j' : Jobs.Job} (h : j'.body = j.body) : j'.snapshot = j.snapshot :=
  (congrArg Jobs.Job.snapshot h :)

/-- No step changes what a finished job shows, unless somebody publishes to it. -/
theorem finished_step {server server' : Api.Stream} {a : Api.Act}
    (hs : server.step a = some server') (hquiet : server.Quiet a)
    (hterm : server.job.state.terminal = true) :
    server'.job.snapshot = server.job.snapshot ∧ server'.job.state = server.job.state := by
  have hbody {j : Jobs.Job} (hb : j.body = server.job.body) :
      j.snapshot = server.job.snapshot ∧ j.state = server.job.state :=
    ⟨snapshot_of_body hb, (congrArg Jobs.Job.state hb :)⟩
  cases Api.Stream.moves_of_step hs with
  | job op ha =>
    cases op with
    | publish ev now => cases hterm.symm.trans hquiet
    | setState st errMsg now =>
      refine hbody ?_
      change (server.job.setState st errMsg now).body = server.job.body
      rw [Job.body_setState, if_pos hterm]
    | subscribe afterSeq => exact hbody rfl
    | unsubscribe i => exact hbody (server.job.body_unsubscribe i)
    | receive i => exact hbody (server.job.body_receive i)
    | install => exact ⟨rfl, rfl⟩
  | receive hpc hr =>
    obtain ⟨c, rest, -, -, rfl⟩ := Job.receive_eq hr
    exact hbody rfl
  | unsubscribe hpc | leave hpc => exact hbody (server.job.body_unsubscribe _)
  | subscribe hpc => exact hbody rfl
  | _ => exact ⟨rfl, rfl⟩

/-! ## What a finished page shows -/

/-- Nobody publishes to a finished job. -/
def LiveJob.Quiet (s : LiveJob) : LiveAct → Prop
  | .server a => s.server.Quiet a
  | _ => True

theorem LiveJob.quiet_of_ne {s : LiveJob} {a : LiveAct}
    (h : ∀ ev now, a ≠ .server (.job (.publish ev now))) : s.Quiet a := by
  cases a with
  | server a => exact Api.Stream.quiet_of_ne fun ev now he => h ev now (he ▸ rfl)
  | _ => trivial

/-- The server's job has ended, and this is its snapshot. -/
structure IsFinal (wf : WireFormat) (j : Jobs.Job) (job : Job) : Prop where
  terminal : j.state.terminal = true
  snapshot : j.snapshot.map (encodeSnapshot wf) = some job

/-- Answers and pages with a final state have the final snapshot, and such a page waits for
nothing. -/
structure LiveJob.Final (wf : WireFormat) (s : LiveJob) : Prop where
  answered : ∀ job, Sync.answered job ∈ s.page.syncs → job.state.terminal = true →
    IsFinal wf s.server.job job
  shown : ∀ job ∈ s.page.job, job.state.terminal = true →
    IsFinal wf s.server.job job ∧ s.page.es = none ∧ s.page.syncs = [] ∧ s.page.pending = []

/-- An event does not change the state that is shown. -/
theorem applyEvent_state (st : Loop) (ev : JobEvent) :
    (applyEvent st ev).next.state = st.next.state := by
  unfold applyEvent
  split
  · rfl
  · dsimp only
    cases ev.type with
    | phase => dsimp only; split <;> rfl
    | _ => rfl

theorem applyEvents_state (job : Job) (scanned : Finset String) (events : List JobEvent) :
    (applyEvents job scanned events).1.state = job.state := by
  have hfold (st : Loop) : (events.foldl applyEvent st).next.state = st.next.state := by
    induction events generalizing st with
    | nil => rfl
    | cons ev events ih => exact (ih _).trans (applyEvent_state st ev)
  exact hfold (Loop.start job scanned)

/-- A flush changes nothing on a page with a final state. -/
theorem LivePage.flush_job {p : LivePage} {job : Job} (h : job ∈ p.flush.job)
    (hterm : job.state.terminal = true)
    (hp : ∀ job ∈ p.job, job.state.terminal = true → p.pending = []) :
    p.job = some job ∧ p.flush.pending = p.pending := by
  unfold LivePage.flush at h ⊢
  split at h
  · rename_i hidle
    rw [if_pos hidle]
    exact ⟨h, rfl⟩
  · rename_i hbusy
    split at h
    · rename_i hnone
      have hsome : p.job = some job := h
      rw [hnone] at hsome
      cases hsome
    · rename_i job₀ hjob₀
      obtain rfl := Option.some.inj h
      rw [applyEvents_state] at hterm
      exact absurd (.inr (hp job₀ hjob₀ hterm)) hbusy

namespace LiveJob

variable {s s' : LiveJob}

/-- A page that waits for something does not show a final state. -/
theorem Final.running (h : s.Final wf) (hbusy : s.page.es ≠ none ∨ s.page.syncs ≠ []) :
    ∀ job ∈ s.page.job, job.state.terminal = false := by
  intro job hjob
  rw [← Bool.not_eq_true]
  intro hterm
  obtain ⟨-, hes, hsyncs, -⟩ := h.shown job hjob hterm
  rcases hbusy with hbusy | hbusy
  · exact hbusy hes
  · exact hbusy hsyncs

theorem ne_nil_of_getElem? {rs : List Sync} {i : Nat} {r : Sync} (h : rs[i]? = some r) :
    rs ≠ [] := by
  rintro rfl
  cases h

/-- A page without a final state, in front of the same job. -/
theorem Final.of_running (h : s.Final wf) (hserver : s'.server.job = s.server.job)
    (hrun : ∀ job ∈ s'.page.job, job.state.terminal = false)
    (hsyncs : ∀ r ∈ s'.page.syncs, r ∈ s.page.syncs ∨ r = .sent) : s'.Final wf := by
  refine ⟨fun job hjob hterm => ?_, fun job hjob hterm => ?_⟩
  · rcases hsyncs _ hjob with hold | hnew
    · obtain ⟨hend, hsnap⟩ := h.answered job hold hterm
      exact ⟨hserver ▸ hend, hserver ▸ hsnap⟩
    · cases hnew
  · rw [hrun job hjob] at hterm
    cases hterm

/-- Every quiet step keeps final what is final, and a page that shows a final state as it
is. -/
theorem Final.step {a : LiveAct} (h : s.Final wf) (halone : s.page.Alone)
    (hs : s.step fmt wf a = some s') (hquiet : s.Quiet a) : s'.Final wf := by
  cases moves_of_step hs with
  | @server a server hserver hgone =>
    have hkeep {job : Job} (hfinal : IsFinal wf s.server.job job) : IsFinal wf server.job job := by
      obtain ⟨hsnap, hstate⟩ := finished_step hserver hquiet hfinal.terminal
      exact ⟨hstate ▸ hfinal.terminal, hsnap ▸ hfinal.snapshot⟩
    refine ⟨fun job hjob hterm => hkeep (h.answered job hjob hterm), fun job hjob hterm => ?_⟩
    obtain ⟨hfinal, hrest⟩ := h.shown job hjob hterm
    exact ⟨hkeep hfinal, hrest⟩
  | @answer i snap hi hsnap =>
    have hrun := h.running (.inr (ne_nil_of_getElem? hi))
    refine ⟨fun job hjob hterm => ?_, fun job hjob hterm => ?_⟩
    · rcases List.mem_or_eq_of_mem_set hjob with hold | hnew
      · exact h.answered job hold hterm
      · obtain rfl := Sync.answered.inj hnew
        have hstate : snap.state = s.server.job.state := snapshot_state hsnap
        exact ⟨hstate ▸ hterm, by rw [hsnap]; rfl⟩
    · rw [hrun job hjob] at hterm
      cases hterm
  | @load i job hi =>
    have hrun := h.running (.inr (ne_nil_of_getElem? hi))
    have hnil := halone.eraseIdx hi
    cases hc : s.page.cancelled with
    | true =>
      have heq : { s.page with syncs := s.page.syncs.eraseIdx i }.load job =
          { s.page with syncs := s.page.syncs.eraseIdx i } := if_pos hc
      rw [heq]
      exact h.of_running rfl hrun fun r hr => .inl (List.mem_of_mem_eraseIdx hr)
    | false =>
      refine ⟨fun job' hjob' => ?_, fun job' hjob' hterm => ?_⟩
      · rw [LivePage.load_syncs, hnil] at hjob'
        cases hjob'
      · have hjob : job = job' := by
          unfold LivePage.load at hjob'
          rw [if_neg (by simp [hc])] at hjob'
          split at hjob' <;> exact Option.some.inj hjob'
        subst hjob
        have heq : { s.page with syncs := s.page.syncs.eraseIdx i }.load job =
            { s.page with syncs := [], pending := [], job := some job, error := none
                          sessionExpired := false, es := none } := by
          rw [hnil, LivePage.load, if_neg (by simp [hc]), if_pos hterm]
          rfl
        rw [heq]
        exact ⟨h.answered job (List.mem_of_getElem? hi) hterm, rfl, rfl, rfl⟩
  | fail message status hi =>
    have hrun := h.running (.inr (ne_nil_of_getElem? (List.getElem?_eq_getElem hi)))
    obtain ⟨-, hsyncs, hjob, -⟩ := LivePage.fail_same
      { s.page with syncs := s.page.syncs.eraseIdx _ } message status
    refine h.of_running rfl ?_ ?_
    · rw [hjob]
      exact hrun
    · rw [hsyncs]
      exact fun r hr => .inl (List.mem_of_mem_eraseIdx hr)
  | connect hes hc | drop hes hc =>
    have hrun := h.running (.inl (by rw [hes]; exact Option.some_ne_none _))
    exact h.of_running rfl hrun fun r hr => .inl hr
  | refuse hes hc | done hes hc hread hdone =>
    have hrun := h.running (.inl (by rw [hes]; exact Option.some_ne_none _))
    refine h.of_running rfl hrun fun r hr => ?_
    rw [halone.resync hes] at hr
    exact .inr (List.mem_singleton.mp hr)
  | deliver hes hc hev =>
    have hrun := h.running (.inl (by rw [hes]; exact Option.some_ne_none _))
    refine h.of_running rfl ?_ ?_
    · rw [(LivePage.dispatch_same _ _).2.2.1]
      exact hrun
    · rw [(LivePage.dispatch_same _ _).2.1]
      exact fun r hr => .inl hr
  | paint hframe =>
    obtain ⟨hes, hsyncs, -⟩ := s.page.flush_same
    refine ⟨fun job hjob hterm => h.answered job (hsyncs ▸ hjob) hterm, fun job hjob hterm => ?_⟩
    obtain ⟨hsame, hpending⟩ := LivePage.flush_job hjob hterm
      fun job hjob hterm => (h.shown job hjob hterm).2.2.2
    obtain ⟨hfinal, hes₀, hsyncs₀, hpending₀⟩ := h.shown job hsame hterm
    exact ⟨hfinal, hes.trans hes₀, hsyncs.trans hsyncs₀, hpending.trans hpending₀⟩
  | leave hc =>
    refine ⟨h.answered, fun job hjob hterm => ?_⟩
    obtain ⟨hfinal, -, hsyncs, hpending⟩ := h.shown job hjob hterm
    exact ⟨hfinal, rfl, hsyncs, hpending⟩

/-- A page that shows a final state goes on to show what it shows. -/
theorem Final.job_step {a : LiveAct} (h : s.Final wf) (hs : s.step fmt wf a = some s')
    {job : Job} (hjob : s.page.job = some job) (hterm : job.state.terminal = true) :
    s'.page.job = some job := by
  have hbusy {P : Prop} (hb : s.page.es ≠ none ∨ s.page.syncs ≠ []) : P := by
    have hrun := h.running hb job hjob
    rw [hterm] at hrun
    cases hrun
  cases moves_of_step hs with
  | server hserver hgone => exact hjob
  | answer hi hsnap => exact hbusy (.inr (ne_nil_of_getElem? hi))
  | load hi => exact hbusy (.inr (ne_nil_of_getElem? hi))
  | fail message status hi =>
    exact hbusy (.inr (ne_nil_of_getElem? (List.getElem?_eq_getElem hi)))
  | connect hes | refuse hes | drop hes | deliver hes | done hes =>
    exact hbusy (.inl (by rw [hes]; exact Option.some_ne_none _))
  | paint hframe =>
    have hidle : s.page.flush = { s.page with frame := false } :=
      if_pos (.inr (h.shown job hjob hterm).2.2.2)
    change s.page.flush.job = some job
    rw [hidle]
    exact hjob
  | leave hc => exact hjob

/-! ## Whole runs -/

theorem alone_start (j : Jobs.Job) : (LiveJob.start j).page.Alone :=
  ⟨fun source hes => absurd hes (Option.not_mem_none source), le_rfl⟩

theorem final_start (j : Jobs.Job) : (LiveJob.start j).Final wf := by
  refine ⟨fun job hjob => ?_, fun job hjob => absurd hjob (Option.not_mem_none job)⟩
  cases List.mem_singleton.mp hjob

/-- Every quiet run keeps final what is final. -/
theorem Final.run {acts : List LiveAct} (h : s.Final wf) (halone : s.page.Alone)
    (hrun : execute (LiveJob.step fmt wf) s acts = some s')
    (hquiet : Along (LiveJob.step fmt wf) Quiet s acts) : s'.Final wf ∧ s'.page.Alone :=
  hquiet.invariant hrun (fun s => s.Final wf ∧ s.page.Alone) ⟨h, halone⟩
    fun _ _ _ hs hquiet hinv => ⟨hinv.1.step hinv.2 hs hquiet, hinv.2.step hs⟩

theorem Final.job_run {acts : List LiveAct} (h : s.Final wf) (halone : s.page.Alone)
    (hrun : execute (LiveJob.step fmt wf) s acts = some s')
    (hquiet : Along (LiveJob.step fmt wf) Quiet s acts) {job : Job}
    (hjob : s.page.job = some job) (hterm : job.state.terminal = true) :
    s'.page.job = some job := by
  have hinv := hquiet.invariant hrun
    (fun s => (s.Final wf ∧ s.page.Alone) ∧ s.page.job = some job) ⟨⟨h, halone⟩, hjob⟩
    fun _ _ _ hs hquiet hinv => ⟨⟨hinv.1.1.step hinv.1.2 hs hquiet, hinv.1.2.step hs⟩,
      hinv.1.1.job_step hs hinv.2 hterm⟩
  exact hinv.2

end LiveJob

/-- As long as nobody publishes to a finished job, a page that shows a final state shows
exactly the snapshot of the ended job, however its stream ended, with no request or stream
left; and it shows that whatever happens next. -/
theorem live_page_final (fmt : GoFormat) (wf : WireFormat) (j : Jobs.Job) (acts : List LiveAct)
    (s : LiveJob) (hrun : execute (LiveJob.step fmt wf) (.start j) acts = some s)
    (hquiet : Along (LiveJob.step fmt wf) LiveJob.Quiet (.start j) acts) (job : Job)
    (hjob : s.page.job = some job) (hterm : job.state.terminal = true) :
    s.server.job.state.terminal = true ∧
      s.server.job.snapshot.map (encodeSnapshot wf) = some job ∧
      s.page.es = none ∧ s.page.syncs = [] ∧
      ∀ more s', execute (LiveJob.step fmt wf) s more = some s' →
        Along (LiveJob.step fmt wf) LiveJob.Quiet s more → s'.page.job = some job := by
  obtain ⟨hfinal, halone⟩ := (LiveJob.final_start j).run (LiveJob.alone_start j) hrun hquiet
  obtain ⟨⟨hend, hsnap⟩, hes, hsyncs, -⟩ := hfinal.shown job hjob hterm
  exact ⟨hend, hsnap, hes, hsyncs,
    fun more s' hmore hquiet => hfinal.job_run halone hmore hquiet hjob hterm⟩

/-- A page loads a running scan. A topic is found and the scan succeeds before the browser
connects, the server refuses the stream, and the page asks again. -/
def refusedActs : List LiveAct :=
  [.answer 0, .load 0, .server (.job (.publish { type := .resourceFound, identifier := "a" } 3)),
    .server (.job (.setState .succeeded "" 4)), .refuse, .answer 0, .load 0]

theorem refusedActs_final :
    ∃ s job, execute (LiveJob.step smallFormat ⟨smallFormat.time, smallFormat.duration⟩)
        (.start Api.runningScan) refusedActs = some s ∧ s.page.job = some job ∧
      s.server.job.snapshot.map (encodeSnapshot ⟨smallFormat.time, smallFormat.duration⟩) =
        some job ∧
      s.page.es = none ∧ s.page.syncs = [] := by
  obtain ⟨s, hrun, job, hjob, hterm⟩ : ∃ s,
      execute (LiveJob.step smallFormat ⟨smallFormat.time, smallFormat.duration⟩)
        (.start Api.runningScan) refusedActs = some s ∧
      ∃ job, s.page.job = some job ∧ job.state.terminal = true := ⟨_, rfl, _, rfl, rfl⟩
  have hquiet : Along (LiveJob.step smallFormat ⟨smallFormat.time, smallFormat.duration⟩)
      LiveJob.Quiet (.start Api.runningScan) refusedActs :=
    .cons trivial rfl (.cons trivial rfl (.cons rfl rfl
      (along_of_forall fun a ha _ => LiveJob.quiet_of_ne fun ev now he => by simp [he] at ha)))
  obtain ⟨-, hsnap, hes, hsyncs, -⟩ := live_page_final smallFormat
    ⟨smallFormat.time, smallFormat.duration⟩ Api.runningScan refusedActs s hrun hquiet job hjob
    hterm
  exact ⟨s, job, hrun, hjob, hsnap, hes, hsyncs⟩

/-! ## Getting there -/

/-- No operation takes a channel away. -/
theorem chans_length_le {j : Jobs.Job} (h : j.Channels) (op : JobOp) :
    j.chans.length ≤ (j.step op).chans.length := by
  cases op with
  | publish ev now => exact (h.touched_publish ev now).length.ge
  | setState st errMsg now =>
    change j.chans.length ≤ (j.setState st errMsg now).chans.length
    cases hj : j.state.terminal with
    | true => simp [Job.setState, hj]
    | false =>
      cases hst : st.terminal with
      | true => exact (h.touched_setState hj hst errMsg now).length.ge
      | false => simp [Job.setState, hj, hst]
  | subscribe afterSeq => simp [Job.step, Job.subscribe]
  | unsubscribe i =>
    change j.chans.length ≤ (j.unsubscribe i).chans.length
    unfold Job.unsubscribe
    split
    · rename_i hi
      obtain ⟨c, hc, ho⟩ := h.opened i hi
      rw [Job.drop_touches j i c hc ho, List.length_set]
    · exact le_rfl
  | receive i =>
    change j.chans.length ≤ (((j.receive i).map Prod.snd).getD j).chans.length
    cases hr : j.receive i with
    | none => exact le_rfl
    | some p =>
      obtain ⟨c, rest, -, -, hj⟩ := Job.receive_eq hr
      rw [Option.map_some, Option.getD_some, hj, List.length_set]
  | install => exact le_rfl

/-- The handler is on its way out. -/
def ending : Api.Pc → Bool
  | .leaving _ | .returned => true
  | .subscribing | .receiving _ | .closed _ | .dropped _ => false

/-- A handler whose job settles its channels, and whose own channel was handed out. -/
structure Attached (server : Api.Stream) : Prop where
  settled : server.job.Settled
  consistent : server.job.Consistent
  chan : ∀ ch, server.pc.chan = some ch → ch < server.job.chans.length

theorem Attached.step {server server' : Api.Stream} {a : Api.Act} (h : Attached server)
    (hs : server.step a = some server') : Attached server' := by
  obtain ⟨ops, hops⟩ := Api.Stream.job_step hs
  refine ⟨hops ▸ h.settled.run ops, hops ▸ (h.consistent.run ops).1, fun ch hch => ?_⟩
  have hlen (op : JobOp) := chans_length_le h.settled.channels op
  cases Api.Stream.moves_of_step hs with
  | job op ha => exact Nat.lt_of_lt_of_le (h.chan ch hch) (hlen op)
  | subscribe hpc =>
    obtain rfl := Option.some.inj hch
    simp [Job.subscribe]
  | @receive i ev j hpc hr =>
    have hj : server.job.step (.receive i) = j := by simp [Job.step, hr]
    exact hj ▸ Nat.lt_of_lt_of_le (h.chan ch hch) (hlen (.receive i))
  | closed hpc | finish hpc | resume hpc | disconnect hpc =>
    exact h.chan ch (by rw [hpc]; exact hch)
  | unsubscribe hpc | leave hpc => cases hch

/-- A step that is the handler's own, with its client still there. -/
def own : Api.Act → Bool
  | .subscribe | .receive | .closed | .snapshot | .unsubscribe => true
  | .job _ | .disconnect | .leave => false

theorem quiet_of_own {server : Api.Stream} {a : Api.Act} (h : own a = true) : server.Quiet a :=
  Api.Stream.quiet_of_ne fun _ _ he => by
    rw [he] at h
    cases h

/-- On a finished job a handler that waits on its channel comes to the closing event. -/
theorem Attached.receiving {server : Api.Stream} {ch : Nat} (h : Attached server)
    (hterm : server.job.state.terminal = true) (hpc : server.pc = .receiving ch) :
    ∃ acts server', (∀ a ∈ acts, own a = true) ∧
      execute Api.Stream.step server acts = some server' ∧ server'.done.isSome = true := by
  have hlt := h.chan ch (by rw [hpc]; rfl)
  have hshut : server.job.Shut ch := by
    refine Job.shut_of_not_open hlt fun hopen => ?_
    have hmem := h.settled.subscribed ch hopen
    rw [h.settled.ended hterm] at hmem
    cases hmem
  obtain ⟨c, hch, hclosed⟩ := Job.shut_iff.mp hshut
  obtain ⟨server', hexec, hdone⟩ := Api.Stream.execute_finish hpc hch hclosed hterm
  refine ⟨_, server', fun a ha => ?_, hexec, hdone⟩
  rcases List.mem_append.mp ha with ha | ha
  · rw [List.eq_of_mem_replicate ha]
    rfl
  · rcases List.mem_pair.mp ha with rfl | rfl <;> rfl

/-- On a finished job every handler that was not left alone comes to the closing event. -/
theorem Attached.exists_done {server : Api.Stream} (h : Attached server)
    (hterm : server.job.state.terminal = true)
    (hend : ending server.pc = true → server.done.isSome = true) :
    ∃ acts server', (∀ a ∈ acts, own a = true) ∧
      execute Api.Stream.step server acts = some server' ∧ server'.done.isSome = true := by
  have hcons {server : Api.Stream} (h : Attached server)
      (hterm : server.job.state.terminal = true) {a : Api.Act} (ha : own a = true)
      {server' : Api.Stream} (hs : server.step a = some server')
      (hrest : Attached server' → server'.job.state.terminal = true →
        ∃ acts server'', (∀ a ∈ acts, own a = true) ∧
          execute Api.Stream.step server' acts = some server'' ∧ server''.done.isSome = true) :
      ∃ acts server'', (∀ a ∈ acts, own a = true) ∧
        execute Api.Stream.step server acts = some server'' ∧ server''.done.isSome = true := by
    obtain ⟨acts, server'', hacts, hexec, hdone⟩ := hrest (h.step hs)
      ((finished_step hs (quiet_of_own ha) hterm).2 ▸ hterm)
    refine ⟨a :: acts, server'', List.forall_mem_cons.mpr ⟨ha, hacts⟩, ?_, hdone⟩
    rw [execute, hs]
    exact hexec
  have hsubscribing {server : Api.Stream} (h : Attached server)
      (hterm : server.job.state.terminal = true) (hpc : server.pc = .subscribing) :=
    hcons h hterm (a := .subscribe) rfl (by rw [Api.Stream.step, hpc])
      fun h hterm => h.receiving hterm rfl
  cases hpc : server.pc with
  | subscribing => exact hsubscribing h hterm hpc
  | receiving ch => exact h.receiving hterm hpc
  | closed ch =>
    exact hcons h hterm (a := .snapshot) rfl (by rw [Api.Stream.step, hpc]; exact if_pos hterm)
      fun _ _ => ⟨[], _, fun _ ha => absurd ha List.not_mem_nil, rfl, rfl⟩
  | dropped ch =>
    exact hcons h hterm (a := .unsubscribe) rfl (by rw [Api.Stream.step, hpc])
      fun h hterm => hsubscribing h hterm rfl
  | leaving ch | returned =>
    exact ⟨[], server, fun _ ha => absurd ha List.not_mem_nil, rfl, hend (by rw [hpc]; rfl)⟩

/-! ## Nothing is lost sight of -/

/-- The handler of an open connection reads on, and a page that has not failed waits for
something or is finished. -/
structure LiveJob.Lively (s : LiveJob) : Prop where
  attached : Attached s.server
  reading : ∀ source ∈ s.page.es, source.connected = true →
    source.read ≤ s.server.written.length ∧
      (ending s.server.pc = true → s.server.done.isSome = true)
  waiting : s.page.cancelled = false → s.page.error = none →
    s.page.syncs ≠ [] ∨ s.page.es ≠ none ∨ ∃ job ∈ s.page.job, job.state.terminal = true

/-- What the handler has written stays, and with a client it leaves only when it is done. -/
theorem reading_step {server server' : Api.Stream} {a : Api.Act} {read : Nat}
    (hs : server.step a = some server') (hgone : gone a = false)
    (hread : read ≤ server.written.length)
    (hend : ending server.pc = true → server.done.isSome = true) :
    read ≤ server'.written.length ∧ (ending server'.pc = true → server'.done.isSome = true) := by
  cases Api.Stream.moves_of_step hs with
  | job op ha => exact ⟨hread, hend⟩
  | receive hpc hr =>
    rw [hpc] at hend
    refine ⟨hread.trans ?_, fun h => ?_⟩
    · simp
    · rw [hpc] at h
      exact hend h
  | subscribe hpc | closed hpc | resume hpc | unsubscribe hpc =>
    exact ⟨hread, fun h => absurd h Bool.false_ne_true⟩
  | finish hpc => exact ⟨hread, fun _ => rfl⟩
  | disconnect hpc => cases hgone
  | leave hpc => exact ⟨hread, fun _ => hend (by rw [hpc]; rfl)⟩

theorem LivePage.flush_state {p : LivePage} {job : Job} (h : p.job = some job) :
    ∃ job' ∈ p.flush.job, job'.state = job.state := by
  unfold LivePage.flush
  split
  · exact ⟨job, h, rfl⟩
  · rw [h]
    exact ⟨_, rfl, applyEvents_state ..⟩

/-- A source that a load opens is not connected yet. -/
theorem LivePage.load_source {p : LivePage} {job : Job} (source : Source)
    (hes : source ∈ (p.load job).es) (hc : source.connected = true) : source ∈ p.es := by
  unfold LivePage.load at hes
  split at hes
  · exact hes
  · split at hes
    · exact absurd hes (Option.not_mem_none source)
    · obtain rfl := Option.some.inj hes
      cases hc

theorem LivePage.load_waiting {p : LivePage} {job : Job} (hc : (p.load job).cancelled = false) :
    (p.load job).es ≠ none ∨ ∃ job' ∈ (p.load job).job, job'.state.terminal = true := by
  unfold LivePage.load at hc ⊢
  split at hc
  · rename_i hcancelled
    rw [hcancelled] at hc
    cases hc
  · rename_i hcancelled
    rw [if_neg hcancelled]
    split
    · exact .inr ⟨job, rfl, ‹_›⟩
    · exact .inl (Option.some_ne_none _)

theorem LivePage.fail_error {p : LivePage} {message : String} {status : Option Nat}
    (hc : (p.fail message status).cancelled = false) : (p.fail message status).error ≠ none := by
  unfold LivePage.fail at hc ⊢
  split at hc
  · rename_i hcancelled
    rw [hcancelled] at hc
    cases hc
  · rename_i hcancelled
    rw [if_neg hcancelled]
    exact Option.some_ne_none _

namespace LiveJob

variable {s s' : LiveJob}

theorem Lively.step {a : LiveAct} (h : s.Lively) (hs : s.step fmt wf a = some s') :
    s'.Lively := by
  cases moves_of_step hs with
  | @server a server hserver hgone =>
    refine ⟨h.attached.step hserver, fun source hes hc => ?_, h.waiting⟩
    obtain ⟨hread, hend⟩ := h.reading source hes hc
    refine reading_step hserver ?_ hread hend
    rw [← Bool.not_eq_true]
    intro hg
    rw [hgone hg source hes] at hc
    cases hc
  | answer hi hsnap =>
    refine ⟨h.attached, h.reading, fun _ _ => .inl fun hnil => ne_nil_of_getElem? hi ?_⟩
    exact List.eq_nil_of_length_eq_zero (List.length_set ▸ congrArg List.length hnil)
  | @load i job hi =>
    refine ⟨h.attached, fun source hes hc => h.reading source ?_ hc,
      fun hc _ => .inr (LivePage.load_waiting hc)⟩
    exact LivePage.load_source (p := { s.page with syncs := s.page.syncs.eraseIdx i }) source hes hc
  | fail message status hi =>
    refine ⟨h.attached, fun source => ?_, fun hc herror => absurd herror (LivePage.fail_error hc)⟩
    rw [(LivePage.fail_same _ message status).1]
    exact h.reading source
  | connect hes hc =>
    refine ⟨⟨h.attached.settled, h.attached.consistent, fun _ hch => by cases hch⟩,
      fun source hsome _ => ?_, fun _ _ => .inr (.inl (Option.some_ne_none _))⟩
    obtain rfl := Option.some.inj hsome
    exact ⟨Nat.zero_le _, fun hend => absurd hend Bool.false_ne_true⟩
  | refuse hes hc | done hes hc hread hdone =>
    refine ⟨h.attached, fun source hsome => absurd hsome (Option.not_mem_none source),
      fun _ _ => .inl ?_⟩
    exact List.append_ne_nil_of_right_ne_nil _ (List.cons_ne_nil _ _)
  | drop hes hc =>
    refine ⟨h.attached, fun source hsome hconn => ?_,
      fun _ _ => .inr (.inl (Option.some_ne_none _))⟩
    obtain rfl := Option.some.inj hsome
    cases hconn
  | @deliver source ev hes hc hev =>
    obtain ⟨hes', -⟩ := LivePage.dispatch_same
      { s.page with es := some (source.take (message fmt ev)) } (message fmt ev)
    refine ⟨h.attached, fun source' hsome _ => ?_, fun _ _ => .inr (.inl ?_)⟩
    · rw [hes'] at hsome
      obtain rfl := Option.some.inj hsome
      exact ⟨(List.getElem?_eq_some_iff.mp hev).1, (h.reading source hes hc).2⟩
    · rw [hes']
      exact Option.some_ne_none _
  | paint hframe =>
    obtain ⟨hes, hsyncs, hcancelled, herror⟩ := s.page.flush_same
    refine ⟨h.attached, ?_, ?_⟩
    · rw [hes]
      exact h.reading
    · rw [hes, hsyncs, hcancelled, herror]
      intro hc he
      refine (h.waiting hc he).imp_right (Or.imp_right ?_)
      rintro ⟨job, hjob, hterm⟩
      obtain ⟨job', hjob', hstate⟩ := LivePage.flush_state hjob
      exact ⟨job', hjob', hstate ▸ hterm⟩
  | leave hc =>
    exact ⟨h.attached, fun source hsome => absurd hsome (Option.not_mem_none source),
      fun hc' => absurd hc' (Bool.noConfusion ·)⟩

theorem Lively.start {j : Jobs.Job} (hsettled : j.Settled) (hcons : j.Consistent) :
    (LiveJob.start j).Lively :=
  ⟨⟨hsettled, hcons, fun _ hch => by cases hch⟩,
    fun source hsome => absurd hsome (Option.not_mem_none source),
    fun _ _ => .inl (List.cons_ne_nil _ _)⟩

/-! ## The way to the final snapshot -/

/-- Nobody operates on the job, and nothing fails. -/
def smooth : LiveAct → Bool
  | .server a => own a
  | .answer _ | .load _ | .connect | .deliver | .done => true
  | .fail _ _ _ | .refuse | .drop | .paint | .leave => false

/-- The page can get to the final snapshot without anything failing. -/
def Reaches (fmt : GoFormat) (wf : WireFormat) (s : LiveJob) : Prop :=
  ∃ acts s' job, (∀ a ∈ acts, smooth a = true) ∧
    execute (LiveJob.step fmt wf) s acts = some s' ∧ s'.page.job = some job ∧
    IsFinal wf s'.server.job job

theorem Reaches.of_execute {acts : List LiveAct} (hacts : ∀ a ∈ acts, smooth a = true)
    (hrun : execute (LiveJob.step fmt wf) s acts = some s') (h : s'.Reaches fmt wf) :
    s.Reaches fmt wf := by
  obtain ⟨acts', s'', job, hacts', hrun', hjob, hfinal⟩ := h
  refine ⟨acts ++ acts', s'', job, fun a ha => ?_, ?_, hjob, hfinal⟩
  · exact (List.mem_append.mp ha).elim (hacts a) (hacts' a)
  · rw [execute_append, hrun]
    exact hrun'

theorem Reaches.of_step {a : LiveAct} (ha : smooth a = true) (hs : s.step fmt wf a = some s')
    (h : s'.Reaches fmt wf) : s.Reaches fmt wf :=
  h.of_execute (List.forall_mem_singleton.mpr ha) (show execute _ s [a] = some s' by
    rw [execute, hs]
    rfl)

/-- A page whose request is not answered yet. -/
theorem Lively.reaches_of_sent (h : s.Lively) (hterm : s.server.job.state.terminal = true)
    (hc : s.page.cancelled = false) (hsyncs : s.page.syncs = [.sent]) : s.Reaches fmt wf := by
  obtain ⟨snap, hsnap, -⟩ := h.attached.consistent.snapshot
  have hjob : (encodeSnapshot wf snap).state.terminal = true := by
    change snap.state.terminal = true
    rw [snapshot_state hsnap, hterm]
  have hanswer : s.step fmt wf (.answer 0) = some { s with page := { s.page with
      syncs := [.answered (encodeSnapshot wf snap)] } } := by
    simp [LiveJob.step, hsyncs, hsnap]
  have hload : LiveJob.step fmt wf { s with page := { s.page with
      syncs := [.answered (encodeSnapshot wf snap)] } } (.load 0) =
      some { s with page := { s.page with syncs := [] }.load (encodeSnapshot wf snap) } := rfl
  refine ⟨[.answer 0, .load 0],
    { s with page := { s.page with syncs := [] }.load (encodeSnapshot wf snap) },
    encodeSnapshot wf snap, by simp [smooth], ?_, ?_, hterm, ?_⟩
  · rw [execute, hanswer, Option.bind_some, execute, hload]
    rfl
  · simp [LivePage.load, hc, hjob, LivePage.close]
  · rw [hsnap]
    rfl

/-- What the handler does on its own, the whole does. -/
theorem execute_server (fmt : GoFormat) (wf : WireFormat) {acts : List Api.Act}
    {server : Api.Stream} (hacts : ∀ a ∈ acts, own a = true)
    (hrun : execute Api.Stream.step s.server acts = some server) :
    execute (LiveJob.step fmt wf) s (acts.map .server) = some { s with server := server } := by
  induction acts generalizing s with
  | nil =>
    obtain rfl := Option.some.inj hrun
    rfl
  | cons a acts ih =>
    obtain ⟨server₁, hs, hrest⟩ := Option.bind_eq_some_iff.mp hrun
    obtain ⟨ha, hacts⟩ := List.forall_mem_cons.mp hacts
    have hgone : gone a = false := by
      cases a <;> first | rfl | cases ha
    have hstep : s.step fmt wf (.server a) = some { s with server := server₁ } := by
      simp [LiveJob.step, hgone, hs]
    rw [List.map_cons, execute, hstep]
    exact ih (s := { s with server := server₁ }) hacts hrest

/-- A connected page takes everything that was written. -/
theorem execute_deliver (fmt : GoFormat) (wf : WireFormat) {source : Source} {left : Nat}
    (hes : s.page.es = some source) (hc : source.connected = true)
    (hleft : source.read + left = s.server.written.length) :
    ∃ s' source', execute (LiveJob.step fmt wf) s (List.replicate left .deliver) = some s' ∧
      s'.server = s.server ∧ s'.page.cancelled = s.page.cancelled ∧
      s'.page.es = some source' ∧ source'.connected = true ∧
      source'.read = s.server.written.length := by
  induction left generalizing s source with
  | zero => exact ⟨s, source, rfl, rfl, rfl, hes, hc, hleft⟩
  | succ left ih =>
    obtain ⟨ev, hev⟩ : ∃ ev, s.server.written[source.read]? = some ev :=
      ⟨_, List.getElem?_eq_getElem (by omega)⟩
    obtain ⟨s₁, hs₁, hserver₁, hes₁, hcancelled₁⟩ : ∃ s₁, s.step fmt wf .deliver = some s₁ ∧
        s₁.server = s.server ∧ s₁.page.es = some (source.take (message fmt ev)) ∧
        s₁.page.cancelled = s.page.cancelled := by
      obtain ⟨page, hpage⟩ : ∃ page, page = LivePage.dispatch
        { s.page with es := some (source.take (message fmt ev)) } (message fmt ev) := ⟨_, rfl⟩
      obtain ⟨hes', -, -, hcancelled, -⟩ := LivePage.dispatch_same
        { s.page with es := some (source.take (message fmt ev)) } (message fmt ev)
      rw [← hpage] at hes' hcancelled
      refine ⟨{ s with page := page }, ?_, rfl, hes', hcancelled⟩
      simp [LiveJob.step, hes, hc, hev, hpage]
    have hleft₁ : (source.take (message fmt ev)).read + left = s₁.server.written.length := by
      rw [hserver₁, ← hleft]
      exact Nat.succ_add_eq_add_succ ..
    obtain ⟨s', source', hexec, hserver, hcancelled, hes', hc', hread⟩ := ih hes₁ hc hleft₁
    refine ⟨s', source', ?_, hserver.trans hserver₁, hcancelled.trans hcancelled₁, hes', hc',
      hserver₁ ▸ hread⟩
    rw [List.replicate_succ, execute, hs₁]
    exact hexec

theorem Lively.execute {acts : List LiveAct} (h : s.Lively)
    (hrun : execute (LiveJob.step fmt wf) s acts = some s') : s'.Lively :=
  invariant_of_execute hrun Lively h fun _ _ _ hs hinv => hinv.step hs

/-- A page whose connection is open. -/
theorem Lively.reaches_of_connected (h : s.Lively) (halone : s.page.Alone)
    (hterm : s.server.job.state.terminal = true) (hcancelled : s.page.cancelled = false)
    {source : Source} (hes : s.page.es = some source) (hc : source.connected = true) :
    s.Reaches fmt wf := by
  -- the handler comes to the closing event
  obtain ⟨acts, server, hacts, hrun, hdone⟩ :=
    h.attached.exists_done hterm (h.reading source hes hc).2
  have hserver := execute_server fmt wf hacts hrun
  have h₁ := h.execute hserver
  have hquiet : Along Api.Stream.step Api.Stream.Quiet s.server acts :=
    along_of_forall fun a ha _ => quiet_of_own (hacts a ha)
  have hterm₁ : server.job.state.terminal = true :=
    hquiet.invariant hrun (fun server => server.job.state.terminal = true) hterm
      fun _ _ _ hs hquiet hinv => (finished_step hs hquiet hinv).2 ▸ hinv
  refine .of_execute (fun a ha => ?_) hserver ?_
  · obtain ⟨b, hb, rfl⟩ := List.mem_map.mp ha
    exact hacts b hb
  -- the page reads everything before it
  obtain ⟨left, hleft⟩ := Nat.exists_eq_add_of_le (h₁.reading source hes hc).1
  obtain ⟨s₂, source₂, hdeliver, hserver₂, hcancelled₂, hes₂, hc₂, hread₂⟩ :=
    execute_deliver fmt wf (s := { s with server := server }) hes hc hleft.symm
  have h₂ := h₁.execute hdeliver
  have halone₂ : s₂.page.Alone := invariant_of_execute hdeliver (fun s => s.page.Alone) halone
    fun _ _ _ hs hinv => hinv.step hs
  refine .of_execute (fun a ha => ?_) hdeliver ?_
  · rw [List.eq_of_mem_replicate ha]
    rfl
  -- and asks for a snapshot
  have hs₃ : s₂.step fmt wf .done = some { s₂ with page := s₂.page.resync } := by
    simp [LiveJob.step, hes₂, hc₂, hread₂, hserver₂, hdone]
  refine .of_step (a := .done) rfl hs₃ ?_
  refine (h₂.step hs₃).reaches_of_sent ?_ (hcancelled₂.trans hcancelled) (halone₂.resync hes₂)
  rw [hserver₂]
  exact hterm₁

/-- A page with a source. -/
theorem Lively.reaches_of_source (h : s.Lively) (halone : s.page.Alone)
    (hterm : s.server.job.state.terminal = true) (hcancelled : s.page.cancelled = false)
    {source : Source} (hes : s.page.es = some source) : s.Reaches fmt wf := by
  cases hc : source.connected with
  | true => exact h.reaches_of_connected halone hterm hcancelled hes hc
  | false =>
    have hs : s.step fmt wf .connect = some
        { page := { s.page with es := some { source with connected := true, read := 0 } }
          server := Api.handleJobEvents s.server.job source.resume } := by
      simp [LiveJob.step, hes, hc]
    exact .of_step (a := .connect) rfl hs
      ((h.step hs).reaches_of_connected (halone.step hs) hterm hcancelled rfl rfl)

/-- A page that has not failed and has not been left. -/
theorem Lively.reaches (h : s.Lively) (halone : s.page.Alone) (hfinal : s.Final wf)
    (hterm : s.server.job.state.terminal = true) (hcancelled : s.page.cancelled = false)
    (herror : s.page.error = none) : s.Reaches fmt wf := by
  rcases h.waiting hcancelled herror with hsyncs | hes | ⟨job, hjob, hend⟩
  · obtain ⟨r, hr⟩ := List.exists_mem_of_ne_nil _ hsyncs
    obtain ⟨i, hi⟩ := List.mem_iff_getElem?.mp hr
    obtain ⟨rfl, hone⟩ := halone.eq_singleton hi
    cases r with
    | sent => exact h.reaches_of_sent hterm hcancelled hone
    | answered job =>
      have hs : s.step fmt wf (.load 0) = some
          { s with page := { s.page with syncs := s.page.syncs.eraseIdx 0 }.load job } := by
        simp [LiveJob.step, hi]
      refine .of_step (a := .load 0) rfl hs ?_
      cases hend : job.state.terminal with
      | true =>
        have hanswered := hfinal.answered job (hone ▸ List.mem_singleton_self _) hend
        refine ⟨[], _, job, fun _ ha => absurd ha List.not_mem_nil, rfl, ?_, hanswered⟩
        simp [LivePage.load, hcancelled, hend, LivePage.close]
      | false =>
        have hload : ({ s.page with syncs := s.page.syncs.eraseIdx 0 }.load job).cancelled = false ∧
            ({ s.page with syncs := s.page.syncs.eraseIdx 0 }.load job).es =
              some { after := Nat.toDigits 10 job.lastSeq } := by
          simp [LivePage.load, hcancelled, hend, LivePage.openSource, LivePage.close]
        exact (h.step hs).reaches_of_source (halone.step hs) hterm hload.1 hload.2
  · obtain ⟨source, hsome⟩ := Option.ne_none_iff_exists'.mp hes
    exact h.reaches_of_source halone hterm hcancelled hsome
  · exact ⟨[], s, job, fun _ ha => absurd ha List.not_mem_nil, rfl, hjob,
      (hfinal.shown job hjob hend).1⟩

end LiveJob

/-- At whatever point of a run the job has ended, a page that is still there and has not
failed can come to show the final snapshot, unless somebody has published to the finished job:
steps of the network, the browser and the handler are enough, none of which fails. -/
theorem live_page_settles (fmt : GoFormat) (wf : WireFormat) (id sessionId accountId : String)
    (spec : Engine.Spec) (now : Nat) (ops : List JobOp) (acts : List LiveAct) (s : LiveJob)
    (hrun : execute (LiveJob.step fmt wf)
      (.start ((newJob id sessionId accountId spec now).run ops)) acts = some s)
    (hquiet : Along (LiveJob.step fmt wf) LiveJob.Quiet
      (.start ((newJob id sessionId accountId spec now).run ops)) acts)
    (hterm : s.server.job.state.terminal = true) (hcancelled : s.page.cancelled = false)
    (herror : s.page.error = none) :
    ∃ more s' job, (∀ a ∈ more, LiveJob.smooth a = true) ∧
      execute (LiveJob.step fmt wf) s more = some s' ∧ s'.page.job = some job ∧
      s'.server.job.state.terminal = true ∧
      s'.server.job.snapshot.map (encodeSnapshot wf) = some job := by
  have hlively := LiveJob.Lively.start
    ((Job.newJob_settled id sessionId accountId spec now).run ops)
    ((newJob_consistent id sessionId accountId spec now).run ops).1
  obtain ⟨hfinal, halone⟩ := (LiveJob.final_start _).run (LiveJob.alone_start _) hrun hquiet
  obtain ⟨more, s', job, hmore, hexec, hjob, hend, hsnap⟩ :=
    (hlively.execute hrun).reaches halone hfinal hterm hcancelled herror
  exact ⟨more, s', job, hmore, hexec, hjob, hend, hsnap⟩

/-- The scan succeeds while the handler waits for its next event. -/
def endedActs : List LiveAct :=
  [.answer 0, .load 0, .connect, .server .subscribe, .server (.job (.setState .running "" 2)),
    .server (.job (.setState .succeeded "" 4))]

theorem endedActs_settles :
    ∃ s s' more job, execute (LiveJob.step smallFormat ⟨smallFormat.time, smallFormat.duration⟩)
        (.start ((newJob "j" "s" "1" ⟨.scan, [], [], none, "", [], 0⟩ 1).run [])) endedActs =
        some s ∧
      execute (LiveJob.step smallFormat ⟨smallFormat.time, smallFormat.duration⟩) s more = some s' ∧
      s'.page.job = some job ∧
      s'.server.job.snapshot.map (encodeSnapshot ⟨smallFormat.time, smallFormat.duration⟩) =
        some job := by
  obtain ⟨s, hrun, hterm, hcancelled, herror⟩ : ∃ s,
      execute (LiveJob.step smallFormat ⟨smallFormat.time, smallFormat.duration⟩)
        (.start ((newJob "j" "s" "1" ⟨.scan, [], [], none, "", [], 0⟩ 1).run [])) endedActs =
        some s ∧
      s.server.job.state.terminal = true ∧ s.page.cancelled = false ∧ s.page.error = none :=
    ⟨_, rfl, rfl, rfl, rfl⟩
  obtain ⟨more, s', job, -, hexec, hjob, -, hsnap⟩ := live_page_settles smallFormat
    ⟨smallFormat.time, smallFormat.duration⟩ "j" "s" "1" ⟨.scan, [], [], none, "", [], 0⟩ 1 []
    endedActs s hrun (along_of_forall fun a ha _ => LiveJob.quiet_of_ne fun ev now he => by
      simp [he, endedActs] at ha) hterm hcancelled herror
  exact ⟨s, s', more, job, hrun, hexec, hjob, hsnap⟩

end Broom.Web
