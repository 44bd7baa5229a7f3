import Broom.Api.Events

/-!
# Complete event streams

A stream that ends with the closing event has everything, provided the job does not end
between the moment its channel is dropped as full and the handler's look at the job. If it
does, the handler takes the dropped channel for a finished one, and events are lost.
-/

namespace Broom.Api

open Broom.Core Broom.Engine Broom.Jobs

/-! ## What the handler has written -/

/-- The handler has written the events after its start, up to a position. -/
structure Stream.Wrote (s : Stream) (after n : Nat) : Prop where
  consistent : s.job.Consistent
  channels : s.job.Channels
  lastSeq_eq : s.lastSeq = n
  after_le : after ≤ n
  le : n ≤ s.job.events.length
  written : s.written = (s.job.events.take n).drop after

/-- The rest of the events can still reach the handler. -/
def Stream.Open (s : Stream) (n : Nat) : Prop :=
  match s.pc with
  | .receiving ch =>
    s.done = none ∧ (s.job.Current n ch ∨ s.job.Behind n ch ∧ s.job.state.terminal = false)
  | .closed ch =>
    s.done = none ∧ s.job.Shut ch ∧ (n = s.job.events.length ∧ s.job.state.terminal = true ∨
      n < s.job.events.length ∧ s.job.state.terminal = false)
  | .subscribing | .dropped _ => s.done = none
  | .leaving _ | .returned =>
    s.done.isSome = true → n = s.job.events.length ∧ s.job.state.terminal = true

/-- The job has ended and the handler has lost events. -/
def Stream.Cut (s : Stream) (n : Nat) : Prop :=
  n < s.job.events.length ∧ s.job.state.terminal = true ∧
    match s.pc with
    | .receiving ch => s.job.Behind n ch
    | .closed _ | .leaving _ | .returned => True
    | .subscribing | .dropped _ => False

/-- What the handler wrote is right so far, and it can still write the rest. -/
def Stream.InReach (s : Stream) (after : Nat) : Prop := ∃ n, s.Wrote after n ∧ s.Open n

/-- What the handler wrote is right so far, and it will not write the rest. -/
def Stream.CutOff (s : Stream) (after : Nat) : Prop := ∃ n, s.Wrote after n ∧ s.Cut n

namespace Stream

/-! ## Steps of other parties -/

/-- Others do not touch what the handler wrote. -/
theorem Wrote.job {s : Stream} {after n : Nat} (h : s.Wrote after n) (op : JobOp) :
    { s with job := s.job.step op }.Wrote after n := by
  obtain ⟨hcons, hpre⟩ := h.consistent.step op
  have htake : (s.job.step op).events.take n = s.job.events.take n := by
    obtain ⟨tail, htail⟩ := hpre
    rw [← htail, List.take_append_of_le_length h.le]
  exact ⟨hcons, h.channels.step op, h.lastSeq_eq, h.after_le, h.le.trans hpre.length_le,
    by rw [htake]; exact h.written⟩

theorem unsubscribe_same (j : Job) (ch : Nat) :
    (j.unsubscribe ch).events = j.events ∧ (j.unsubscribe ch).state = j.state := by
  have hb : (j.unsubscribe ch).body = j.body := by
    unfold Job.unsubscribe
    split
    · exact j.body_drop ch
    · rfl
  exact ⟨(congrArg Job.events hb :), (congrArg Job.state hb :)⟩

/-- Nothing is added to a finished job, and it stays finished. -/
theorem events_of_terminal {s : Stream} {op : JobOp} (hquiet : s.Quiet (.job op))
    (ht : s.job.state.terminal = true) :
    (s.job.step op).events = s.job.events ∧ (s.job.step op).state = s.job.state := by
  have hbody {j' : Job} (hb : j'.body = s.job.body) :
      j'.events = s.job.events ∧ j'.state = s.job.state :=
    ⟨(congrArg Job.events hb :), (congrArg Job.state hb :)⟩
  cases op with
  | publish ev now => cases ht.symm.trans hquiet
  | setState st errMsg now =>
    refine hbody ?_
    rw [Job.step, s.job.body_setState, if_pos ht]
  | subscribe afterSeq => exact ⟨rfl, rfl⟩
  | unsubscribe i => exact unsubscribe_same s.job i
  | receive i =>
    refine hbody ?_
    simp only [Job.step, Job.receive]
    split <;> rfl
  | install => exact ⟨rfl, rfl⟩

/-- Apart from events and the job's end, the handler's channel sees nothing of others. -/
theorem admits_cases {s : Stream} {op : JobOp} (h : s.job.Channels) (ha : s.admits op = true)
    {ch : Nat} (hpc : s.pc.chan = some ch) (hlt : ch < s.job.chans.length) :
    (∃ ev now, op = .publish ev now) ∨
      (∃ st errMsg now, op = .setState st errMsg now) ∨ s.job.SameAt (s.job.step op) ch := by
  have hother {i : Nat} (hi : decide (s.pc.chan ≠ some i) = true) : i ≠ ch := by
    rintro rfl
    exact of_decide_eq_true hi hpc
  cases op with
  | publish ev now => exact .inl ⟨ev, now, rfl⟩
  | setState st errMsg now => exact .inr (.inl ⟨st, errMsg, now, rfl⟩)
  | subscribe afterSeq => exact .inr (.inr (Job.sameAt_subscribe hlt afterSeq))
  | unsubscribe i => exact .inr (.inr (Job.sameAt_unsubscribe h (hother ha)))
  | receive i => exact .inr (.inr (Job.sameAt_receive (hother ha)))
  | install => exact .inr (.inr ⟨rfl, rfl, rfl, .rfl⟩)

/-- A transition ends the job, or leaves it as final as it was. -/
theorem setState_cases (j : Job) (st : State) (errMsg : String) (now : Nat) :
    (j.state.terminal = false ∧ st.terminal = true) ∨
      (j.setState st errMsg now).state.terminal = j.state.terminal := by
  rw [Job.setState_state]
  cases hj : j.state.terminal with
  | true => exact .inr (by rw [if_pos rfl, hj])
  | false =>
    cases hst : st.terminal with
    | true => exact .inl ⟨rfl, rfl⟩
    | false => exact .inr (by rw [if_neg Bool.false_ne_true, hst])

theorem setState_cases_of_notCut {s : Stream} {st : State} {errMsg : String} {now ch : Nat}
    (hcut : s.NotCut (.job (.setState st errMsg now)))
    (hpc : s.pc = .receiving ch ∨ s.pc = .closed ch) (hshut : s.job.Shut ch) :
    (s.job.setState st errMsg now).state.terminal = s.job.state.terminal := by
  refine (setState_cases s.job st errMsg now).resolve_left fun ⟨hrun, hst⟩ => ?_
  have hlag := hcut hst
  rcases hpc with hpc | hpc
  · simp [lagging, hpc, hrun, show _ = true from hshut] at hlag
  · simp [lagging, hpc, hrun, show _ = true from hshut] at hlag

/-- What others do, short of ending the job under a lagging handler, leaves the rest
within reach. -/
theorem Open.job {s : Stream} {after n : Nat} {op : JobOp} (h : s.Open n)
    (hw : s.Wrote after n) (ha : s.admits op = true) (hquiet : s.Quiet (.job op))
    (hcut : s.NotCut (.job op)) :
    { s with job := s.job.step op }.Open n := by
  cases hpc : s.pc with
  | receiving ch =>
    simp only [Open, hpc] at h ⊢
    refine ⟨h.1, ?_⟩
    rcases h.2 with hcur | ⟨hbeh, hrun⟩
    · have hlt : ch < s.job.chans.length := by
        obtain ⟨c, hch, -⟩ := hcur
        exact (List.getElem?_eq_some_iff.mp hch).1
      obtain ⟨ev, now, rfl⟩ | ⟨st, errMsg, now, rfl⟩ | hsame :=
        admits_cases hw.channels ha (by rw [hpc]; rfl) hlt
      · refine (hcur.publish hw.channels hw.le ev now).imp_right fun hbeh => ⟨hbeh, ?_⟩
        rw [Job.step, Job.publish_state, hquiet]
      · exact .inl (hcur.setState hw.channels st errMsg now)
      · exact .inl (hsame.current hcur)
    · have hlt : ch < s.job.chans.length := by
        obtain ⟨c, hch, -⟩ := hbeh
        exact (List.getElem?_eq_some_iff.mp hch).1
      obtain ⟨ev, now, rfl⟩ | ⟨st, errMsg, now, rfl⟩ | hsame :=
        admits_cases hw.channels ha (by rw [hpc]; rfl) hlt
      · refine .inr ⟨hbeh.publish hw.channels ev now, ?_⟩
        rw [Job.step, Job.publish_state, hrun]
      · refine .inr ⟨hbeh.setState hw.channels st errMsg now, ?_⟩
        exact (setState_cases_of_notCut hcut (.inl hpc) hbeh.shut).trans hrun
      · exact .inr ⟨hsame.behind hbeh, by rw [hsame.state, hrun]⟩
  | closed ch =>
    simp only [Open, hpc] at h ⊢
    obtain ⟨hdone, hshut, hall⟩ := h
    have hlt : ch < s.job.chans.length := by
      obtain ⟨c, hch, -⟩ := Job.shut_iff.mp hshut
      exact (List.getElem?_eq_some_iff.mp hch).1
    obtain ⟨ev, now, rfl⟩ | ⟨st, errMsg, now, rfl⟩ | hsame :=
      admits_cases hw.channels ha (by rw [hpc]; rfl) hlt
    · have hrun : s.job.state.terminal = false := hquiet
      refine ⟨hdone, ?_, ?_⟩
      · rwa [Job.Shut, Job.step, hshut.publish hw.channels]
      · rw [hrun] at hall
        rw [Job.step, Job.publish_state, Job.publish_events, hrun, List.length_append]
        rcases hall with ⟨-, ⟨⟩⟩ | ⟨hlt, -⟩
        exact .inr ⟨by omega, rfl⟩
    · refine ⟨hdone, ?_, ?_⟩
      · rwa [Job.Shut, Job.step, hshut.setState hw.channels]
      · rw [Job.step, setState_cases_of_notCut hcut (.inr hpc) hshut, Job.setState_events]
        exact hall
    · refine ⟨hdone, ?_, ?_⟩
      · rwa [Job.Shut, hsame.chan]
      · rwa [hsame.state, hsame.events]
  | subscribing | dropped ch =>
    simp only [Open, hpc] at h ⊢
    exact h
  | leaving ch | returned =>
    simp only [Open, hpc] at h ⊢
    intro hdone
    obtain ⟨hn, hterm⟩ := h hdone
    obtain ⟨hev, hst⟩ := events_of_terminal hquiet hterm
    exact ⟨by rw [hev, hn], by rw [hst, hterm]⟩

/-- A job that ends under a lagging handler cuts it off. -/
theorem Open.cut {s : Stream} {n : Nat} {op : JobOp} (h : s.Open n) (hj : s.job.Channels)
    (hcut : ¬ s.NotCut (.job op)) : { s with job := s.job.step op }.Cut n := by
  cases op with
  | setState st errMsg now =>
    obtain ⟨hst, hlag⟩ : st.terminal = true ∧ s.lagging = true := by simpa [NotCut] using hcut
    have hterm : (s.job.setState st errMsg now).state.terminal = true := by
      rw [Job.setState_state]
      split
      · assumption
      · exact hst
    have hev := Job.setState_events s.job st errMsg now
    cases hpc : s.pc with
    | receiving ch =>
      simp only [Open, lagging, hpc, Bool.and_eq_true, Bool.not_eq_true'] at h hlag
      have hbeh : s.job.Behind n ch := by
        rcases h.2 with ⟨c, hch, hbuf, hmem | ⟨-, hfin⟩⟩ | ⟨hbeh, -⟩
        · exact absurd hmem (Job.Shut.not_mem_subs hlag.2 hj)
        · rw [hlag.1] at hfin
          cases hfin
        · exact hbeh
      have hafter := hbeh.setState hj st errMsg now
      refine ⟨?_, hterm, ?_⟩
      · obtain ⟨c, -, -, -, hlt⟩ := hafter
        exact Nat.lt_of_le_of_lt (Nat.le_add_right ..) hlt
      · exact hafter
    | closed ch =>
      simp only [Open, lagging, hpc, Bool.and_eq_true, Bool.not_eq_true'] at h hlag
      have hlt : n < s.job.events.length := by
        rcases h.2.2 with ⟨-, hfin⟩ | ⟨hlt, -⟩
        · rw [hlag.1] at hfin
          cases hfin
        · exact hlt
      exact ⟨by rwa [Job.step, hev], hterm, trivial⟩
    | subscribing | dropped ch | leaving ch | returned => simp [lagging, hpc] at hlag
  | publish ev now => exact absurd trivial hcut
  | subscribe afterSeq => exact absurd trivial hcut
  | unsubscribe i => exact absurd trivial hcut
  | receive i => exact absurd trivial hcut
  | install => exact absurd trivial hcut

/-- A handler that was cut off stays cut off. -/
theorem Cut.job {s : Stream} {n : Nat} {op : JobOp} (h : s.Cut n) (hj : s.job.Channels)
    (ha : s.admits op = true) (hquiet : s.Quiet (.job op)) :
    { s with job := s.job.step op }.Cut n := by
  obtain ⟨hlt, hterm, hpos⟩ := h
  obtain ⟨hev, hst⟩ := events_of_terminal hquiet hterm
  refine ⟨by rwa [hev], by rwa [hst], ?_⟩
  cases hpc : s.pc with
  | receiving ch =>
    simp only [hpc] at hpos ⊢
    have hlt : ch < s.job.chans.length := by
      obtain ⟨c, hch, -⟩ := hpos
      exact (List.getElem?_eq_some_iff.mp hch).1
    obtain ⟨ev, now, rfl⟩ | ⟨st, errMsg, now, rfl⟩ | hsame :=
      admits_cases hj ha (by rw [hpc]; rfl) hlt
    · exact hpos.publish hj ev now
    · exact hpos.setState hj st errMsg now
    · exact hsame.behind hpos
  | closed ch | leaving ch | returned => simp only
  | subscribing | dropped ch => simp only [hpc] at hpos

/-! ## Steps of the handler -/

theorem Wrote.of_same {s s' : Stream} {after n : Nat} (h : s.Wrote after n)
    (hjob : s'.job = s.job) (hseq : s'.lastSeq = s.lastSeq) (hwr : s'.written = s.written) :
    s'.Wrote after n :=
  ⟨hjob ▸ h.consistent, hjob ▸ h.channels, hseq ▸ h.lastSeq_eq, h.after_le, hjob ▸ h.le,
    by rw [hjob, hwr, h.written]⟩

/-- An event that is received is written, and it is the next one. -/
theorem Wrote.receive {s : Stream} {after n : Nat} {ev : Event} {j : Job} {ch : Nat}
    (h : s.Wrote after n) (hr : s.job.receive ch = some (ev, j))
    (hev : s.job.events[n]? = some ev) :
    { s with job := j, written := s.written ++ [ev], lastSeq := ev.seq }.Wrote after (n + 1) := by
  have hchan := h.channels.receive hr
  obtain ⟨c, rest, -, -, rfl⟩ := Job.receive_eq hr
  obtain ⟨hlt, hget⟩ := List.getElem?_eq_some_iff.mp hev
  refine ⟨h.consistent.of_body rfl, hchan, ?_, Nat.le_succ_of_le h.after_le, hlt, ?_⟩
  · simp [h.consistent.numbered n ev hev]
  · have hlen : (s.job.events.take n).length = n := List.length_take_of_le h.le
    simp only
    rw [h.written, List.take_succ_eq_append_getElem hlt, hget,
      List.drop_append_of_le_length (by rw [hlen]; exact h.after_le)]

/-- The handler's own subscriptions change nothing in what it wrote. -/
theorem Wrote.subscribe {s : Stream} {after n : Nat} (h : s.Wrote after n) (pc : Pc) :
    { s with job := s.job.subscribe s.lastSeq, pc := pc }.Wrote after n :=
  ⟨h.consistent.of_body rfl, h.channels.subscribe _, h.lastSeq_eq, h.after_le, h.le, h.written⟩

theorem Wrote.unsubscribe {s : Stream} {after n : Nat} (h : s.Wrote after n) (ch : Nat) (pc : Pc) :
    { s with job := s.job.unsubscribe ch, pc := pc }.Wrote after n := by
  have hj := h.job (.unsubscribe ch)
  exact ⟨hj.consistent, hj.channels, hj.lastSeq_eq, hj.after_le, hj.le, hj.written⟩

/-- Every step that does not cut the handler off leaves the rest within its reach. -/
theorem Open.step {s s' : Stream} {a : Act} {after n : Nat} (h : s.Open n)
    (hw : s.Wrote after n) (hs : s.Moves a s') (hquiet : s.Quiet a) (hcut : s.NotCut a) :
    s'.InReach after := by
  cases hs with
  | job op ha => exact ⟨n, hw.job op, h.job hw ha hquiet hcut⟩
  | subscribe hpc =>
    refine ⟨n, hw.subscribe _, ?_⟩
    simp only [Open, hpc] at h ⊢
    rw [hw.lastSeq_eq]
    exact ⟨h, .inl (Job.subscribe_current hw.le)⟩
  | receive hpc hr =>
    simp only [Open, hpc] at h
    obtain ⟨c, rest, -, -, hj⟩ := Job.receive_eq hr
    rcases h.2 with hcur | ⟨hbeh, hrun⟩
    · obtain ⟨hev, hcur⟩ := hcur.receive hr
      refine ⟨n + 1, hw.receive hr hev, ?_⟩
      simp only [Open, hpc]
      exact ⟨h.1, .inl hcur⟩
    · obtain ⟨hev, hbeh⟩ := hbeh.receive hr
      refine ⟨n + 1, hw.receive hr hev, ?_⟩
      simp only [Open, hpc]
      exact ⟨h.1, .inr ⟨hbeh, by rw [hj]; exact hrun⟩⟩
  | closed hpc hch hbuf hclosed =>
    refine ⟨n, hw.of_same rfl rfl rfl, ?_⟩
    simp only [Open, hpc] at h ⊢
    refine ⟨h.1, Job.shut_iff.mpr ⟨_, hch, hclosed⟩, ?_⟩
    rcases h.2 with hcur | ⟨⟨c', hch', -, -, hlt⟩, hrun⟩
    · exact .inl (hcur.drained hw.channels hw.le hch hbuf hclosed)
    · exact .inr ⟨by omega, hrun⟩
  | finish hpc hterm =>
    simp only [Open, hpc] at h
    obtain ⟨-, -, ⟨hn, -⟩ | ⟨-, hrun⟩⟩ := h
    · exact ⟨n, hw.of_same rfl rfl rfl, fun _ => ⟨hn, hterm⟩⟩
    · rw [hterm] at hrun
      cases hrun
  | resume hpc hrun =>
    simp only [Open, hpc] at h
    exact ⟨n, hw.of_same rfl rfl rfl, h.1⟩
  | unsubscribe hpc =>
    simp only [Open, hpc] at h
    exact ⟨n, hw.unsubscribe _ _, h⟩
  | disconnect hpc =>
    simp only [Open, hpc] at h
    exact ⟨n, hw.of_same rfl rfl rfl, by simp [Open, h.1]⟩
  | leave hpc =>
    simp only [Open, hpc] at h
    refine ⟨n, hw.unsubscribe _ _, fun hdone => ?_⟩
    obtain ⟨hn, hterm⟩ := h hdone
    obtain ⟨hev, hst⟩ := unsubscribe_same s.job _
    exact ⟨by rw [hev, hn], by rw [hst, hterm]⟩

/-- A step that cuts the handler off. -/
theorem Open.step_cut {s s' : Stream} {a : Act} {after n : Nat} (h : s.Open n)
    (hw : s.Wrote after n) (hs : s.Moves a s') (hcut : ¬ s.NotCut a) :
    s'.CutOff after := by
  cases hs with
  | job op ha => exact ⟨n, hw.job op, h.cut hw.channels hcut⟩
  | _ => exact absurd trivial hcut

/-- No step makes good what was lost. -/
theorem Cut.step {s s' : Stream} {a : Act} {after n : Nat} (h : s.Cut n)
    (hw : s.Wrote after n) (hs : s.Moves a s') (hquiet : s.Quiet a) : s'.CutOff after := by
  cases hs with
  | job op ha => exact ⟨n, hw.job op, h.job hw.channels ha hquiet⟩
  | receive hpc hr =>
    obtain ⟨-, hterm, hpos⟩ := h
    simp only [hpc] at hpos
    obtain ⟨hev, hbeh⟩ := hpos.receive hr
    refine ⟨n + 1, hw.receive hr hev, ?_, ?_, ?_⟩
    · obtain ⟨c, -, -, -, hlt⟩ := hbeh
      exact Nat.lt_of_le_of_lt (Nat.le_add_right ..) hlt
    · obtain ⟨c, rest, -, -, rfl⟩ := Job.receive_eq hr
      exact hterm
    · simp only [hpc]
      exact hbeh
  | closed hpc | finish hpc | disconnect hpc =>
    exact ⟨n, hw.of_same rfl rfl rfl, h.1, h.2.1, trivial⟩
  | resume hpc hrun =>
    have hterm := h.2.1
    rw [hrun] at hterm
    cases hterm
  | subscribe hpc | unsubscribe hpc =>
    have hpos := h.2.2
    simp only [hpc] at hpos
  | leave hpc =>
    obtain ⟨hev, hst⟩ := unsubscribe_same s.job _
    exact ⟨n, hw.unsubscribe _ _, by rw [hev]; exact h.1, by rw [hst]; exact h.2.1, trivial⟩

/-! ## Whole streams -/

/-- The identifiers that a complete stream consists of. -/
theorem Wrote.seqs {s : Stream} {after n : Nat} (h : s.Wrote after n) :
    s.written.map Event.seq = List.range' (after + 1) (n - after) := by
  refine List.ext_getElem? fun i => ?_
  rw [h.written, List.getElem?_map, List.getElem?_drop, List.getElem?_take]
  by_cases hi : after + i < n
  · have hlt : after + i < s.job.events.length := Nat.lt_of_lt_of_le hi h.le
    have hseq := h.consistent.numbered (after + i) _ (List.getElem?_eq_getElem hlt)
    rw [if_pos hi, List.getElem?_eq_getElem hlt, Option.map_some, hseq,
      List.getElem?_range' (by omega)]
    congr 1
    omega
  · rw [if_neg hi, List.getElem?_eq_none (by rw [List.length_range']; omega)]
    rfl

/-- A handler that never lags when the job ends keeps the rest within its reach. -/
theorem InReach.of_along {s s' : Stream} {after : Nat} {acts : List Act} (h : s.InReach after)
    (hrun : execute step s acts = some s') (hquiet : Along step Quiet s acts)
    (hcond : Along step NotCut s acts) : s'.InReach after := by
  refine (hquiet.and hcond).invariant hrun (InReach · after) h ?_
  rintro s a s' hs ⟨hquiet, hcut⟩ ⟨n, hw, hopen⟩
  exact hopen.step hw (moves_of_step hs) hquiet hcut

/-- A handler that was cut off once is cut off in the end. -/
theorem CutOff.of_execute {s s' : Stream} {after : Nat} {acts : List Act} (h : s.CutOff after)
    (hrun : execute step s acts = some s') (hquiet : Along step Quiet s acts) :
    s'.CutOff after := by
  refine hquiet.invariant hrun (CutOff · after) h ?_
  rintro s a s' hs hquiet ⟨n, hw, hcut⟩
  exact hcut.step hw (moves_of_step hs) hquiet

/-- A run with a step that cuts the handler off ends with the handler cut off. -/
theorem InReach.cutOff {s s' : Stream} {after : Nat} {acts : List Act} (h : s.InReach after)
    (hrun : execute step s acts = some s') (hquiet : Along step Quiet s acts)
    (hcond : ¬ Along step NotCut s acts) : s'.CutOff after := by
  induction acts generalizing s with
  | nil => exact absurd trivial hcond
  | cons a acts ih =>
    obtain ⟨s₁, hs, hrest⟩ := Option.bind_eq_some_iff.mp hrun
    obtain ⟨n, hw, hopen⟩ := h
    have hmove := moves_of_step hs
    by_cases hcut : s.NotCut a
    · exact ih (hopen.step hw hmove hquiet.1 hcut) hrest (hquiet.2 s₁ hs)
        fun hall => hcond (.cons hcut hs hall)
    · exact (hopen.step_cut hw hmove hcut).of_execute hrest (hquiet.2 s₁ hs)

/-- The closing event is written only when everything was written before it. -/
theorem Open.done {s : Stream} {n : Nat} (h : s.Open n) (hdone : s.done.isSome = true) :
    n = s.job.events.length := by
  cases hpc : s.pc with
  | leaving ch | returned =>
    simp only [Open, hpc] at h
    exact (h hdone).1
  | receiving ch | closed ch =>
    simp only [Open, hpc] at h
    simp [h.1] at hdone
  | subscribing | dropped ch =>
    simp only [Open, hpc] at h
    simp [h] at hdone

theorem inReach_handleJobEvents {j : Job} (hj : j.Consistent) (hc : j.Channels) {after : Nat}
    (hle : after ≤ j.seq) : (handleJobEvents j after).InReach after :=
  ⟨after, ⟨hj, hc, rfl, le_rfl, hj.seq_eq ▸ hle, by simp [handleJobEvents]⟩, rfl⟩

/-- A handler that is cut off has not written everything. -/
theorem CutOff.incomplete {s : Stream} {after : Nat} (h : s.CutOff after) :
    s.written.map Event.seq ≠ List.range' (after + 1) (s.job.seq - after) := by
  intro hall
  obtain ⟨n, hw, hlt, -⟩ := h
  have hlen := congrArg List.length (hw.seqs.symm.trans hall)
  rw [List.length_range', List.length_range', hw.consistent.seq_eq] at hlen
  have := hw.after_le
  omega

end Stream

/-- A stream that says it is done is complete exactly when the job did not end while the
handler was lagging, provided nobody publishes to the finished job. -/
theorem complete_iff_along (id sessionId accountId : String) (spec : Engine.Spec) (now : Nat)
    (ops : List JobOp) (after : Int) (acts : List Act) (s : Stream) (hnonneg : 0 ≤ after)
    (hle : after ≤ ((newJob id sessionId accountId spec now).run ops).seq)
    (hrun : execute Stream.step
      (handleJobEvents ((newJob id sessionId accountId spec now).run ops) after) acts = some s)
    (hquiet : Along Stream.step Stream.Quiet
      (handleJobEvents ((newJob id sessionId accountId spec now).run ops) after) acts)
    (hdone : s.done.isSome = true) :
    s.written.map Event.seq = List.range' (after.toNat + 1) (s.job.seq - after.toNat) ↔
      Along Stream.step Stream.NotCut
        (handleJobEvents ((newJob id sessionId accountId spec now).run ops) after) acts := by
  obtain ⟨pos, rfl⟩ := Int.eq_ofNat_of_zero_le hnonneg
  rw [Int.toNat_natCast]
  have hcons := ((newJob_consistent id sessionId accountId spec now).run ops).1
  have hchan := (newJob_channels id sessionId accountId spec now).run ops
  have h := Stream.inReach_handleJobEvents hcons hchan (Int.ofNat_le.mp hle)
  constructor
  · intro hall
    by_contra hcond
    exact (h.cutOff hrun hquiet hcond).incomplete hall
  · intro hcond
    obtain ⟨n, hw, hopen⟩ := h.of_along hrun hquiet hcond
    rw [hw.seqs, hopen.done hdone, hw.consistent.seq_eq]

/-- The handler receives an event before the job ends. -/
def promptActs : List Act :=
  [.subscribe, .job (.publish { type := .log } 2), .receive, .job (.setState .succeeded "" 3),
    .closed, .snapshot]

theorem promptActs_complete :
    ∃ s, execute Stream.step
        (handleJobEvents ((newJob "j" "s" "1" ⟨.scan, [], [], none, "", [], 0⟩ 1).run []) 0)
        promptActs = some s ∧ s.written.map Event.seq = List.range' 1 s.job.seq := by
  obtain ⟨s, hrun, hdone⟩ : ∃ s, execute Stream.step
      (handleJobEvents ((newJob "j" "s" "1" ⟨.scan, [], [], none, "", [], 0⟩ 1).run []) 0)
      promptActs = some s ∧ s.done.isSome = true := ⟨_, rfl, rfl⟩
  refine ⟨s, hrun, (complete_iff_along "j" "s" "1" ⟨.scan, [], [], none, "", [], 0⟩ 1 [] 0
    promptActs s le_rfl (Int.natCast_nonneg _) hrun ?_ hdone).mpr ?_⟩
  · exact .cons trivial rfl (.cons rfl rfl (along_of_forall (by simp [Stream.Quiet])))
  · refine .cons trivial rfl (.cons trivial rfl (.cons trivial rfl (.cons ?_ rfl ?_)))
    · exact fun _ => rfl
    · exact .cons trivial rfl (.cons trivial rfl trivial)

/-! ## A slow reader -/

namespace Stream

/-- Publishing to a handler that does not read fills its channel, and one event more
drops it. -/
theorem execute_flood {s : Stream} {ch room : Nat} {c : Chan} (ev : Event) (now : Nat)
    (hpc : s.pc = .receiving ch) (hj : s.job.Channels) (hrun : s.job.state.terminal = false)
    (hmem : ch ∈ s.job.subs) (hch : s.job.chans[ch]? = some c)
    (hroom : c.capacity = c.buffer.length + room) :
    ∃ j c', execute step s (List.replicate (room + 1) (.job (.publish ev now))) =
        some { s with job := j } ∧
      Along step Quiet s (List.replicate (room + 1) (.job (.publish ev now))) ∧
      j.state.terminal = false ∧ j.Channels ∧
      j.chans[ch]? = some c' ∧ c'.closed = true ∧ c'.buffer.length = c.capacity := by
  induction room generalizing s c with
  | zero =>
    have ht := hj.touched_publish ev now
    have hclosed : Chan.offer (s.job.stamp ev now) c = c.close := by
      simp [Chan.offer, Chan.room, hroom]
    refine ⟨s.job.publish ev now, c.close, ?_, ⟨hrun, fun _ _ => trivial⟩, ?_,
      hj.publish ev now, ?_, rfl, hroom.symm⟩
    · simp [execute, step, admits, Job.step]
    · rw [Job.publish_state, hrun]
    · rw [ht.chans ch, if_pos hmem, hch, Option.map_some, hclosed]
  | succ room ih =>
    have ht := hj.touched_publish ev now
    have hlt : c.room = true := by
      simp [Chan.room, hroom]
    have hoffer : Chan.offer (s.job.stamp ev now) c =
        { c with buffer := c.buffer ++ [s.job.stamp ev now] } := by
      simp [Chan.offer, hlt]
    have hch' : (s.job.publish ev now).chans[ch]? =
        some { c with buffer := c.buffer ++ [s.job.stamp ev now] } := by
      rw [ht.chans ch, if_pos hmem, hch, Option.map_some, hoffer]
    obtain ⟨j, c', hexec, hquiet, hrest⟩ := ih (s := { s with job := s.job.publish ev now }) hpc
      (hj.publish ev now) (by rw [Job.publish_state, hrun])
      ((ht.mem_subs ch hmem).mpr fun _ => ⟨c, hch, hlt⟩) hch' (by simp [hroom]; omega)
    have hs : s.step (.job (.publish ev now)) = some { s with job := s.job.publish ev now } := by
      simp [step, admits, Job.step]
    rw [List.replicate_succ]
    refine ⟨j, c', ?_, .cons hrun hs hquiet, hrest⟩
    rw [execute, hs]
    exact hexec

/-- A handler can take everything out of its channel. -/
theorem execute_drain {s : Stream} {ch : Nat} {c : Chan} (hpc : s.pc = .receiving ch)
    (hch : s.job.chans[ch]? = some c) :
    ∃ s', execute step s (List.replicate c.buffer.length .receive) = some s' ∧
      s'.pc = .receiving ch ∧ s'.job.state = s.job.state ∧
      s'.job.chans[ch]? = some { c with buffer := [] } := by
  obtain ⟨buffer, capacity, closed⟩ := c
  induction buffer generalizing s with
  | nil => exact ⟨s, rfl, hpc, rfl, hch⟩
  | cons ev rest ih =>
    have hlt := (List.getElem?_eq_some_iff.mp hch).1
    have hr : s.job.receive ch = some (ev,
        { s.job with chans := s.job.chans.set ch { buffer := rest, capacity, closed } }) := by
      simp [Job.receive, hch]
    obtain ⟨s', hexec, hpc', hst, hch'⟩ := ih (s := { s with
        job := { s.job with chans := s.job.chans.set ch { buffer := rest, capacity, closed } }
        written := s.written ++ [ev]
        lastSeq := ev.seq }) hpc (List.getElem?_set_self hlt)
    refine ⟨s', ?_, hpc', hst, hch'⟩
    rw [List.length_cons, List.replicate_succ, execute]
    simpa [step, hpc, hr] using hexec

/-- A handler on a closed channel of a finished job comes to the closing event. -/
theorem execute_finish {s : Stream} {ch : Nat} {c : Chan} (hpc : s.pc = .receiving ch)
    (hch : s.job.chans[ch]? = some c) (hclosed : c.closed = true)
    (hterm : s.job.state.terminal = true) :
    ∃ s', execute step s (List.replicate c.buffer.length .receive ++ [.closed, .snapshot]) =
      some s' ∧ s'.done.isSome = true := by
  obtain ⟨s₁, hexec, hpc₁, hst, hch₁⟩ := execute_drain hpc hch
  rw [execute_append, hexec, Option.bind_some]
  have hmove : execute step s₁ [.closed, .snapshot] =
      some { s₁ with pc := .leaving ch, done := some (s₁.job.state, s₁.job.errMsg) } := by
    simp [execute, step, hpc₁, hch₁, hclosed, hst, hterm]
  exact ⟨_, hmove, rfl⟩

end Stream

/-- The handler subscribes, sleeps over one event more than its channel holds and over the
end of the job, and reads. -/
def slowActs (room : Nat) (ev : Event) : List Act :=
  [.subscribe] ++ (List.replicate (room + 1) (.job (.publish ev 3)) ++
    ([.job (.setState .succeeded "" 4)] ++ (List.replicate room .receive ++ [.closed, .snapshot])))

/-- On every running job, a handler that sleeps says that it is done without the last event. -/
theorem slowActs_incomplete {j : Job} (hcons : j.Consistent) (hchan : j.Channels)
    (hrun : j.state.terminal = false) (ev : Event) {room : Nat} (hroom : room = 1024) :
    ∃ s, execute Stream.step (handleJobEvents j j.seq) (slowActs room ev) = some s ∧
      Along Stream.step Stream.Quiet (handleJobEvents j j.seq) (slowActs room ev) ∧
      s.done.isSome = true ∧
      s.written.map Event.seq ≠ List.range' (j.seq + 1) (s.job.seq - j.seq) := by
  have hstart : execute Stream.step (handleJobEvents j j.seq) [.subscribe] =
      some { handleJobEvents j j.seq with
        job := j.subscribe j.seq, pc := .receiving j.chans.length } := rfl
  have hbacklog : j.backlog j.seq = [] := by
    rw [Job.backlog_eq_drop hcons.seq_eq.le, hcons.seq_eq, List.drop_length]
  have hmem : j.chans.length ∈ (j.subscribe j.seq).subs := by
    simp [Job.subscribe, hrun]
  have hnew : (j.subscribe j.seq).chans[j.chans.length]? =
      some { buffer := [], capacity := room } := by
    simp [Job.subscribe, hbacklog, hrun, hroom]
  obtain ⟨j', c, hflood, hquiet, hrun', hj', hch, hclosed, hlen⟩ := Stream.execute_flood
    (s := { handleJobEvents j j.seq with
      job := j.subscribe j.seq, pc := .receiving j.chans.length })
    ev 3 rfl (hchan.subscribe _) hrun hmem hnew (Nat.zero_add room).symm
  have hend := (Job.shut_iff.mpr ⟨c, hch, hclosed⟩).setState hj' .succeeded "" 4
  have hterm : (j'.setState .succeeded "" 4).state.terminal = true := by
    rw [Job.setState_state, hrun']
    rfl
  obtain ⟨s, hfinish, hdone⟩ := Stream.execute_finish (c := c)
    (s := { handleJobEvents j j.seq with
      job := j'.setState .succeeded "" 4, pc := .receiving j.chans.length })
    rfl (hend.trans hch) hclosed hterm
  rw [hlen] at hfinish
  have hlast : execute Stream.step (handleJobEvents j j.seq) (slowActs room ev) = some s := by
    rw [slowActs, execute_append, hstart, Option.bind_some, execute_append, hflood,
      Option.bind_some, execute_append]
    exact hfinish
  have hreach := Stream.inReach_handleJobEvents hcons hchan le_rfl
  have hall : Along Stream.step Stream.Quiet (handleJobEvents j j.seq) (slowActs room ev) := by
    have hrest : ∀ a ∈ [.job (.setState .succeeded "" 4)] ++
        (List.replicate room Act.receive ++ [.closed, .snapshot]), ∀ s : Stream, s.Quiet a := by
      refine fun a ha s => Stream.quiet_of_ne fun ev now he => ?_
      subst he
      simp at ha
    exact .append (.cons trivial rfl trivial) hstart (hquiet.append hflood (along_of_forall hrest))
  -- the job ends on a channel that the flood has closed
  have hcut : ¬ Along Stream.step Stream.NotCut (handleJobEvents j j.seq) (slowActs room ev) := by
    intro hcond
    have hnot := ((hcond.after hstart).after hflood).1 rfl
    simp [Stream.lagging, hrun', hch, hclosed] at hnot
  exact ⟨s, hlast, hall, hdone, (hreach.cutOff hlast hall hcut).incomplete⟩

/-- A scan that has just started. -/
def runningScan : Job :=
  (newJob "j" "s" "1" ⟨.scan, ["us-east-1"], ["sns-topic"], none, "", [], 0⟩ 1).run
    [.setState .running "" 2]

/-- The scan logs 1025 lines and succeeds while the handler sleeps. -/
theorem runningScan_incomplete :
    ∃ s, execute Stream.step (handleJobEvents runningScan 0)
        (slowActs 1024 { type := .log, message := "listing" }) = some s ∧
      Along Stream.step Stream.Quiet (handleJobEvents runningScan 0)
        (slowActs 1024 { type := .log, message := "listing" }) ∧
      s.done.isSome = true ∧ s.written.map Event.seq ≠ List.range' 1 s.job.seq :=
  slowActs_incomplete ((newJob_consistent ..).run _).1 ((newJob_channels ..).run _) rfl _ rfl

end Broom.Api
