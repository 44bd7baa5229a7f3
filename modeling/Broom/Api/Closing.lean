import Broom.Api.Events

/-!
# Closing the channels of a job

Four places close a channel: publishing drops a slow subscriber, a final state closes
all, an unsubscribe function closes its own, and a subscription to a finished job is
born closed. The subscriptions of a job are exactly its open channels, so none of
them closes a channel again or writes to a closed one, however often and late the
unsubscribe functions are called. The handler of the event stream only calls these
operations.
-/

namespace Broom.Jobs

open Broom.Core Broom.Engine

namespace Job

/-- The channel was handed out and is not closed. -/
def IsOpen (j : Job) (i : Nat) : Prop := ∃ c, j.chans[i]? = some c ∧ c.closed = false

/-- The unsubscribe function of a channel has been called in a run. -/
def HandedBack (j : Job) (ops : List JobOp) (i : Nat) : Prop :=
  ∃ before after, ops = before ++ .unsubscribe i :: after ∧ i < (j.run before).chans.length

/-- Every open channel is a subscription, and a finished job has none. -/
structure Settled (j : Job) : Prop where
  channels : j.Channels
  subscribed : ∀ i, j.IsOpen i → i ∈ j.subs
  ended : j.state.terminal = true → j.subs = []

theorem Settled.mem_subs_iff {j : Job} (h : j.Settled) (i : Nat) : i ∈ j.subs ↔ j.IsOpen i :=
  ⟨h.channels.opened i, h.subscribed i⟩

/-- A handed out channel is shut unless it is open. -/
theorem shut_of_not_open {j : Job} {i : Nat} (hi : i < j.chans.length) (h : ¬ j.IsOpen i) :
    j.Shut i := by
  obtain ⟨c, hc⟩ : ∃ c, j.chans[i]? = some c := ⟨_, List.getElem?_eq_getElem hi⟩
  refine shut_iff.mpr ⟨c, hc, ?_⟩
  cases hclosed : c.closed with
  | true => rfl
  | false => exact absurd ⟨c, hc, hclosed⟩ h

theorem Shut.not_open {j : Job} {i : Nat} (h : j.Shut i) : ¬ j.IsOpen i := by
  rintro ⟨c, hc, ho⟩
  obtain ⟨c', hc', hclosed⟩ := shut_iff.mp h
  obtain rfl := Option.some.inj (hc.symm.trans hc')
  rw [ho] at hclosed
  cases hclosed

theorem newJob_settled (id sessionId accountId : String) (spec : Spec) (now : Nat) :
    (newJob id sessionId accountId spec now).Settled :=
  ⟨newJob_channels .., by simp [IsOpen, newJob], fun _ => rfl⟩

/-! ## Operations -/

/-- A channel that took an event is still subscribed, a full one is closed. -/
theorem Settled.publish {j : Job} (h : j.Settled) (ev : Event) (now : Nat) :
    (j.publish ev now).Settled := by
  have ht := h.channels.touched_publish ev now
  refine ⟨h.channels.publish ev now, ?_, fun hterm => ?_⟩
  · rintro i ⟨c, hc, ho⟩
    rw [ht.chans i] at hc
    by_cases hi : i ∈ j.subs
    · rw [if_pos hi] at hc
      obtain ⟨c₀, hc₀, rfl⟩ := Option.map_eq_some_iff.mp hc
      refine (ht.mem_subs i hi).mpr fun _ => ⟨c₀, hc₀, ?_⟩
      cases hroom : c₀.room with
      | true => rfl
      | false => simp [Chan.offer, hroom, Chan.close] at ho
    · rw [if_neg hi] at hc
      exact absurd (h.subscribed i ⟨c, hc, ho⟩) hi
  · have hsubs := h.ended (publish_state j ev now ▸ hterm)
    exact List.sublist_nil.mp (hsubs ▸ ht.subs)

/-- A final state closes every open channel. -/
theorem Settled.setState {j : Job} (h : j.Settled) (s : State) (errMsg : String) (now : Nat) :
    (j.setState s errMsg now).Settled := by
  cases hj : j.state.terminal with
  | true =>
    have hset : j.setState s errMsg now = j := by simp [Job.setState, hj]
    rwa [hset]
  | false =>
    have hc := h.channels.setState s errMsg now
    cases hs : s.terminal with
    | false =>
      have hset : j.setState s errMsg now =
          { j with state := s, startedAt := if s = .running then now else j.startedAt } := by
        simp [Job.setState, hj, hs]
      refine ⟨hc, fun i hi => ?_, fun hterm => ?_⟩
      · rw [hset] at hi ⊢
        exact h.subscribed i hi
      · rw [setState_terminal, hj, hs] at hterm
        cases hterm
    | true =>
      have ht := h.channels.touched_setState hj hs errMsg now
      have hnone : (j.setState s errMsg now).subs = [] := by
        refine List.eq_nil_iff_forall_not_mem.mpr fun i hi => ?_
        have hold := ht.subs.subset hi
        obtain ⟨c, -, hkeep⟩ := (ht.mem_subs i hold).mp hi hold
        cases hkeep
      refine ⟨hc, ?_, fun _ => hnone⟩
      rintro i ⟨c, hci, ho⟩
      rw [ht.chans i] at hci
      by_cases hi : i ∈ j.subs
      · rw [if_pos hi] at hci
        obtain ⟨c₀, -, rfl⟩ := Option.map_eq_some_iff.mp hci
        cases ho
      · rw [if_neg hi] at hci
        exact absurd (h.subscribed i ⟨c, hci, ho⟩) hi

theorem Settled.subscribe {j : Job} (h : j.Settled) (afterSeq : Int) :
    (j.subscribe afterSeq).Settled := by
  refine ⟨h.channels.subscribe afterSeq, ?_, fun hterm => ?_⟩
  · rintro i ⟨c, hc, ho⟩
    rcases Nat.lt_or_ge i j.chans.length with hlt | hge
    · have hsame := sameAt_subscribe hlt afterSeq
      exact hsame.mem_subs.mpr (h.subscribed i ⟨c, hsame.chan ▸ hc, ho⟩)
    · have hlen := (List.getElem?_eq_some_iff.mp hc).1
      obtain rfl : i = j.chans.length := by
        simp only [Job.subscribe, List.length_append, List.length_singleton] at hlen
        omega
      have hrun : j.state.terminal = false := by
        rw [Job.subscribe, List.getElem?_concat_length] at hc
        obtain rfl := Option.some.inj hc
        exact ho
      simp [Job.subscribe, hrun]
  · have hstate : j.state.terminal = true := hterm
    simpa [Job.subscribe, hstate] using h.ended hstate

theorem Settled.unsubscribe {j : Job} (h : j.Settled) (i : Nat) : (j.unsubscribe i).Settled := by
  have hc := h.channels.unsubscribe i
  unfold Job.unsubscribe at hc ⊢
  split
  · rename_i hi
    rw [if_pos hi] at hc
    obtain ⟨c, hci, ho⟩ := h.channels.opened i hi
    refine ⟨hc, ?_, fun hterm => ?_⟩
    · rintro k ⟨ck, hck, hok⟩
      rw [drop_touches j i c hci ho] at hck ⊢
      by_cases hne : i = k
      · subst hne
        rw [List.getElem?_set_self (h.channels.lt_length hi)] at hck
        obtain rfl := Option.some.inj hck
        cases hok
      · rw [List.getElem?_set_ne hne] at hck
        exact (List.mem_erase_of_ne (Ne.symm hne)).mpr (h.subscribed k ⟨ck, hck, hok⟩)
    · rw [drop_touches j i c hci ho] at hterm
      rw [h.ended hterm] at hi
      cases hi
  · exact h

theorem Settled.receive {j : Job} (h : j.Settled) (i : Nat) :
    (j.step (.receive i)).Settled := by
  have hc := h.channels.step (.receive i)
  cases hr : j.receive i with
  | none =>
    have hsame : j.step (.receive i) = j := by simp [Job.step, hr]
    rwa [hsame]
  | some p =>
    have hstep : j.step (.receive i) = p.2 := by simp [Job.step, hr]
    obtain ⟨c, rest, hci, -, hp⟩ := receive_eq hr
    rw [hstep, hp] at hc ⊢
    refine ⟨hc, ?_, h.ended⟩
    rintro k ⟨ck, hck, hok⟩
    refine h.subscribed k ?_
    by_cases hne : i = k
    · subst hne
      rw [List.getElem?_set_self (List.getElem?_eq_some_iff.mp hci).1] at hck
      obtain rfl := Option.some.inj hck
      exact ⟨c, hci, hok⟩
    · rw [List.getElem?_set_ne hne] at hck
      exact ⟨ck, hck, hok⟩

/-- Every operation keeps the subscriptions and the open channels the same. -/
theorem Settled.step {j : Job} (h : j.Settled) (op : JobOp) : (j.step op).Settled := by
  cases op with
  | publish ev now => exact h.publish ev now
  | setState s errMsg now => exact h.setState s errMsg now
  | subscribe afterSeq => exact h.subscribe afterSeq
  | unsubscribe i => exact h.unsubscribe i
  | receive i => exact h.receive i
  | install => exact ⟨h.channels.step .install, h.subscribed, h.ended⟩

theorem Settled.run {j : Job} (h : j.Settled) (ops : List JobOp) : (j.run ops).Settled := by
  induction ops generalizing j with
  | nil => exact h
  | cons op ops ih => exact ih (h.step op)

/-! ## Channels that were handed back -/

/-- A shut channel stays shut. -/
theorem Shut.step {j : Job} {i : Nat} (h : j.Shut i) (hj : j.Channels) (op : JobOp) :
    (j.step op).Shut i := by
  have hlt : i < j.chans.length := by
    obtain ⟨c, hc, -⟩ := shut_iff.mp h
    exact (List.getElem?_eq_some_iff.mp hc).1
  cases op with
  | publish ev now => rwa [Job.step, Shut, h.publish hj]
  | setState s errMsg now => rwa [Job.step, Shut, h.setState hj]
  | subscribe afterSeq => rwa [Job.step, Shut, (sameAt_subscribe hlt afterSeq).chan]
  | unsubscribe k =>
    by_cases hk : k ∈ j.subs
    · have hne : k ≠ i := fun heq => h.not_mem_subs hj (heq ▸ hk)
      rwa [Job.step, Shut, (sameAt_unsubscribe hj hne).chan]
    · rwa [Job.step, Job.unsubscribe, if_neg hk]
  | receive k =>
    by_cases hne : k = i
    · subst hne
      rw [Job.step]
      cases hr : j.receive k with
      | none => exact h
      | some p =>
        obtain ⟨c, rest, hc, -, hp⟩ := receive_eq hr
        obtain ⟨c', hc', hclosed⟩ := shut_iff.mp h
        obtain rfl := Option.some.inj (hc.symm.trans hc')
        rw [Option.map_some, Option.getD_some, hp]
        exact shut_iff.mpr ⟨_, List.getElem?_set_self hlt, hclosed⟩
    · rwa [Shut, (sameAt_receive hne).chan]
  | install => exact h

theorem Shut.run {j : Job} {i : Nat} (h : j.Shut i) (hj : j.Channels) (ops : List JobOp) :
    (j.run ops).Shut i := by
  induction ops generalizing j with
  | nil => exact h
  | cons op ops ih => exact ih (h.step hj op) (hj.step op)

/-- The unsubscribe function leaves its channel shut, be it open or long dropped. -/
theorem shut_unsubscribe {j : Job} (h : j.Settled) {i : Nat} (hi : i < j.chans.length) :
    (j.unsubscribe i).Shut i := by
  by_cases hsub : i ∈ j.subs
  · obtain ⟨c, hc, ho⟩ := h.channels.opened i hsub
    rw [Job.unsubscribe, if_pos hsub, drop_touches j i c hc ho]
    exact shut_iff.mpr ⟨_, List.getElem?_set_self hi, rfl⟩
  · rw [Job.unsubscribe, if_neg hsub]
    exact shut_of_not_open hi fun hopen => hsub (h.subscribed i hopen)

theorem HandedBack.shut {j : Job} (h : j.Settled) {ops : List JobOp} {i : Nat}
    (hback : j.HandedBack ops i) : (j.run ops).Shut i := by
  obtain ⟨before, after, rfl, hi⟩ := hback
  have hmid := h.run before
  have hrun : j.run (before ++ .unsubscribe i :: after) =
      ((j.run before).unsubscribe i).run after := j.run_append before _
  rw [hrun]
  exact (shut_unsubscribe hmid hi).run (hmid.channels.unsubscribe i) after

/-- What a run leaves of the channels: nothing panicked, the subscriptions are the open
channels that were not handed back, and a finished job has none. -/
structure RunsSafely (j : Job) (ops : List JobOp) : Prop where
  calm : (j.run ops).panicked = false
  nodup : (j.run ops).subs.Nodup
  mem_subs_iff : ∀ i, i ∈ (j.run ops).subs ↔ (j.run ops).IsOpen i ∧ ¬ j.HandedBack ops i
  ended : (j.run ops).state.terminal = true → (j.run ops).subs = []

theorem Settled.runsSafely {j : Job} (h : j.Settled) (ops : List JobOp) : j.RunsSafely ops := by
  have hrun := h.run ops
  refine ⟨hrun.channels.calm, hrun.channels.nodup, fun i => ?_, hrun.ended⟩
  rw [hrun.mem_subs_iff i]
  exact (and_iff_left_of_imp fun hopen hback => (hback.shut h).not_open hopen).symm

end Job

end Broom.Jobs

namespace Broom.Api

open Broom.Core Broom.Engine Broom.Jobs

/-- A step of the handler or of another party is at most one operation on the job. -/
theorem Stream.job_step {s s' : Stream} {a : Act} (h : s.step a = some s') :
    ∃ ops, s'.job = s.job.run ops := by
  cases Stream.moves_of_step h with
  | job op _ => exact ⟨[op], rfl⟩
  | subscribe _ => exact ⟨[.subscribe s.lastSeq], rfl⟩
  | @receive ch ev j _ hr => exact ⟨[.receive ch], by simp [Job.run, Job.step, hr]⟩
  | closed _ _ _ _ => exact ⟨[], rfl⟩
  | finish _ _ => exact ⟨[], rfl⟩
  | resume _ _ => exact ⟨[], rfl⟩
  | @unsubscribe ch _ => exact ⟨[.unsubscribe ch], rfl⟩
  | disconnect _ => exact ⟨[], rfl⟩
  | @leave ch _ => exact ⟨[.unsubscribe ch], rfl⟩

theorem Stream.job_execute {s s' : Stream} {acts : List Act}
    (h : execute Stream.step s acts = some s') : ∃ ops, s'.job = s.job.run ops := by
  induction acts generalizing s with
  | nil =>
    obtain rfl := Option.some.inj h
    exact ⟨[], rfl⟩
  | cons a acts ih =>
    obtain ⟨s₁, hstep, hrest⟩ := Option.bind_eq_some_iff.mp h
    obtain ⟨ops, hops⟩ := Stream.job_step hstep
    obtain ⟨ops', hops'⟩ := ih hrest
    exact ⟨ops ++ ops', by rw [hops', hops, Job.run_append]⟩

/-- Whatever is published, whatever the job's state does, whoever subscribes and
however often the unsubscribe functions are called, no channel of a job is closed
twice or written to after it was closed, also while handlers stream its events. -/
theorem channels_safe (id sessionId accountId : String) (spec : Spec) (now : Nat)
    (ops : List JobOp) :
    (newJob id sessionId accountId spec now).RunsSafely ops ∧
      ∀ after acts s, execute Stream.step
        (handleJobEvents ((newJob id sessionId accountId spec now).run ops) after) acts = some s →
      ∃ more, s.job = (newJob id sessionId accountId spec now).run (ops ++ more) ∧
        (newJob id sessionId accountId spec now).RunsSafely (ops ++ more) := by
  have hnew := Job.newJob_settled id sessionId accountId spec now
  refine ⟨hnew.runsSafely ops, fun after acts s h => ?_⟩
  obtain ⟨more, hmore⟩ := Stream.job_execute h
  refine ⟨more, ?_, hnew.runsSafely _⟩
  rw [hmore, Job.run_append]
  rfl

end Broom.Api
