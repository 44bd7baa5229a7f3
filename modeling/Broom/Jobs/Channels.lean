import Broom.Jobs.View

/-!
# The channels of a job

A subscription is an open channel. Publishing offers the event to each subscription,
which takes it or is dropped; a final state closes them all. No operation closes a
channel twice or sends on a closed one.
-/

namespace Broom.Jobs

open Broom.Core Broom.Engine

/-- The channel can take one more event. -/
def Chan.room (ch : Chan) : Bool := ch.buffer.length < ch.capacity

def Chan.close (ch : Chan) : Chan := { ch with closed := true }

/-- A channel takes an event, or is closed if it is full. -/
def Chan.offer (ev : Event) (ch : Chan) : Chan :=
  if ch.room then { ch with buffer := ch.buffer ++ [ev] } else ch.close

namespace Job

/-- Subscriptions are distinct open channels, and nothing has panicked. -/
structure Channels (j : Job) : Prop where
  nodup : j.subs.Nodup
  opened : ∀ i ∈ j.subs, ∃ ch, j.chans[i]? = some ch ∧ ch.closed = false
  calm : j.panicked = false

/-- What an operation does to an open channel: it changes the channel, and drops the
subscription unless it keeps it. -/
def Touches (f : Job → Nat → Job) (g : Chan → Chan) (keep : Chan → Bool) : Prop :=
  ∀ j i ch, j.chans[i]? = some ch → ch.closed = false →
    f j i = { j with chans := j.chans.set i (g ch)
                     subs := if keep ch then j.subs else j.subs.erase i }

theorem drop_touches : Touches drop Chan.close fun _ => false := by
  intro j i ch hi ho
  simp [drop, closeChan, hi, ho, Chan.close]

theorem deliver_touches (ev : Event) : Touches (deliver ev) (Chan.offer ev) Chan.room := by
  intro j i ch hi ho
  by_cases hroom : ch.buffer.length < ch.capacity
  · simp [deliver, hi, ho, hroom, Chan.offer, Chan.room]
  · simp [deliver, hi, ho, hroom, Chan.offer, Chan.room, drop_touches j i ch hi ho]

/-- What touching several subscriptions one after another leaves. -/
structure Touched (j j' : Job) (is : List Nat) (g : Chan → Chan) (keep : Chan → Bool) : Prop where
  chans : ∀ k, j'.chans[k]? = if k ∈ is then (j.chans[k]?).map g else j.chans[k]?
  length : j'.chans.length = j.chans.length
  subs : j'.subs.Sublist j.subs
  mem_subs : ∀ k ∈ j.subs, k ∈ j'.subs ↔ (k ∈ is → ∃ ch, j.chans[k]? = some ch ∧ keep ch = true)
  panicked : j'.panicked = j.panicked

/-- Each of several open channels is touched once. -/
theorem Touches.foldl {f : Job → Nat → Job} {g : Chan → Chan} {keep : Chan → Bool}
    (hf : Touches f g keep) {is : List Nat} (his : is.Nodup) {j : Job} (hsubs : j.subs.Nodup)
    (hopen : ∀ i ∈ is, ∃ ch, j.chans[i]? = some ch ∧ ch.closed = false) :
    Touched j (is.foldl f j) is g keep := by
  induction is generalizing j with
  | nil => exact ⟨by simp, rfl, .refl _, by simp, rfl⟩
  | cons i is ih =>
    obtain ⟨hi, hn⟩ := List.nodup_cons.mp his
    obtain ⟨ch, hch, ho⟩ := hopen i (List.mem_cons_self ..)
    have hlt : i < j.chans.length := (List.getElem?_eq_some_iff.mp hch).1
    rw [List.foldl_cons, hf j i ch hch ho]
    have hkeep : ∀ k ∈ j.subs, k ≠ i → k ∈ (if keep ch then j.subs else j.subs.erase i) := by
      intro k hk hne
      split
      · exact hk
      · exact (List.mem_erase_of_ne hne).mpr hk
    have hsub : (if keep ch then j.subs else j.subs.erase i).Sublist j.subs := by
      split
      · exact .refl _
      · exact List.erase_sublist
    have hrest := @ih hn { j with
        chans := j.chans.set i (g ch)
        subs := if keep ch then j.subs else j.subs.erase i } (hsubs.sublist hsub) (by
      intro k hk
      obtain ⟨ck, hck, hok⟩ := hopen k (List.mem_cons_of_mem _ hk)
      have hne : i ≠ k := by
        rintro rfl
        exact hi hk
      exact ⟨ck, by simpa [List.getElem?_set_ne hne] using hck, hok⟩)
    refine ⟨fun k => ?_, ?_, hrest.subs.trans hsub, fun k hk => ?_, hrest.panicked⟩
    · rw [hrest.chans k]
      by_cases hki : k = i
      · subst hki
        rw [if_neg hi, if_pos (List.mem_cons_self ..), hch]
        simp [hlt]
      · have hset : (j.chans.set i (g ch))[k]? = j.chans[k]? :=
          List.getElem?_set_ne (Ne.symm hki)
        simp only [hset, List.mem_cons, hki, false_or]
    · exact hrest.length.trans (List.length_set ..)
    · by_cases hki : k = i
      · subst hki
        rw [imp_iff_right (List.mem_cons_self ..)]
        have hin : k ∈ (if keep ch then j.subs else j.subs.erase k) ↔ keep ch = true := by
          cases keep ch with
          | true => simpa using hk
          | false => simpa using hsubs.not_mem_erase
        constructor
        · intro hmem
          exact ⟨ch, hch, hin.mp (hrest.subs.subset hmem)⟩
        · rintro ⟨ch', hch', hk'⟩
          obtain rfl := Option.some.inj (hch.symm.trans hch')
          exact (hrest.mem_subs k (hin.mpr hk')).mpr fun hmem => absurd hmem hi
      · have hset : (j.chans.set i (g ch))[k]? = j.chans[k]? :=
          List.getElem?_set_ne (Ne.symm hki)
        rw [hrest.mem_subs k (hkeep k hk hki)]
        simp only [hset, List.mem_cons, hki, false_or]

/-- Publishing offers the event to every subscription. -/
theorem Channels.touched_publish {j : Job} (h : j.Channels) (ev : Event) (now : Nat) :
    Touched j (j.publish ev now) j.subs (Chan.offer (j.stamp ev now)) Chan.room := by
  have ht := (deliver_touches (j.stamp ev now)).foldl h.nodup
    (j := j.record (j.stamp ev now)) h.nodup h.opened
  exact ⟨ht.chans, ht.length, ht.subs, ht.mem_subs, ht.panicked⟩

/-- A transition to a final state closes every subscription. -/
theorem Channels.touched_setState {j : Job} (h : j.Channels) {s : State}
    (hj : j.state.terminal = false) (hs : s.terminal = true) (errMsg : String) (now : Nat) :
    Touched j (j.setState s errMsg now) j.subs Chan.close fun _ => false := by
  have ht := drop_touches.foldl h.nodup
    (j := { j with state := s, startedAt := if s = .running then now else j.startedAt })
    h.nodup h.opened
  have hset : j.setState s errMsg now = { j.subs.foldl drop
      { j with state := s, startedAt := if s = .running then now else j.startedAt } with
      finishedAt := now, errMsg := errMsg } := by
    simp [setState, hj, hs]
  rw [hset]
  exact ⟨ht.chans, ht.length, ht.subs, ht.mem_subs, ht.panicked⟩

/-- Touching the subscriptions keeps those that stay open. -/
theorem Channels.of_touched {j j' : Job} (h : j.Channels) {g : Chan → Chan} {keep : Chan → Bool}
    (ht : Touched j j' j.subs g keep)
    (hg : ∀ ch, keep ch = true → ch.closed = false → (g ch).closed = false) : j'.Channels := by
  refine ⟨h.nodup.sublist ht.subs, fun i hi => ?_, ht.panicked.trans h.calm⟩
  have hmem := ht.subs.subset hi
  obtain ⟨ch, hch, hk⟩ := (ht.mem_subs i hmem).mp hi hmem
  obtain ⟨ch', hch', ho⟩ := h.opened i hmem
  obtain rfl := Option.some.inj (hch.symm.trans hch')
  exact ⟨g ch, by rw [ht.chans, if_pos hmem, hch, Option.map_some], hg ch hk ho⟩

theorem Channels.publish {j : Job} (h : j.Channels) (ev : Event) (now : Nat) :
    (j.publish ev now).Channels :=
  h.of_touched (h.touched_publish ev now) fun ch hroom ho => by simpa [Chan.offer, hroom] using ho

theorem Channels.setState {j : Job} (h : j.Channels) (s : State) (errMsg : String) (now : Nat) :
    (j.setState s errMsg now).Channels := by
  cases hj : j.state.terminal with
  | true =>
    have hset : j.setState s errMsg now = j := by simp [Job.setState, hj]
    rwa [hset]
  | false =>
    cases hs : s.terminal with
    | true => exact h.of_touched (h.touched_setState hj hs errMsg now) (by simp)
    | false =>
      have hset : j.setState s errMsg now =
          { j with state := s, startedAt := if s = .running then now else j.startedAt } := by
        simp [Job.setState, hj, hs]
      rw [hset]
      exact ⟨h.nodup, h.opened, h.calm⟩

theorem Channels.lt_length {j : Job} (h : j.Channels) {i : Nat} (hi : i ∈ j.subs) :
    i < j.chans.length := by
  obtain ⟨ch, hch, -⟩ := h.opened i hi
  exact (List.getElem?_eq_some_iff.mp hch).1

theorem Channels.subscribe {j : Job} (h : j.Channels) (afterSeq : Int) :
    (j.subscribe afterSeq).Channels := by
  have hold : ∀ i ∈ j.subs, ∃ ch, (j.subscribe afterSeq).chans[i]? = some ch ∧
      ch.closed = false := by
    intro i hi
    obtain ⟨ch, hch, ho⟩ := h.opened i hi
    exact ⟨ch, by rw [Job.subscribe, List.getElem?_append_left (h.lt_length hi), hch], ho⟩
  cases hj : j.state.terminal with
  | true =>
    have hsubs : (j.subscribe afterSeq).subs = j.subs := by simp [Job.subscribe, hj]
    exact ⟨by rw [hsubs]; exact h.nodup, by rw [hsubs]; exact hold, h.calm⟩
  | false =>
    have hsubs : (j.subscribe afterSeq).subs = j.subs ++ [j.chans.length] := by
      simp [Job.subscribe, hj]
    refine ⟨?_, fun i hi => ?_, h.calm⟩
    · rw [hsubs]
      refine List.nodup_append'.mpr ⟨h.nodup, List.nodup_singleton _, ?_⟩
      rw [List.disjoint_singleton]
      exact fun hmem => Nat.lt_irrefl _ (h.lt_length hmem)
    · rw [hsubs] at hi
      rcases List.mem_append.mp hi with hi | hi
      · exact hold i hi
      · obtain rfl := List.mem_singleton.mp hi
        exact ⟨_, List.getElem?_concat_length, hj⟩

theorem Channels.unsubscribe {j : Job} (h : j.Channels) (i : Nat) :
    (j.unsubscribe i).Channels := by
  unfold Job.unsubscribe
  split
  · rename_i hi
    obtain ⟨ch, hch, ho⟩ := h.opened i hi
    rw [drop_touches j i ch hch ho]
    refine ⟨h.nodup.erase i, fun k hk => ?_, h.calm⟩
    have hk : k ∈ j.subs.erase i := hk
    obtain ⟨hne, hmem⟩ := h.nodup.mem_erase_iff.mp hk
    obtain ⟨ck, hck, hok⟩ := h.opened k hmem
    exact ⟨ck, (List.getElem?_set_ne (Ne.symm hne)).trans hck, hok⟩
  · exact h

/-- Receiving takes the first event of a channel's buffer. -/
theorem receive_eq {j j' : Job} {i : Nat} {ev : Event} (h : j.receive i = some (ev, j')) :
    ∃ ch rest, j.chans[i]? = some ch ∧ ch.buffer = ev :: rest ∧
      j' = { j with chans := j.chans.set i { ch with buffer := rest } } := by
  unfold receive at h
  split at h
  · rename_i ev' rest capacity closed hi
    obtain ⟨rfl, rfl⟩ := Prod.mk.inj (Option.some.inj h)
    exact ⟨_, rest, hi, rfl, rfl⟩
  · cases h

theorem Channels.receive {j j' : Job} (h : j.Channels) {i : Nat} {ev : Event}
    (hr : j.receive i = some (ev, j')) : j'.Channels := by
  obtain ⟨ch, rest, hch, hbuf, rfl⟩ := receive_eq hr
  have hlt := (List.getElem?_eq_some_iff.mp hch).1
  refine ⟨h.nodup, fun k hk => ?_, h.calm⟩
  obtain ⟨ck, hck, ho⟩ := h.opened k hk
  by_cases hki : k = i
  · subst hki
    obtain rfl := Option.some.inj (hch.symm.trans hck)
    exact ⟨_, List.getElem?_set_self hlt, ho⟩
  · exact ⟨ck, (List.getElem?_set_ne (Ne.symm hki)).trans hck, ho⟩

/-- Every operation keeps the subscriptions open and nothing panics. -/
theorem Channels.step {j : Job} (h : j.Channels) (op : JobOp) : (j.step op).Channels := by
  cases op with
  | publish ev now => exact h.publish ev now
  | setState s errMsg now => exact h.setState s errMsg now
  | subscribe afterSeq => exact h.subscribe afterSeq
  | unsubscribe i => exact h.unsubscribe i
  | receive i =>
    rw [Job.step]
    cases hr : j.receive i with
    | none => exact h
    | some p => exact h.receive hr
  | install => exact ⟨h.nodup, h.opened, h.calm⟩

theorem Channels.run {j : Job} (h : j.Channels) (ops : List JobOp) : (j.run ops).Channels := by
  induction ops generalizing j with
  | nil => exact h
  | cons op ops ih => exact ih (h.step op)

end Job

theorem newJob_channels (id sessionId accountId : String) (spec : Spec) (now : Nat) :
    (newJob id sessionId accountId spec now).Channels :=
  ⟨List.nodup_nil, by simp [newJob], rfl⟩

end Broom.Jobs
