import Broom.Jobs.Channels

/-!
# One subscription

A reader that has taken every event up to a position finds the rest in the channel it
holds, as long as the job has not dropped it. A dropped reader finds only a first part
of the rest, and its channel is closed just as a final state closes it.
-/

namespace Broom.Jobs

open Broom.Core Broom.Engine

/-- The channel holds everything after a position, and stays open until a final state. -/
def Job.Current (j : Job) (n ch : Nat) : Prop :=
  ∃ c, j.chans[ch]? = some c ∧ c.buffer = j.events.drop n ∧
    (ch ∈ j.subs ∨ c.closed = true ∧ j.state.terminal = true)

/-- The channel is closed and holds only a first part of what comes after a position. -/
def Job.Behind (j : Job) (n ch : Nat) : Prop :=
  ∃ c, j.chans[ch]? = some c ∧ c.closed = true ∧ c.buffer <+: j.events.drop n ∧
    n + c.buffer.length < j.events.length

/-- Two jobs agree on what a reader of one channel can see. -/
structure Job.SameAt (j j' : Job) (ch : Nat) : Prop where
  events : j'.events = j.events
  state : j'.state = j.state
  chan : j'.chans[ch]? = j.chans[ch]?
  mem_subs : ch ∈ j'.subs ↔ ch ∈ j.subs

namespace Job

theorem SameAt.current {j j' : Job} {n ch : Nat} (h : j.SameAt j' ch) (hc : j.Current n ch) :
    j'.Current n ch := by
  obtain ⟨c, hch, hbuf, hopen⟩ := hc
  exact ⟨c, h.chan.trans hch, by rw [h.events, hbuf], by rwa [h.mem_subs, h.state]⟩

theorem SameAt.behind {j j' : Job} {n ch : Nat} (h : j.SameAt j' ch) (hb : j.Behind n ch) :
    j'.Behind n ch := by
  obtain ⟨c, hch, hclosed, hpre, hlt⟩ := hb
  exact ⟨c, h.chan.trans hch, hclosed, by rwa [h.events], by rwa [h.events]⟩

/-! ## Operations of others -/

theorem sameAt_drop {j : Job} (h : j.Channels) {i ch : Nat} (hi : i ∈ j.subs) (hne : i ≠ ch) :
    j.SameAt (j.drop i) ch := by
  obtain ⟨c, hc, ho⟩ := h.opened i hi
  rw [drop_touches j i c hc ho]
  exact ⟨rfl, rfl, List.getElem?_set_ne hne, List.mem_erase_of_ne hne.symm⟩

/-- Someone else's subscription ends. -/
theorem sameAt_unsubscribe {j : Job} (h : j.Channels) {i ch : Nat} (hne : i ≠ ch) :
    j.SameAt (j.unsubscribe i) ch := by
  unfold unsubscribe
  split
  · rename_i hi
    exact sameAt_drop h hi hne
  · exact ⟨rfl, rfl, rfl, .rfl⟩

/-- Someone else takes an event out of another channel. -/
theorem sameAt_receive {j : Job} {i ch : Nat} (hne : i ≠ ch) :
    j.SameAt (j.step (.receive i)) ch := by
  rw [Job.step]
  cases hr : j.receive i with
  | none => exact ⟨rfl, rfl, rfl, .rfl⟩
  | some p =>
    obtain ⟨c, rest, -, -, hj⟩ := receive_eq hr
    rw [Option.map_some, Option.getD_some, hj]
    exact ⟨rfl, rfl, List.getElem?_set_ne hne, .rfl⟩

/-- Someone else subscribes. -/
theorem sameAt_subscribe {j : Job} {ch : Nat} (hch : ch < j.chans.length) (afterSeq : Int) :
    j.SameAt (j.subscribe afterSeq) ch := by
  refine ⟨rfl, rfl, List.getElem?_append_left hch, ?_⟩
  cases hj : j.state.terminal with
  | true => simp [subscribe, hj]
  | false =>
    have : ch ≠ j.chans.length := hch.ne
    simp [subscribe, hj, this]

/-! ## Closed channels -/

/-- The channel is closed. -/
def Shut (j : Job) (ch : Nat) : Prop := (j.chans[ch]?).any Chan.closed = true

theorem shut_iff {j : Job} {ch : Nat} :
    j.Shut ch ↔ ∃ c, j.chans[ch]? = some c ∧ c.closed = true := by
  rw [Shut, Option.any_eq_true]

theorem Shut.not_mem_subs {j : Job} {ch : Nat} (h : j.Shut ch) (hj : j.Channels) :
    ch ∉ j.subs := by
  intro hmem
  obtain ⟨c, hch, hclosed⟩ := shut_iff.mp h
  obtain ⟨c', hch', ho⟩ := hj.opened ch hmem
  obtain rfl := Option.some.inj (hch.symm.trans hch')
  rw [hclosed] at ho
  cases ho

/-- A closed channel is no longer written to. -/
theorem Shut.publish {j : Job} {ch : Nat} (h : j.Shut ch) (hj : j.Channels) (ev : Event)
    (now : Nat) : (j.publish ev now).chans[ch]? = j.chans[ch]? := by
  rw [(hj.touched_publish ev now).chans ch, if_neg (h.not_mem_subs hj)]

/-- A closed channel is not closed again. -/
theorem Shut.setState {j : Job} {ch : Nat} (h : j.Shut ch) (hj : j.Channels) (s : State)
    (errMsg : String) (now : Nat) : (j.setState s errMsg now).chans[ch]? = j.chans[ch]? := by
  cases hrun : j.state.terminal with
  | true => simp [Job.setState, hrun]
  | false =>
    cases hs : s.terminal with
    | true =>
      rw [(hj.touched_setState hrun hs errMsg now).chans ch, if_neg (h.not_mem_subs hj)]
    | false => simp [Job.setState, hrun, hs]

theorem Behind.shut {j : Job} {n ch : Nat} (h : j.Behind n ch) : j.Shut ch := by
  obtain ⟨c, hch, hclosed, -⟩ := h
  exact shut_iff.mpr ⟨c, hch, hclosed⟩

/-! ## Publishing -/

theorem publish_events (j : Job) (ev : Event) (now : Nat) :
    (j.publish ev now).events = j.events ++ [j.stamp ev now] := (j.publish_same ev now).2.1

theorem publish_state (j : Job) (ev : Event) (now : Nat) :
    (j.publish ev now).state = j.state := (j.publish_same ev now).2.2.1

/-- A current channel takes a published event, or is dropped; a closed one misses it. -/
theorem Current.publish {j : Job} {n ch : Nat} (h : j.Current n ch) (hj : j.Channels)
    (hn : n ≤ j.events.length) (ev : Event) (now : Nat) :
    (j.publish ev now).Current n ch ∨ (j.publish ev now).Behind n ch := by
  obtain ⟨c, hch, hbuf, hsub⟩ := h
  have ht := hj.touched_publish ev now
  have hch' := ht.chans ch
  have hdrop : (j.publish ev now).events.drop n = j.events.drop n ++ [j.stamp ev now] := by
    rw [publish_events, List.drop_append_of_le_length hn]
  have hlt {c' : Chan} (hc' : c'.buffer = c.buffer) :
      n + c'.buffer.length < (j.publish ev now).events.length := by
    rw [publish_events, hc', hbuf, List.length_drop, List.length_append, List.length_singleton]
    omega
  by_cases hmem : ch ∈ j.subs
  · rw [if_pos hmem, hch, Option.map_some] at hch'
    have hsubs := ht.mem_subs ch hmem
    rw [imp_iff_right hmem] at hsubs
    cases hroom : c.room with
    | true =>
      refine .inl ⟨_, hch', ?_, .inl (hsubs.mpr ⟨c, hch, hroom⟩)⟩
      rw [hdrop, ← hbuf]
      simp [Chan.offer, hroom]
    | false =>
      have hoffer : Chan.offer (j.stamp ev now) c = c.close := by simp [Chan.offer, hroom]
      rw [hoffer] at hch'
      refine .inr ⟨_, hch', rfl, ?_, hlt rfl⟩
      rw [hdrop, ← hbuf]
      exact List.prefix_append ..
  · rw [if_neg hmem, hch] at hch'
    refine .inr ⟨c, hch', (hsub.resolve_left hmem).1, ?_, hlt rfl⟩
    rw [hdrop, ← hbuf]
    exact List.prefix_append ..

theorem Behind.publish {j : Job} {n ch : Nat} (h : j.Behind n ch) (hj : j.Channels)
    (ev : Event) (now : Nat) : (j.publish ev now).Behind n ch := by
  have hchan := h.shut.publish hj ev now
  obtain ⟨c, hch, hclosed, hpre, hlt⟩ := h
  refine ⟨c, hchan.trans hch, hclosed, ?_, ?_⟩
  · rw [publish_events, List.drop_append_of_le_length (by omega)]
    exact hpre.trans (List.prefix_append ..)
  · rw [publish_events, List.length_append]
    omega

/-! ## The final state -/

theorem setState_events (j : Job) (s : State) (errMsg : String) (now : Nat) :
    (j.setState s errMsg now).events = j.events := (j.setState_same s errMsg now).2.1

/-- A final state closes a current channel, and nothing is missing from it. -/
theorem Current.setState {j : Job} {n ch : Nat} (h : j.Current n ch) (hj : j.Channels)
    (s : State) (errMsg : String) (now : Nat) : (j.setState s errMsg now).Current n ch := by
  have hev := setState_events j s errMsg now
  cases hrun : j.state.terminal with
  | true =>
    have hset : j.setState s errMsg now = j := by simp [Job.setState, hrun]
    rwa [hset]
  | false =>
    obtain ⟨c, hch, hbuf, hmem | ⟨-, hterm⟩⟩ := h
    · cases hs : s.terminal with
      | true =>
        have hst := setState_state j s errMsg now
        rw [hrun] at hst
        refine ⟨c.close, ?_, by rw [hev, ← hbuf, Chan.close], .inr ⟨rfl, hst ▸ hs⟩⟩
        rw [(hj.touched_setState hrun hs errMsg now).chans ch, if_pos hmem, hch, Option.map_some]
      | false =>
        refine ⟨c, ?_, by rw [hev, hbuf], .inl ?_⟩
        · simpa [Job.setState, hrun, hs] using hch
        · simpa [Job.setState, hrun, hs] using hmem
    · rw [hrun] at hterm
      cases hterm

theorem Behind.setState {j : Job} {n ch : Nat} (h : j.Behind n ch) (hj : j.Channels)
    (s : State) (errMsg : String) (now : Nat) : (j.setState s errMsg now).Behind n ch := by
  have hchan := h.shut.setState hj s errMsg now
  have hev := setState_events j s errMsg now
  obtain ⟨c, hch, hclosed, hpre, hlt⟩ := h
  exact ⟨c, hchan.trans hch, hclosed, by rwa [hev], by rwa [hev]⟩

/-! ## Subscribing and receiving -/

/-- The events after a recorded position. -/
theorem backlog_eq_drop {j : Job} {n : Nat} (hn : n ≤ j.events.length) :
    j.backlog n = j.events.drop n := by
  unfold backlog
  split
  · rw [Int.toNat_natCast]
  · rename_i h
    have : n = 0 := by omega
    rw [this, List.drop_zero]

/-- A new subscription is current. -/
theorem subscribe_current {j : Job} {n : Nat} (hn : n ≤ j.events.length) :
    (j.subscribe n).Current n j.chans.length := by
  refine ⟨_, List.getElem?_concat_length, backlog_eq_drop hn, ?_⟩
  cases hj : j.state.terminal with
  | true => exact .inr ⟨rfl, hj⟩
  | false => simp [subscribe, hj]

/-- Receiving moves a reader one position on. -/
theorem Current.receive {j j' : Job} {n ch : Nat} {ev : Event} (h : j.Current n ch)
    (hr : j.receive ch = some (ev, j')) : j.events[n]? = some ev ∧ j'.Current (n + 1) ch := by
  obtain ⟨c, hch, hbuf, hsub⟩ := h
  obtain ⟨c', rest, hch', hbuf', rfl⟩ := receive_eq hr
  obtain rfl := Option.some.inj (hch.symm.trans hch')
  have hlt := (List.getElem?_eq_some_iff.mp hch).1
  have hdrop : j.events.drop n = ev :: rest := hbuf.symm.trans hbuf'
  refine ⟨?_, _, List.getElem?_set_self hlt, ?_, hsub⟩
  · rw [← Nat.add_zero n, ← List.getElem?_drop, hdrop, List.getElem?_cons_zero]
  · rw [← List.drop_drop, hdrop, List.drop_one, List.tail_cons]

theorem Behind.receive {j j' : Job} {n ch : Nat} {ev : Event} (h : j.Behind n ch)
    (hr : j.receive ch = some (ev, j')) : j.events[n]? = some ev ∧ j'.Behind (n + 1) ch := by
  obtain ⟨c, hch, hclosed, ⟨tail, hpre⟩, hlen⟩ := h
  obtain ⟨c', rest, hch', hbuf', rfl⟩ := receive_eq hr
  obtain rfl := Option.some.inj (hch.symm.trans hch')
  have hlt := (List.getElem?_eq_some_iff.mp hch).1
  have hdrop : j.events.drop n = ev :: (rest ++ tail) := by
    rw [← hpre, hbuf', List.cons_append]
  refine ⟨?_, _, List.getElem?_set_self hlt, hclosed, ⟨tail, ?_⟩, ?_⟩
  · rw [← Nat.add_zero n, ← List.getElem?_drop, hdrop, List.getElem?_cons_zero]
  · rw [← List.drop_drop, hdrop, List.drop_one, List.tail_cons]
  · rw [hbuf', List.length_cons] at hlen
    dsimp only
    omega

/-- A closed current channel that is empty has shown everything of a finished job. -/
theorem Current.drained {j : Job} {n ch : Nat} (h : j.Current n ch) (hj : j.Channels)
    (hn : n ≤ j.events.length) {c : Chan} (hch : j.chans[ch]? = some c) (hbuf : c.buffer = [])
    (hclosed : c.closed = true) : n = j.events.length ∧ j.state.terminal = true := by
  obtain ⟨c', hch', hbuf', hsub⟩ := h
  obtain rfl := Option.some.inj (hch.symm.trans hch')
  have hlen := congrArg List.length (hbuf'.symm.trans hbuf)
  rw [List.length_drop, List.length_nil] at hlen
  refine ⟨by omega, ?_⟩
  rcases hsub with hmem | ⟨-, hterm⟩
  · obtain ⟨c'', hch'', ho⟩ := hj.opened ch hmem
    obtain rfl := Option.some.inj (hch.symm.trans hch'')
    rw [hclosed] at ho
    cases ho
  · exact hterm

end Job

end Broom.Jobs
