import Broom.Jobs.Subscription

/-!
# What a subscription delivers

A channel delivers what was taken out of it and what it still holds. For a start that
the job has reached these are the recorded events with a later number, in order and
once each, and then every event published while the subscription lasts. For a start
beyond the last number the slice is not cut at all, and everything is replayed.
-/

namespace Broom.Jobs

open Broom.Core Broom.Engine

namespace Job

/-- What a channel holds. -/
def pending (j : Job) (ch : Nat) : List Event := ((j.chans[ch]?).map Chan.buffer).getD []

/-- What an operation takes out of a channel. -/
def received (j : Job) (ch : Nat) : JobOp → List Event
  | .receive i => if i = ch then ((j.receive ch).map Prod.fst).toList else []
  | _ => []

/-- What a run takes out of a channel. -/
def taken (j : Job) (ch : Nat) : List JobOp → List Event
  | [] => []
  | op :: ops => j.received ch op ++ (j.step op).taken ch ops

/-- What a channel delivers in a run: what is taken out of it, then what it holds. -/
def delivered (j : Job) (ch : Nat) (ops : List JobOp) : List Event :=
  j.taken ch ops ++ (j.run ops).pending ch

/-- The recorded events with a number after a given one. -/
def missed (j : Job) (afterSeq : Int) : List Event :=
  j.events.filter fun ev => afterSeq < ev.seq

end Job

/-- Exactly the missed events are delivered, followed by a first part of the later
ones, and by all of them as long as the subscription lasts. -/
structure Delivers (missed later got : List Event) (subscribed : Prop) : Prop where
  replayed : missed <+: got
  in_order : got <+: missed ++ later
  complete : subscribed → got = missed ++ later

/-- A delivery may fall behind, but not change. -/
theorem Delivers.behind {missed later got : List Event} {p q : Prop}
    (h : Delivers missed later got p) (hq : ¬ q) (more : List Event) :
    Delivers missed (later ++ more) got q :=
  ⟨h.replayed, h.in_order.trans ⟨more, by rw [List.append_assoc]⟩, fun h => absurd h hq⟩

namespace Job

/-- A reader of a channel has got the missed events and then the published ones. -/
structure Follows (j : Job) (ch start : Nat) (missed got : List Event) : Prop where
  channels : j.Channels
  lt : ch < j.chans.length
  start_le : start ≤ j.events.length
  delivers : Delivers missed (j.events.drop start) (got ++ j.pending ch) (ch ∈ j.subs)

/-- An operation that leaves the reader's channel and the events alone. -/
theorem Follows.of_same {j j' : Job} {ch start : Nat} {missed got got' : List Event}
    (h : j.Follows ch start missed got) (hc : j'.Channels)
    (hlen : j.chans.length ≤ j'.chans.length) (hev : j'.events = j.events)
    (hgot : got' ++ j'.pending ch = got ++ j.pending ch) (hsubs : ch ∈ j'.subs → ch ∈ j.subs) :
    j'.Follows ch start missed got' := by
  refine ⟨hc, h.lt.trans_le hlen, hev ▸ h.start_le, ?_⟩
  rw [hev, hgot]
  exact ⟨h.delivers.replayed, h.delivers.in_order, fun hs => h.delivers.complete (hsubs hs)⟩

/-- A published event reaches a reader's channel that has room; otherwise the reader is
dropped, or was before. -/
theorem Follows.publish {j : Job} {ch start : Nat} {missed got : List Event}
    (h : j.Follows ch start missed got) (ev : Event) (now : Nat) :
    (j.publish ev now).Follows ch start missed got := by
  have ht := h.channels.touched_publish ev now
  have hdrop : (j.publish ev now).events.drop start =
      j.events.drop start ++ [j.stamp ev now] := by
    rw [publish_events, List.drop_append_of_le_length h.start_le]
  refine ⟨h.channels.publish ev now, ht.length ▸ h.lt, ?_, ?_⟩
  · rw [publish_events, List.length_append]
    exact h.start_le.trans (Nat.le_add_right ..)
  rw [hdrop]
  by_cases hsub : ch ∈ j.subs
  · obtain ⟨c, hc, -⟩ := h.channels.opened ch hsub
    have hc' : (j.publish ev now).chans[ch]? = some (c.offer (j.stamp ev now)) := by
      rw [ht.chans ch, if_pos hsub, hc, Option.map_some]
    have hkeep := ht.mem_subs ch hsub
    rw [imp_iff_right hsub] at hkeep
    cases hroom : c.room with
    | true =>
      have hgot : got ++ (j.publish ev now).pending ch =
          got ++ j.pending ch ++ [j.stamp ev now] := by
        simp [pending, hc', hc, Chan.offer, hroom]
      have hall := h.delivers.complete hsub
      have hnow : got ++ (j.publish ev now).pending ch =
          missed ++ (j.events.drop start ++ [j.stamp ev now]) := by
        rw [hgot, hall, List.append_assoc]
      exact ⟨hnow ▸ List.prefix_append .., hnow ▸ List.prefix_rfl, fun _ => hnow⟩
    | false =>
      have hgone : ch ∉ (j.publish ev now).subs := by
        intro hmem
        obtain ⟨c', hc'', hroom'⟩ := hkeep.mp hmem
        obtain rfl := Option.some.inj (hc.symm.trans hc'')
        rw [hroom] at hroom'
        cases hroom'
      have hsame : (j.publish ev now).pending ch = j.pending ch := by
        simp [pending, hc', hc, Chan.offer, hroom, Chan.close]
      rw [hsame]
      exact h.delivers.behind hgone _
  · have hsame : (j.publish ev now).pending ch = j.pending ch := by
      rw [pending, ht.chans ch, if_neg hsub, pending]
    rw [hsame]
    exact h.delivers.behind (fun hmem => hsub (ht.subs.subset hmem)) _

/-- Closing a channel keeps what it holds. -/
theorem pending_drop {j : Job} (h : j.Channels) {i ch : Nat} (hi : i ∈ j.subs) :
    (j.drop i).pending ch = j.pending ch := by
  obtain ⟨c, hc, ho⟩ := h.opened i hi
  have hlt := (List.getElem?_eq_some_iff.mp hc).1
  rw [drop_touches j i c hc ho]
  by_cases hne : i = ch
  · subst hne
    have hset : (j.chans.set i c.close)[i]? = some c.close := List.getElem?_set_self hlt
    rw [pending, pending, hset, hc]
    rfl
  · simp [pending, List.getElem?_set_ne hne]

theorem Follows.setState {j : Job} {ch start : Nat} {missed got : List Event}
    (h : j.Follows ch start missed got) (s : State) (errMsg : String) (now : Nat) :
    (j.setState s errMsg now).Follows ch start missed got := by
  have hc := h.channels.setState s errMsg now
  cases hrun : j.state.terminal with
  | true =>
    have hset : j.setState s errMsg now = j := by simp [Job.setState, hrun]
    rwa [hset]
  | false =>
    cases hs : s.terminal with
    | false =>
      refine h.of_same hc ?_ (setState_events ..) ?_ ?_ <;> simp [Job.setState, hrun, hs, pending]
    | true =>
      have ht := h.channels.touched_setState hrun hs errMsg now
      refine h.of_same hc ht.length.ge (setState_events ..) ?_ fun hmem => ht.subs.subset hmem
      have hsame : (j.setState s errMsg now).pending ch = j.pending ch := by
        rw [pending, ht.chans ch, pending]
        split
        · cases j.chans[ch]? <;> rfl
        · rfl
      rw [hsame]

theorem Follows.subscribe {j : Job} {ch start : Nat} {missed got : List Event}
    (h : j.Follows ch start missed got) (afterSeq : Int) :
    (j.subscribe afterSeq).Follows ch start missed got := by
  have hsame := sameAt_subscribe h.lt afterSeq
  refine h.of_same (h.channels.subscribe afterSeq) ?_ hsame.events ?_ hsame.mem_subs.mp
  · simp [Job.subscribe]
  · rw [pending, hsame.chan, pending]

theorem Follows.unsubscribe {j : Job} {ch start : Nat} {missed got : List Event}
    (h : j.Follows ch start missed got) (i : Nat) :
    (j.unsubscribe i).Follows ch start missed got := by
  have hc := h.channels.unsubscribe i
  unfold Job.unsubscribe at hc ⊢
  split
  · rename_i hi
    rw [if_pos hi] at hc
    obtain ⟨c, hch, ho⟩ := h.channels.opened i hi
    have hdrop := drop_touches j i c hch ho
    refine h.of_same hc ?_ ?_ (by rw [pending_drop h.channels hi]) ?_
    · simp [hdrop]
    · rw [hdrop]
    · rw [hdrop]
      exact List.mem_of_mem_erase
  · exact h

/-- An event that is taken out of the reader's channel is the next one it holds. -/
theorem Follows.receive {j : Job} {ch start : Nat} {missed got : List Event}
    (h : j.Follows ch start missed got) (i : Nat) :
    (j.step (.receive i)).Follows ch start missed (got ++ j.received ch (.receive i)) := by
  cases hr : j.receive i with
  | none =>
    have hsame : j.step (.receive i) = j := by simp [Job.step, hr]
    have hnone : j.received ch (.receive i) = [] := by
      by_cases hi : i = ch
      · simp [received, hi, hi ▸ hr]
      · simp [received, hi]
    rw [hsame, hnone, List.append_nil]
    exact h
  | some p =>
    obtain ⟨ev, j'⟩ := p
    have hc := h.channels.receive hr
    have hstep : j.step (.receive i) = j' := by simp [Job.step, hr]
    obtain ⟨c, rest, hch, hbuf, rfl⟩ := receive_eq hr
    have hlt := (List.getElem?_eq_some_iff.mp hch).1
    rw [hstep]
    refine h.of_same hc (by simp) rfl ?_ fun hmem => hmem
    by_cases hi : i = ch
    · subst hi
      have hset : (j.chans.set i { c with buffer := rest })[i]? =
          some { c with buffer := rest } := List.getElem?_set_self hlt
      simp [received, hr, pending, hset, hch, hbuf]
    · simp [received, hi, pending, List.getElem?_set_ne hi]

/-- Every operation keeps the reader's delivery right. -/
theorem Follows.step {j : Job} {ch start : Nat} {missed got : List Event}
    (h : j.Follows ch start missed got) (op : JobOp) :
    (j.step op).Follows ch start missed (got ++ j.received ch op) := by
  cases op with
  | receive i => exact h.receive i
  | publish ev now => simpa [received, Job.step] using h.publish ev now
  | setState s errMsg now => simpa [received, Job.step] using h.setState s errMsg now
  | subscribe afterSeq => simpa [received, Job.step] using h.subscribe afterSeq
  | unsubscribe i => simpa [received, Job.step] using h.unsubscribe i
  | install =>
    have hsame : (j.step .install).Follows ch start missed got :=
      h.of_same (h.channels.step .install) (Nat.le_refl _) rfl rfl fun hmem => hmem
    simpa [received] using hsame

/-- A whole run keeps the reader's delivery right. -/
theorem Follows.run {j : Job} {ch start : Nat} {missed got : List Event}
    (h : j.Follows ch start missed got) (ops : List JobOp) :
    (j.run ops).Follows ch start missed (got ++ j.taken ch ops) := by
  induction ops generalizing j got with
  | nil => simpa [taken, Job.run] using h
  | cons op ops ih =>
    have hrest := ih (h.step op)
    rw [List.append_assoc] at hrest
    exact hrest

/-! ## Where the replay starts -/

/-- Events numbered from a position on that come after a number are a tail. -/
private theorem filter_seq_eq_drop {events : List Event} {offset : Nat} (afterSeq : Int)
    (hnum : ∀ i ev, events[i]? = some ev → ev.seq = offset + i + 1) :
    events.filter (fun ev => afterSeq < ev.seq) = events.drop (afterSeq - offset).toNat := by
  induction events generalizing offset with
  | nil => simp
  | cons ev events ih =>
    have hev : ev.seq = offset + 1 := hnum 0 ev rfl
    have htail := @ih (offset + 1) fun i ev' hi => by
      rw [hnum (i + 1) ev' (by simpa using hi)]
      omega
    by_cases hlt : afterSeq < ev.seq
    · have hzero : (afterSeq - offset).toNat = 0 := by omega
      have hzero' : (afterSeq - (offset + 1 : Nat)).toNat = 0 := by omega
      rw [hzero'] at htail
      rw [List.filter_cons_of_pos (by simpa using hlt), htail, hzero, List.drop_zero,
        List.drop_zero]
    · have hsucc : (afterSeq - offset).toNat = (afterSeq - (offset + 1 : Nat)).toNat + 1 := by
        omega
      rw [List.filter_cons_of_neg (by simpa using hlt), htail, hsucc, List.drop_succ_cons]

/-- The missed events are the recorded ones without the first few. -/
theorem Consistent.missed_eq {j : Job} (h : j.Consistent) (afterSeq : Int) :
    j.missed afterSeq = j.events.drop afterSeq.toNat := by
  have htail := @filter_seq_eq_drop j.events 0 afterSeq (by simpa using h.numbered)
  simpa [missed] using htail

/-- The backlog of a subscription is what was missed exactly if the start is not
beyond the last number, or nothing was recorded. -/
theorem Consistent.backlog_eq_missed_iff {j : Job} (h : j.Consistent) (afterSeq : Int) :
    j.backlog afterSeq = j.missed afterSeq ↔ afterSeq ≤ j.seq ∨ j.events = [] := by
  rw [h.missed_eq, h.seq_eq]
  unfold backlog
  split
  · rename_i hin
    exact iff_of_true rfl (.inl hin.2)
  · rename_i hout
    rcases Int.lt_or_le 0 afterSeq with hpos | hneg
    · have hbeyond : j.events.length ≤ afterSeq.toNat := by omega
      rw [List.drop_eq_nil_of_le hbeyond]
      exact ⟨.inr, fun hor => hor.resolve_left fun hle => hout ⟨hpos, hle⟩⟩
    · have hzero : afterSeq.toNat = 0 := by omega
      rw [hzero, List.drop_zero]
      exact iff_of_true rfl (.inl (hneg.trans (Int.natCast_nonneg _)))

/-- A new subscription has delivered its backlog. -/
theorem follows_subscribe {j : Job} (hj : j.Channels) (afterSeq : Int)
    (hlog : j.backlog afterSeq = j.missed afterSeq) :
    (j.subscribe afterSeq).Follows j.chans.length j.events.length (j.missed afterSeq) [] := by
  have hpending : (j.subscribe afterSeq).pending j.chans.length = j.missed afterSeq := by
    simp [pending, Job.subscribe, hlog]
  have hnone : (j.subscribe afterSeq).events.drop j.events.length = [] :=
    List.drop_eq_nil_of_le (Nat.le_refl _)
  refine ⟨hj.subscribe afterSeq, by simp [Job.subscribe], Nat.le_refl _, ?_⟩
  rw [hnone, List.nil_append, hpending, ← List.append_nil (j.missed afterSeq)]
  exact ⟨by simp, by simp, by simp⟩

end Job

/-- Whatever was published before and whatever happens after, a subscription delivers
exactly what was missed and then what is published, if and only if its start is not
beyond the last number or nothing was recorded yet. -/
theorem subscribe_delivers_iff (id sessionId accountId : String) (spec : Spec) (now : Nat)
    (before : List JobOp) (afterSeq : Int) :
    let j := (newJob id sessionId accountId spec now).run before
    (∀ after : List JobOp,
      Delivers (j.missed afterSeq)
        (((j.subscribe afterSeq).run after).events.drop j.events.length)
        ((j.subscribe afterSeq).delivered j.chans.length after)
        (j.chans.length ∈ ((j.subscribe afterSeq).run after).subs)) ↔
    afterSeq ≤ j.seq ∨ j.events = [] := by
  intro j
  have hcons : j.Consistent := ((newJob_consistent id sessionId accountId spec now).run before).1
  have hchan : j.Channels := (newJob_channels id sessionId accountId spec now).run before
  rw [← hcons.backlog_eq_missed_iff]
  constructor
  · intro h
    have hlater : ((j.subscribe afterSeq).run []).events.drop j.events.length = [] :=
      List.drop_eq_nil_of_le (Nat.le_refl _)
    have hgot : (j.subscribe afterSeq).delivered j.chans.length [] = j.backlog afterSeq := by
      simp [Job.delivered, Job.taken, Job.run, Job.pending, Job.subscribe]
    have hnow := (h []).in_order
    have hrep := (h []).replayed
    rw [hlater, List.append_nil, hgot] at hnow
    rw [hgot] at hrep
    exact hnow.eq_of_length (Nat.le_antisymm hnow.length_le hrep.length_le)
  · intro hlog after
    have hend := (Job.follows_subscribe hchan afterSeq hlog).run after
    simpa [Job.delivered] using hend.delivers

/-- A resource type that was looked at. -/
private def looked (resourceType : String) : Event where
  type := .scanProgress
  resourceType := resourceType
  region := "us-east-1"

/-- A client that has seen five events of a job with two is sent both of them. -/
theorem subscribe_beyond_last :
    ¬ ∀ after : List JobOp,
      let j := (newJob "j" "s" "1" ⟨.scan, ["us-east-1"], ["sns-topic"], none, "", [], 0⟩ 1).run
        [.publish (looked "sns-topic") 2, .publish (looked "sqs-queue") 3]
      Delivers (j.missed 5) (((j.subscribe 5).run after).events.drop j.events.length)
        ((j.subscribe 5).delivered j.chans.length after)
        (j.chans.length ∈ ((j.subscribe 5).run after).subs) := by
  intro h
  have hlen := (h []).in_order.length_le
  revert hlen
  decide

end Broom.Jobs
