import Broom.Jobs.Job

/-!
# What a job shows

The abstract view of a run: found resources and outcomes in insertion order, errors,
phase and summary, as a fold over the recorded events. A job keeps this view in
plain maps beside lists of keys, whatever its channels do.
-/

namespace Broom.Jobs

open Broom.Core Broom.Engine

/-! ## The view -/

def FoundResource.key (f : FoundResource) : String :=
  selectionKey f.resourceType f.region f.identifier

def DeleteResult.key (r : DeleteResult) : String :=
  selectionKey r.resourceType r.region r.identifier

/-- What is shown of a run. -/
structure View where
  found : OrderedMap String FoundResource := .empty
  results : OrderedMap String DeleteResult := .empty
  errors : List GeneralError := []
  phase : String := ""
  summary : Option Summary := none

/-- Take one event into the view. -/
def View.apply (v : View) (ev : Event) : View :=
  match ev.type with
  | .phase =>
    if ev.phase = "rescan" then { v with phase := ev.phase, found := .empty, errors := [] }
    else { v with phase := ev.phase }
  | .resourceFound => { v with found := v.found.set (foundOf ev).key (foundOf ev) }
  | .generalError => { v with errors := v.errors ++ [⟨ev.resourceType, ev.message, ev.error⟩] }
  | .resourceDeleted => { v with results := v.results.set (resultOf ev).key (resultOf ev) }
  | .summary => { v with summary := ev.summary }
  | .scanProgress | .log | .nukeProgress | .fatal => v

/-- The view of a list of events. -/
def viewOf (events : List Event) : View := events.foldl View.apply {}

@[simp] theorem viewOf_append (events events' : List Event) :
    viewOf (events ++ events') = events'.foldl View.apply (viewOf events) := by
  simp [viewOf]

/-- Shown resources and outcomes are filed under their own keys. -/
structure View.Keyed (v : View) : Prop where
  found : v.found.Keyed FoundResource.key
  results : v.results.Keyed DeleteResult.key

theorem View.Keyed.apply {v : View} (h : v.Keyed) (ev : Event) : (v.apply ev).Keyed := by
  unfold View.apply
  cases ev.type with
  | phase =>
    dsimp only
    split
    · exact ⟨OrderedMap.keyed_empty _, h.results⟩
    · exact ⟨h.found, h.results⟩
  | resourceFound => exact ⟨h.found.set _, h.results⟩
  | resourceDeleted => exact ⟨h.found, h.results.set _⟩
  | _ => exact ⟨h.found, h.results⟩

theorem viewOf_keyed (events : List Event) : (viewOf events).Keyed := by
  have hfold : ∀ v : View, v.Keyed → (events.foldl View.apply v).Keyed := by
    induction events with
    | nil => exact fun _ h => h
    | cons ev events ih => exact fun v h => ih _ (h.apply ev)
  exact hfold {} ⟨OrderedMap.keyed_empty _, OrderedMap.keyed_empty _⟩

/-! ## Aggregates keep the view -/

/-- The aggregates stand for a view. -/
structure Aggregates.Shows (a : Aggregates) (v : View) : Prop where
  found : OrderedMap.Represents a.found a.foundOrd v.found
  results : OrderedMap.Represents a.results a.resOrd v.results
  errors : a.genErrs = v.errors
  phase : a.phase = v.phase
  summary : a.summary = v.summary

theorem Aggregates.shows_empty : ({} : Aggregates).Shows {} :=
  ⟨OrderedMap.represents_empty, OrderedMap.represents_empty, rfl, rfl, rfl⟩

/-- Aggregating an event is applying it to the view. -/
theorem Aggregates.Shows.aggregate {a : Aggregates} {v : View} (h : a.Shows v) (ev : Event) :
    (aggregate a ev).Shows (v.apply ev) := by
  unfold Jobs.aggregate View.apply
  cases ev.type with
  | phase =>
    dsimp only
    split
    · exact ⟨OrderedMap.represents_empty, h.results, rfl, rfl, h.summary⟩
    · exact ⟨h.found, h.results, h.errors, rfl, h.summary⟩
  | resourceFound => exact ⟨h.found.set _ _, h.results, h.errors, h.phase, h.summary⟩
  | generalError =>
    exact ⟨h.found, h.results, congrArg (· ++ [_]) h.errors, h.phase, h.summary⟩
  | resourceDeleted => exact ⟨h.found, h.results.set _ _, h.errors, h.phase, h.summary⟩
  | summary => exact ⟨h.found, h.results, h.errors, h.phase, rfl⟩
  | log =>
    dsimp only
    split
    · exact ⟨h.found, h.results, h.errors, h.phase, h.summary⟩
    · exact h
  | scanProgress => exact ⟨h.found, h.results, h.errors, h.phase, h.summary⟩
  | nukeProgress => exact h
  | fatal => exact h

/-! ## Channels do not matter -/

/-- The job without its channels. -/
def Job.body (j : Job) : Job := { j with chans := [], subs := [], panicked := false }

@[simp] theorem Job.body_drop (j : Job) (i : Nat) : (j.drop i).body = j.body := by
  unfold Job.drop Job.closeChan
  split
  · split <;> rfl
  · rfl

@[simp] theorem Job.body_deliver (ev : Event) (j : Job) (i : Nat) :
    (j.deliver ev i).body = j.body := by
  unfold Job.deliver
  split
  · split
    · rfl
    · split
      · rfl
      · exact j.body_drop i
  · rfl

theorem Job.body_foldl {f : Job → Nat → Job} (hf : ∀ j i, (f j i).body = j.body)
    (j : Job) (is : List Nat) : (is.foldl f j).body = j.body := by
  induction is generalizing j with
  | nil => rfl
  | cons i is ih => exact (ih (f j i)).trans (hf j i)

theorem Job.body_unsubscribe (j : Job) (i : Nat) : (j.unsubscribe i).body = j.body := by
  unfold Job.unsubscribe
  split
  · exact j.body_drop i
  · rfl

theorem Job.body_receive (j : Job) (i : Nat) :
    (((j.receive i).map Prod.snd).getD j).body = j.body := by
  unfold Job.receive
  split <;> rfl

theorem Job.body_publish (j : Job) (ev : Event) (now : Nat) :
    (j.publish ev now).body = (j.record (j.stamp ev now)).body :=
  body_foldl (fun j i => j.body_deliver _ i) _ _

/-- A transition out of a final state changes nothing; another one sets the state, and
the times and the message that go with it. -/
theorem Job.body_setState (j : Job) (s : State) (errMsg : String) (now : Nat) :
    (j.setState s errMsg now).body =
      if j.state.terminal then j.body
      else { j.body with
        state := s
        startedAt := if s = .running then now else j.startedAt
        finishedAt := if s.terminal then now else j.finishedAt
        errMsg := if s.terminal then errMsg else j.errMsg } := by
  unfold Job.setState
  by_cases hj : j.state.terminal
  · rw [if_pos hj, if_pos hj]
  · rw [if_neg hj, if_neg hj]
    by_cases hs : s.terminal
    · simp only [if_pos hs]
      have h := body_foldl body_drop
        { j with state := s, startedAt := if s = .running then now else j.startedAt } j.subs
      exact congrArg (fun b : Job => { b with finishedAt := now, errMsg := errMsg }) h
    · simp only [if_neg hs]
      rfl

theorem Job.setState_state (j : Job) (s : State) (errMsg : String) (now : Nat) :
    (j.setState s errMsg now).state = if j.state.terminal then j.state else s := by
  have hb := congrArg Job.state (j.body_setState s errMsg now)
  split at hb
  · rename_i hj
    rw [if_pos hj]
    exact hb
  · rename_i hj
    rw [if_neg hj]
    exact hb

/-- A job is in a final state after a transition if it was before or is moved to one. -/
theorem Job.setState_terminal (j : Job) (s : State) (errMsg : String) (now : Nat) :
    (j.setState s errMsg now).state.terminal = (j.state.terminal || s.terminal) := by
  rw [setState_state]
  cases hj : j.state.terminal with
  | true => rw [if_pos rfl, hj, Bool.true_or]
  | false => rw [if_neg Bool.false_ne_true, Bool.false_or]

/-- Who a job belongs to and what it does. -/
def Job.identity (j : Job) : String × String × String × Spec :=
  (j.id, j.sessionId, j.accountId, j.spec)

/-- A transition changes neither what was recorded nor who the job belongs to. -/
theorem Job.setState_same (j : Job) (s : State) (errMsg : String) (now : Nat) :
    (j.setState s errMsg now).toAggregates = j.toAggregates ∧
      (j.setState s errMsg now).events = j.events ∧ (j.setState s errMsg now).cancel = j.cancel ∧
      (j.setState s errMsg now).identity = j.identity := by
  have hb := j.body_setState s errMsg now
  split at hb
  · exact ⟨(congrArg (fun b : Job => b.toAggregates) hb :), (congrArg Job.events hb :),
      (congrArg Job.cancel hb :), (congrArg Job.identity hb :)⟩
  · exact ⟨(congrArg (fun b : Job => b.toAggregates) hb :), (congrArg Job.events hb :),
      (congrArg Job.cancel hb :), (congrArg Job.identity hb :)⟩

/-- Only the move to a final state sets the time of the end. -/
theorem Job.setState_finishedAt {j : Job} {s : State} {errMsg : String} {now : Nat}
    (h : (j.setState s errMsg now).finishedAt ≠ 0) :
    j.finishedAt ≠ 0 ∨ (j.setState s errMsg now).state.terminal = true := by
  have hb := congrArg Job.finishedAt (j.body_setState s errMsg now)
  rw [setState_terminal]
  split at hb
  · rename_i hj
    exact .inr (by rw [hj, Bool.true_or])
  · cases hs : s.terminal with
    | true => exact .inr (Bool.or_true _)
    | false =>
      rw [hs] at hb
      have hfin : (j.setState s errMsg now).finishedAt = j.finishedAt := hb
      exact .inl (hfin ▸ h)

/-- Publishing adds an event and leaves the state of the job alone. -/
theorem Job.publish_same (j : Job) (ev : Event) (now : Nat) :
    (j.publish ev now).toAggregates = aggregate j.toAggregates (j.stamp ev now) ∧
      (j.publish ev now).events = j.events ++ [j.stamp ev now] ∧
      (j.publish ev now).state = j.state ∧ (j.publish ev now).finishedAt = j.finishedAt ∧
      (j.publish ev now).cancel = j.cancel ∧ (j.publish ev now).identity = j.identity := by
  have hb := j.body_publish ev now
  exact ⟨(congrArg (fun b : Job => b.toAggregates) hb :), (congrArg Job.events hb :),
    (congrArg Job.state hb :), (congrArg Job.finishedAt hb :), (congrArg Job.cancel hb :),
    (congrArg Job.identity hb :)⟩

/-! ## Runs of a job -/

/-- The critical sections that a job's mutex orders. -/
inductive JobOp
  | publish (ev : Event) (now : Nat)
  | setState (s : State) (errMsg : String) (now : Nat)
  | subscribe (afterSeq : Int)
  | unsubscribe (i : Nat)
  | receive (i : Nat)
  | install

/-- The job after one operation. -/
def Job.step (j : Job) : JobOp → Job
  | .publish ev now => j.publish ev now
  | .setState s errMsg now => j.setState s errMsg now
  | .subscribe afterSeq => j.subscribe afterSeq
  | .unsubscribe i => j.unsubscribe i
  | .receive i => ((j.receive i).map Prod.snd).getD j
  | .install => { j with cancel := true }

/-- The job after a list of operations. -/
def Job.run (j : Job) (ops : List JobOp) : Job := ops.foldl Job.step j

theorem Job.run_append (j : Job) (ops ops' : List JobOp) :
    j.run (ops ++ ops') = (j.run ops).run ops' := List.foldl_append

/-- The events that operations publish, numbered on from a number and each with a time. -/
def stamped (seq : Nat) : List JobOp → List Event
  | [] => []
  | .publish ev now :: ops =>
    { ev with seq := seq + 1, atTime := if ev.atTime = 0 then now else ev.atTime } ::
      stamped (seq + 1) ops
  | .setState _ _ _ :: ops | .subscribe _ :: ops | .unsubscribe _ :: ops | .receive _ :: ops
  | .install :: ops => stamped seq ops

/-- A publication is recorded, and nothing else is. -/
theorem Job.log_step (j : Job) (op : JobOp) :
    (j.step op).events = j.events ++ stamped j.seq [op] ∧
      (j.step op).seq = j.seq + (stamped j.seq [op]).length := by
  have hsame {j' : Job} (hb : j'.body = j.body) :
      j'.events = j.events ++ [] ∧ j'.seq = j.seq + 0 :=
    ⟨(congrArg Job.events hb :).trans (List.append_nil _).symm, (congrArg Job.seq hb :)⟩
  cases op with
  | publish ev now =>
    exact ⟨(j.publish_same ev now).2.1, (congrArg Job.seq (j.body_publish ev now) :)⟩
  | setState s errMsg now =>
    have hb := j.body_setState s errMsg now
    refine ⟨((j.setState_same s errMsg now).2.1).trans (List.append_nil _).symm, ?_⟩
    split at hb <;> exact (congrArg Job.seq hb :)
  | subscribe afterSeq => exact hsame rfl
  | unsubscribe i => exact hsame (j.body_unsubscribe i)
  | receive i => exact hsame (j.body_receive i)
  | install => exact ⟨(List.append_nil _).symm, rfl⟩

/-- The log of a job is what was published, in this order, each event stamped. -/
theorem Job.log_run (j : Job) (ops : List JobOp) :
    (j.run ops).events = j.events ++ stamped j.seq ops := by
  induction ops generalizing j with
  | nil => exact (List.append_nil _).symm
  | cons op ops ih =>
    obtain ⟨hevents, hseq⟩ := j.log_step op
    have hcons : stamped j.seq (op :: ops) =
        stamped j.seq [op] ++ stamped (j.step op).seq ops := by
      rw [hseq]
      cases op <;> rfl
    rw [hcons, ← List.append_assoc, ← hevents]
    exact ih (j.step op)

/-- The recorded events are numbered from one, and the aggregates show them. -/
structure Job.Consistent (j : Job) : Prop where
  shows : j.toAggregates.Shows (viewOf j.events)
  seq_eq : j.seq = j.events.length
  numbered : ∀ i ev, j.events[i]? = some ev → ev.seq = i + 1

theorem newJob_consistent (id sessionId accountId : String) (spec : Spec) (now : Nat) :
    (newJob id sessionId accountId spec now).Consistent :=
  ⟨Aggregates.shows_empty, rfl, by simp [newJob]⟩

theorem Job.Consistent.of_body {j j' : Job} (h : j.Consistent) (hb : j'.body = j.body) :
    j'.Consistent := by
  have ha : j'.toAggregates = j.toAggregates := (congrArg (fun b : Job => b.toAggregates) hb :)
  have he : j'.events = j.events := (congrArg Job.events hb :)
  have hs : j'.seq = j.seq := (congrArg Job.seq hb :)
  exact ⟨by rw [ha, he]; exact h.shows, by rw [hs, he]; exact h.seq_eq,
    by rw [he]; exact h.numbered⟩

theorem Job.Consistent.record {j : Job} (h : j.Consistent) (ev : Event) (now : Nat) :
    (j.record (j.stamp ev now)).Consistent := by
  refine ⟨?_, ?_, fun i ev' hi => ?_⟩
  · have hview : viewOf (j.record (j.stamp ev now)).events =
        (viewOf j.events).apply (j.stamp ev now) := viewOf_append j.events [j.stamp ev now]
    rw [hview]
    exact h.shows.aggregate _
  · simp [Job.record, h.seq_eq]
  · rcases Nat.lt_or_ge i j.events.length with hlt | hge
    · rw [Job.record, List.getElem?_append_left hlt] at hi
      exact h.numbered i ev' hi
    · rw [Job.record, List.getElem?_append_right hge, List.getElem?_singleton] at hi
      obtain ⟨h0, rfl⟩ : i - j.events.length = 0 ∧ j.stamp ev now = ev' := by simpa using hi
      have : j.seq = i := by
        rw [h.seq_eq]
        omega
      exact congrArg (· + 1) this

/-- Each operation keeps the events recorded so far, and with them the consistency. -/
theorem Job.Consistent.step {j : Job} (h : j.Consistent) (op : JobOp) :
    (j.step op).Consistent ∧ j.events <+: (j.step op).events := by
  have hsame {j' : Job} (hb : j'.body = j.body) : j'.Consistent ∧ j.events <+: j'.events := by
    have he : j'.events = j.events := (congrArg Job.events hb :)
    exact ⟨h.of_body hb, he ▸ List.prefix_rfl⟩
  cases op with
  | publish ev now =>
    have hb := j.body_publish ev now
    have he : (j.publish ev now).events = j.events ++ [j.stamp ev now] := (congrArg Job.events hb :)
    exact ⟨(h.record ev now).of_body hb, he ▸ List.prefix_append ..⟩
  | setState s errMsg now =>
    have hb := j.body_setState s errMsg now
    split at hb
    · exact hsame hb
    · have he : (j.setState s errMsg now).events = j.events := (congrArg Job.events hb :)
      have ha : (j.setState s errMsg now).toAggregates = j.toAggregates :=
        (congrArg (fun b : Job => b.toAggregates) hb :)
      have hs : (j.setState s errMsg now).seq = j.seq := (congrArg Job.seq hb :)
      exact ⟨⟨by rw [Job.step, ha, he]; exact h.shows, by rw [Job.step, hs, he]; exact h.seq_eq,
        by rw [Job.step, he]; exact h.numbered⟩, he ▸ List.prefix_rfl⟩
  | subscribe afterSeq => exact hsame rfl
  | unsubscribe i => exact hsame (j.body_unsubscribe i)
  | receive i => exact hsame (j.body_receive i)
  | install => exact ⟨⟨h.shows, h.seq_eq, h.numbered⟩, List.prefix_rfl⟩

/-- Whole runs keep the consistency and the recorded events. -/
theorem Job.Consistent.run {j : Job} (h : j.Consistent) (ops : List JobOp) :
    (j.run ops).Consistent ∧ j.events <+: (j.run ops).events := by
  induction ops generalizing j with
  | nil => exact ⟨h, List.prefix_rfl⟩
  | cons op ops ih =>
    obtain ⟨hs, hp⟩ := h.step op
    obtain ⟨hr, hp'⟩ := ih hs
    exact ⟨hr, hp.trans hp'⟩

/-- A consistent job has a snapshot, and it shows the view of the recorded events. -/
theorem Job.Consistent.snapshot {j : Job} (h : j.Consistent) :
    ∃ s, j.snapshot = some s ∧ s.found = (viewOf j.events).found.values ∧
      s.results = (viewOf j.events).results.values ∧ s.errors = (viewOf j.events).errors ∧
      s.summary = (viewOf j.events).summary ∧ s.phase = (viewOf j.events).phase ∧
      s.lastSeq = j.events.length := by
  unfold Job.snapshot
  rw [h.shows.found.values, h.shows.results.values]
  exact ⟨_, rfl, rfl, rfl, h.shows.errors, h.shows.summary, h.shows.phase, h.seq_eq⟩

/-- The aggregates are what the recorded events add up to. -/
def Job.Aggregated (j : Job) : Prop := j.toAggregates = j.events.foldl aggregate {}

theorem Job.Aggregated.step {j : Job} (h : j.Aggregated) (op : JobOp) : (j.step op).Aggregated := by
  have hsame {j' : Job} (hb : j'.body = j.body) : j'.Aggregated := by
    have ha : j'.toAggregates = j.toAggregates := (congrArg (fun b : Job => b.toAggregates) hb :)
    have he : j'.events = j.events := (congrArg Job.events hb :)
    rw [Aggregated, ha, he]
    exact h
  cases op with
  | publish ev now =>
    obtain ⟨ha, he, -⟩ := j.publish_same ev now
    change (j.publish ev now).toAggregates = (j.publish ev now).events.foldl aggregate {}
    rw [ha, he, List.foldl_append, ← h]
    rfl
  | setState s errMsg now =>
    obtain ⟨ha, he, -⟩ := j.setState_same s errMsg now
    change (j.setState s errMsg now).toAggregates =
      (j.setState s errMsg now).events.foldl aggregate {}
    rw [ha, he]
    exact h
  | subscribe afterSeq => exact hsame rfl
  | unsubscribe i => exact hsame (j.body_unsubscribe i)
  | receive i => exact hsame (j.body_receive i)
  | install => exact h

theorem newJob_aggregated (id sessionId accountId : String) (spec : Spec) (now : Nat) :
    (newJob id sessionId accountId spec now).Aggregated := rfl

theorem Job.Aggregated.run {j : Job} (h : j.Aggregated) (ops : List JobOp) :
    (j.run ops).Aggregated := by
  induction ops generalizing j with
  | nil => exact h
  | cons op ops ih => exact ih (h.step op)

/-! ## What is filed under the keys -/

/-- Found resources are filed under their own keys and have a property. -/
def Filed (P : FoundResource → Prop) (found : PlainMap String FoundResource) : Prop :=
  ∀ key f, found.lookup key = some f → key = f.key ∧ P f

theorem Filed.aggregate {P : FoundResource → Prop} {a : Aggregates} {ev : Event}
    (h : Filed P a.found) (hev : ev.type = .resourceFound → P (foundOf ev)) :
    Filed P (aggregate a ev).found := by
  unfold Jobs.aggregate
  split
  · split
    · intro key f hf
      simp at hf
    · exact h
  · exact h
  · rename_i htype
    intro key f hf
    by_cases hkey : key = ev.key
    · subst hkey
      rw [AList.lookup_insert] at hf
      obtain rfl := Option.some.inj hf
      exact ⟨rfl, hev htype⟩
    · rw [AList.lookup_insert_ne hkey] at hf
      exact h key f hf
  · exact h
  · exact h
  · exact h
  · split
    · exact h
    · exact h
  · exact h
  · exact h

/-- What the recorded finds have, the found resources of a job have. -/
theorem Job.Aggregated.filed {P : FoundResource → Prop} {j : Job} (h : j.Aggregated)
    (hev : ∀ ev ∈ j.events, ev.type = .resourceFound → P (foundOf ev)) : Filed P j.found := by
  have hfold (events : List Event) (hev : ∀ ev ∈ events, ev.type = .resourceFound →
      P (foundOf ev)) (a : Aggregates) (ha : Filed P a.found) :
      Filed P (events.foldl Jobs.aggregate a).found := by
    induction events generalizing a with
    | nil => exact ha
    | cons ev events ih =>
      exact ih (fun ev' hev' => hev ev' (List.mem_cons_of_mem _ hev')) _
        (ha.aggregate (hev ev (List.mem_cons_self ..)))
  have hempty : Filed P ({} : Aggregates).found := by
    intro key f hf
    simp at hf
  rw [congrArg Aggregates.found h]
  exact hfold j.events hev {} hempty

/-- No operation changes who a job belongs to or what it does. -/
theorem Job.identity_step (j : Job) (op : JobOp) : (j.step op).identity = j.identity := by
  cases op with
  | publish ev now => exact (j.publish_same ev now).2.2.2.2.2
  | setState s errMsg now => exact (j.setState_same s errMsg now).2.2.2
  | subscribe afterSeq => rfl
  | unsubscribe i => exact (congrArg Job.identity (j.body_unsubscribe i) :)
  | receive i => exact (congrArg Job.identity (j.body_receive i) :)
  | install => rfl

theorem Job.identity_run (j : Job) (ops : List JobOp) : (j.run ops).identity = j.identity := by
  induction ops generalizing j with
  | nil => rfl
  | cons op ops ih => exact (ih (j.step op)).trans (j.identity_step op)

end Broom.Jobs
