import Broom.Web.Tracker

/-!
# Recorded outcomes

Once a final state of a job is stored, and as long as it is not deleted, the stored
record keeps that state. A page that is opened over an earlier history keeps this as long
as no placeholder joins the serial chain behind a final record of the same job; its check
for an existing record and the save that follows are two links, so another writer can come
between them.
-/

namespace Broom.Web

open Broom.Core Broom.Engine

/-! ## The chain -/

/-- The final states on record when the chain has run dry. -/
def Tracker.pending (t : Tracker) : Outcomes :=
  t.chain.foldl (fun settled l => settle l.op settled) t.settled

/-- An operation stores no other state of a job than the final one on record, and no
final state that the server's job does not have. -/
def HistoryOp.Keeps (outcome settled : Outcomes) : HistoryOp → Prop
  | .save e => (∀ s, settled e.id = some s → e.state = .job s) ∧
      ∀ s, e.state = .job s → s.terminal = true → outcome e.id = some s
  | _ => True

/-- Each operation of a chain keeps what is on record when its turn comes. -/
def ChainKeeps (outcome : Outcomes) : Outcomes → List ChainLink → Prop
  | _, [] => True
  | settled, l :: rest => l.op.Keeps outcome settled ∧ ChainKeeps outcome (settle l.op settled) rest

/-- A map of final states says nothing that another does not say. -/
def Outcomes.Within (settled outcome : Outcomes) : Prop :=
  ∀ id s, settled id = some s → outcome id = some s

theorem chainKeeps_append {outcome settled : Outcomes} {chain : List ChainLink} {l : ChainLink} :
    ChainKeeps outcome settled (chain ++ [l]) ↔ ChainKeeps outcome settled chain ∧
      l.op.Keeps outcome (chain.foldl (fun settled l => settle l.op settled) settled) := by
  induction chain generalizing settled with
  | nil => simp [ChainKeeps]
  | cons l' chain ih => simp only [List.cons_append, ChainKeeps, ih, List.foldl_cons, and_assoc]

/-- Saving a record puts its state on record if it is final, and nothing otherwise. -/
theorem settle_save (e : HistoryEntry) (settled : Outcomes) :
    (∃ s, e.state = .job s ∧ s.terminal = true ∧
        settle (.save e) settled = Function.update settled e.id (some s)) ∨
      settle (.save e) settled = settled := by
  cases he : e.state with
  | lost => exact Or.inr (by simp only [settle, he])
  | job s =>
    cases hs : s.terminal with
    | true => exact Or.inl ⟨s, rfl, hs, by simp only [settle, he, hs, if_true]⟩
    | false => exact Or.inr (by simp only [settle, he, hs, if_false, Bool.false_eq_true])

/-- What is put on record is a final state of the server's job. -/
theorem HistoryOp.Keeps.within {outcome settled : Outcomes} {op : HistoryOp}
    (h : op.Keeps outcome settled) (hw : settled.Within outcome) :
    Outcomes.Within (settle op settled) outcome := by
  intro id s hs
  cases op with
  | save e =>
    rcases settle_save e settled with ⟨s', he, hterm, hset⟩ | hset
    · rw [hset] at hs
      by_cases hid : id = e.id
      · subst hid
        rw [Function.update_self, Option.some.injEq] at hs
        exact hs ▸ h.2 s' he hterm
      · rw [Function.update_of_ne hid] at hs
        exact hw id s hs
    · rw [hset] at hs
      exact hw id s hs
  | delete id' =>
    by_cases hid : id = id'
    · subst hid
      simp [settle] at hs
    · rw [settle, Function.update_of_ne hid] at hs
      exact hw id s hs
  | clear => cases hs
  | _ => exact hw id s hs

theorem ChainKeeps.within {outcome settled : Outcomes} {chain : List ChainLink}
    (h : ChainKeeps outcome settled chain) (hw : settled.Within outcome) :
    Outcomes.Within (chain.foldl (fun settled l => settle l.op settled) settled) outcome := by
  induction chain generalizing settled with
  | nil => exact hw
  | cons l chain ih => exact ih h.2 (h.1.within hw)

/-- A job of the server may still reach its final state. -/
theorem ChainKeeps.mono {outcome outcome' settled : Outcomes} {chain : List ChainLink}
    (hout : outcome.Within outcome') (h : ChainKeeps outcome settled chain) :
    ChainKeeps outcome' settled chain := by
  induction chain generalizing settled with
  | nil => trivial
  | cons l chain ih =>
    refine ⟨?_, ih h.2⟩
    cases hop : l.op with
    | save e =>
      have hl := h.1
      rw [hop] at hl
      exact ⟨hl.1, fun s he hterm => hout _ _ (hl.2 s he hterm)⟩
    | _ => trivial

/-! ## The stored list -/

/-- A stored record of a job whose final state is on record has that state. -/
def Tracker.Kept (t : Tracker) : Prop :=
  ∀ e ∈ t.stored, ∀ s, t.settled e.id = some s → e.state = .job s

theorem mem_of_mem_write {all : List HistoryEntry} {e : HistoryEntry} (h : e ∈ write all) :
    e ∈ all := List.mem_of_mem_take h

/-- A stored entry after saving is the saved one or an old one of another job. -/
theorem mem_of_mem_saveHistory {rt : Runtime} {all : List HistoryEntry} {entry e : HistoryEntry}
    (h : e ∈ saveHistory rt all entry) : e = entry ∨ e ∈ all ∧ e.id ≠ entry.id := by
  have hmem := (List.perm_insertionSort _ _).mem_iff.mp (mem_of_mem_write h)
  rcases List.mem_cons.mp hmem with rfl | hmem
  · exact Or.inl rfl
  · exact Or.inr (by simpa using hmem)

/-- An operation that keeps what is on record leaves a list that agrees with it. -/
theorem HistoryOp.Keeps.apply {rt : Runtime} {now : Int} {outcome settled : Outcomes}
    {all : List HistoryEntry} {op : HistoryOp} (h : op.Keeps outcome settled)
    (hall : ∀ e ∈ all, ∀ s, settled e.id = some s → e.state = .job s)
    (hterm : ∀ id s, settled id = some s → s.terminal = true) :
    ∀ e ∈ op.apply rt now all, ∀ s, settle op settled e.id = some s → e.state = .job s := by
  intro e he s hs
  cases op with
  | save entry =>
    rcases settle_save entry settled with ⟨s', hst, -, hset⟩ | hset
    · rw [hset] at hs
      rcases mem_of_mem_saveHistory he with rfl | ⟨hold, hid⟩
      · rw [Function.update_self, Option.some.injEq] at hs
        rw [hst, hs]
      · rw [Function.update_of_ne hid] at hs
        exact hall e hold s hs
    · rw [hset] at hs
      rcases mem_of_mem_saveHistory he with rfl | ⟨hold, -⟩
      · exact h.1 s hs
      · exact hall e hold s hs
  | markLost alive =>
    simp only [HistoryOp.apply, markLostHistory] at he
    split at he
    · obtain ⟨e', he', rfl⟩ := List.mem_map.mp (mem_of_mem_write he)
      split
      · -- an entry that becomes lost was not final
        rename_i hlost
        rw [if_pos hlost] at hs
        have hst := hall e' he' s hs
        simp [isLost, hst, isHistoryTerminal, hterm e'.id s hs] at hlost
      · rename_i hkept
        rw [if_neg hkept] at hs
        exact hall e' he' s hs
    · exact hall e he s hs
  | delete id =>
    obtain ⟨hold, hid⟩ : e ∈ all ∧ e.id ≠ id := by simpa using mem_of_mem_write he
    rw [settle, Function.update_of_ne hid] at hs
    exact hall e hold s hs
  | clear => cases hs
  | get id => exact hall e he s hs
  | list => exact hall e he s hs

/-! ## Earlier histories -/

/-- The state of a record, if it is a final one of the server. -/
def finalState : HistoryState → Option Jobs.State
  | .job s => if s.terminal then some s else none
  | .lost => none

/-- The final states that a stored list has on record. -/
def onRecord (all : List HistoryEntry) : Outcomes :=
  fun id => all.findSome? fun e => if e.id = id then finalState e.state else none

/-- A stored list whose final records tell how the jobs ended, and of which no other record
says anything else. -/
structure Truthful (outcome : Outcomes) (all : List HistoryEntry) : Prop where
  ended : ∀ e ∈ all, ∀ s, e.state = .job s → s.terminal = true → outcome e.id = some s
  alone : ∀ e ∈ all, ∀ s, e.state = .job s → s.terminal = true →
    ∀ e' ∈ all, e'.id = e.id → e'.state = .job s

/-- A tab that has just been opened over the history stored so far: nothing is under way, and
both memo sets are empty. -/
def Tracker.reopened (outcome : Outcomes) (all : List HistoryEntry) : Tracker where
  outcome := outcome
  stored := all
  settled := onRecord all

/-- The final records of the stored list are on record. -/
def Tracker.Noted (t : Tracker) : Prop :=
  ∀ e ∈ t.stored, ∀ s, e.state = .job s → s.terminal = true → t.settled e.id = some s

theorem finalState_eq_some {st : HistoryState} {s : Jobs.State} :
    finalState st = some s ↔ st = .job s ∧ s.terminal = true := by
  cases st with
  | lost => simp [finalState]
  | job s' =>
    simp only [finalState, Option.ite_none_right_eq_some, Option.some.injEq, HistoryState.job.injEq]
    constructor
    · rintro ⟨hterm, rfl⟩
      exact ⟨rfl, hterm⟩
    · rintro ⟨rfl, hterm⟩
      exact ⟨hterm, rfl⟩

/-- What is on record is the state of a stored record. -/
theorem exists_of_onRecord {all : List HistoryEntry} {id : String} {s : Jobs.State}
    (h : onRecord all id = some s) :
    ∃ e ∈ all, e.id = id ∧ e.state = .job s ∧ s.terminal = true := by
  obtain ⟨e, he, hs⟩ := List.exists_of_findSome?_eq_some h
  split at hs
  · exact ⟨e, he, ‹_›, finalState_eq_some.mp hs⟩
  · cases hs

theorem noted_reopened {outcome : Outcomes} {all : List HistoryEntry}
    (h : Truthful outcome all) : (Tracker.reopened outcome all).Noted := by
  intro e he s hs hterm
  change onRecord all e.id = some s
  have hsome : (onRecord all e.id).isSome = true := by
    refine List.findSome?_isSome_iff.mpr ⟨e, he, ?_⟩
    rw [if_pos rfl, finalState_eq_some.mpr ⟨hs, hterm⟩]
    rfl
  obtain ⟨s', hs'⟩ := Option.isSome_iff_exists.mp hsome
  obtain ⟨e', he', hid, hst, hterm'⟩ := exists_of_onRecord hs'
  have hsame := h.alone e he s hs hterm e' he' hid
  rw [hs', HistoryState.job.inj (hst.symm.trans hsame)]

/-- Only the stored list and what is on record matter. -/
theorem Tracker.Noted.congr {t t' : Tracker} (h : t.Noted) (hstored : t'.stored = t.stored)
    (hsettled : t'.settled = t.settled) : t'.Noted := by
  unfold Tracker.Noted
  rw [hstored, hsettled]
  exact h

/-- Whatever an operation stores, it puts on record. -/
theorem Tracker.Noted.apply {rt : Runtime} {now : Int} {t : Tracker} (h : t.Noted)
    (op : HistoryOp) : ∀ e ∈ op.apply rt now t.stored, ∀ s, e.state = .job s →
      s.terminal = true → settle op t.settled e.id = some s := by
  intro e he s hs hterm
  cases op with
  | save entry =>
    rcases mem_of_mem_saveHistory he with rfl | ⟨hold, hid⟩
    · simp only [settle, hs, hterm, if_true, Function.update_self]
    · rcases settle_save entry t.settled with ⟨s', -, -, hset⟩ | hset
      · rw [hset, Function.update_of_ne hid]
        exact h e hold s hs hterm
      · rw [hset]
        exact h e hold s hs hterm
  | markLost alive =>
    simp only [HistoryOp.apply, markLostHistory] at he
    split at he
    · obtain ⟨e', he', rfl⟩ := List.mem_map.mp (mem_of_mem_write he)
      split at hs
      · cases hs
      · rename_i hkept
        rw [if_neg hkept]
        exact h e' he' s hs hterm
    · exact h e he s hs hterm
  | delete id =>
    obtain ⟨hold, hid⟩ : e ∈ t.stored ∧ e.id ≠ id := by simpa using mem_of_mem_write he
    rw [settle, Function.update_of_ne hid]
    exact h e hold s hs hterm
  | clear => cases he
  | get id => exact h e he s hs hterm
  | list => exact h e he s hs hterm

/-! ## The invariant -/

/-- The briefs that `refresh` still has to write placeholders for. -/
def RefreshPc.unfinished : RefreshPc → List JobBrief
  | .live _ rest => rest
  | .checking _ j rest => j :: rest
  | .checked _ j rest _ => j :: rest
  | .saving _ rest => rest
  | _ => []

/-- The briefs of the list that `refresh` works through. -/
def RefreshPc.jobs : RefreshPc → List JobBrief
  | .live jobs _ | .checking jobs _ _ | .checked jobs _ _ _ | .saving jobs _
  | .recording jobs => jobs
  | .idle | .listing | .marking => []

/-- What holds of the activations whatever the chain does. -/
structure Tracker.Waiting (t : Tracker) : Prop where
  unfinished : ∀ j ∈ t.refresh.unfinished, j.state.terminal = false
  listed : ∀ j ∈ t.refresh.jobs, j.state.terminal = true → t.outcome j.id = some j.state
  records : ∀ p ∈ t.records, t.outcome p.1 ≠ none

/-- What holds of the stored list and of the chain whatever the activations do. -/
structure Tracker.Settled (t : Tracker) : Prop where
  kept : t.Kept
  within : Outcomes.Within t.settled t.outcome
  final : ∀ id s, t.outcome id = some s → s.terminal = true
  chain : ChainKeeps t.outcome t.settled t.chain

theorem settled_reopened {outcome : Outcomes} {all : List HistoryEntry}
    (h : Truthful outcome all) (hfinal : ∀ id s, outcome id = some s → s.terminal = true) :
    (Tracker.reopened outcome all).Settled := by
  refine ⟨fun e he s hs => ?_, fun id s hs => ?_, hfinal, trivial⟩
  · obtain ⟨e', he', hid, hst, hterm⟩ := exists_of_onRecord hs
    exact h.alone e' he' s hst hterm e he hid.symm
  · obtain ⟨e', he', rfl, hst, hterm⟩ := exists_of_onRecord hs
    exact h.ended e' he' s hst hterm

theorem waiting_reopened {outcome : Outcomes} {all : List HistoryEntry} :
    (Tracker.reopened outcome all).Waiting :=
  ⟨by simp [Tracker.reopened, RefreshPc.unfinished], by simp [Tracker.reopened, RefreshPc.jobs],
    by simp [Tracker.reopened]⟩

/-- An operation may join the chain if it keeps what will be on record by then. -/
theorem Tracker.Settled.serial {t : Tracker} (h : t.Settled) (op : HistoryOp) (waiter : Waiter)
    (hop : op.Keeps t.outcome t.pending) : (t.serial op waiter).Settled :=
  ⟨h.kept, h.within, h.final, chainKeeps_append.mpr ⟨h.chain, hop⟩⟩

/-- A final record of the server's job may join the chain. -/
theorem Tracker.Settled.keeps_final {t : Tracker} (h : t.Settled) {e : HistoryEntry}
    {s : Jobs.State} (he : e.state = .job s) (hout : t.outcome e.id = some s) :
    (HistoryOp.save e).Keeps t.outcome t.pending := by
  constructor
  · intro s' hs'
    have hpending := h.chain.within h.within e.id s' hs'
    rw [he, Option.some.inj (hout.symm.trans hpending)]
  · intro s' he' _
    obtain rfl : s = s' := by simpa [he] using he'
    exact hout

/-- A placeholder may join the chain if nothing final will be on record by then. -/
theorem keeps_placeholder {outcome pending : Outcomes} {e : HistoryEntry} {s : Jobs.State}
    (he : e.state = .job s) (hs : s.terminal = false) (hnone : pending e.id = none) :
    (HistoryOp.save e).Keeps outcome pending := by
  constructor
  · intro s' hs'
    rw [hnone] at hs'
    cases hs'
  · intro s' he' hterm
    obtain rfl : s = s' := by simpa [he] using he'
    rw [hs] at hterm
    cases hterm

/-- A job of the server reaches a final state. -/
theorem Tracker.Settled.finish {t : Tracker} (h : t.Settled) {id : String} {s : Jobs.State}
    (hterm : s.terminal = true) (hnone : t.outcome id = none) :
    Tracker.Settled { t with outcome := Function.update t.outcome id (some s) } := by
  have hout : Outcomes.Within t.outcome (Function.update t.outcome id (some s)) := by
    intro id' s' hs'
    by_cases hid : id' = id
    · subst hid
      rw [hnone] at hs'
      cases hs'
    · rwa [Function.update_of_ne hid]
  refine ⟨h.kept, fun id' s' hs' => hout id' s' (h.within id' s' hs'), ?_, h.chain.mono hout⟩
  dsimp only
  intro id' s' hs'
  by_cases hid : id' = id
  · subst hid
    rw [Function.update_self, Option.some.injEq] at hs'
    exact hs' ▸ hterm
  · rw [Function.update_of_ne hid] at hs'
    exact h.final id' s' hs'

/-- The first link of the chain is done. -/
theorem Tracker.Settled.link {rt : Runtime} {now : Int} {t : Tracker} (h : t.Settled)
    {l : ChainLink} {rest : List ChainLink} (hchain : t.chain = l :: rest) :
    Tracker.Settled { t with
      chain := rest
      stored := l.op.apply rt now t.stored
      settled := settle l.op t.settled } := by
  have hkeeps := h.chain
  rw [hchain] at hkeeps
  refine ⟨?_, hkeeps.1.within h.within, h.final, hkeeps.2⟩
  exact hkeeps.1.apply h.kept fun id s hs => h.final id s (h.within id s hs)

/-- Waking an activation changes neither the list nor the chain. -/
theorem Tracker.Settled.wake {t : Tracker} (h : t.Settled) (existing : Option HistoryEntry)
    (waiter : Waiter) : (t.wake existing waiter).Settled := by
  unfold Tracker.wake
  cases waiter with
  | nobody => exact h
  | record id => exact ⟨h.kept, h.within, h.final, h.chain⟩
  | refresh =>
    cases t.refresh with
    | checking | saving | marking => exact ⟨h.kept, h.within, h.final, h.chain⟩
    | _ => exact h

theorem Tracker.Settled.recordFinished {t : Tracker} (h : t.Settled) (id : String) :
    (t.recordFinished id).Settled := by
  unfold Tracker.recordFinished
  split
  · exact h
  · have hs := h.serial (.get id) (.record id) trivial
    exact ⟨hs.kept, hs.within, hs.final, hs.chain⟩

/-! ## The activations -/

theorem mem_of_mem_filterMap_records {f : String × RecordPc → Option (String × RecordPc)}
    (hf : ∀ p q, f p = some q → q.1 = p.1) {records : List (String × RecordPc)}
    {p : String × RecordPc} (h : p ∈ records.filterMap f) : ∃ q ∈ records, q.1 = p.1 := by
  obtain ⟨q, hq, hfq⟩ := List.mem_filterMap.mp h
  exact ⟨q, hq, (hf q p hfq).symm⟩

theorem Tracker.Waiting.setRecord {t : Tracker} (h : t.Waiting) (id : String)
    (pc : Option RecordPc) : (t.setRecord id pc).Waiting := by
  refine ⟨h.unfinished, h.listed, fun p hp => ?_⟩
  obtain ⟨q, hq, he⟩ := mem_of_mem_filterMap_records (fun p q hpq => by
    split at hpq
    · rename_i hid
      obtain ⟨_, -, rfl⟩ := Option.map_eq_some_iff.mp hpq
      exact hid.symm
    · exact (Option.some.inj hpq) ▸ rfl) hp
  exact he ▸ h.records q hq

theorem Tracker.Waiting.wake {t : Tracker} (h : t.Waiting) (existing : Option HistoryEntry)
    (waiter : Waiter) : (t.wake existing waiter).Waiting := by
  have hu := h.unfinished
  have hl := h.listed
  unfold Tracker.wake
  cases waiter with
  | nobody => exact h
  | record id =>
    refine ⟨hu, hl, fun p hp => ?_⟩
    obtain ⟨q, hq, he⟩ := mem_of_mem_filterMap_records (fun p q hpq => by
      split at hpq
      · obtain ⟨_, -, rfl⟩ := Option.map_eq_some_iff.mp hpq
        rfl
      · exact (Option.some.inj hpq) ▸ rfl) hp
    exact he ▸ h.records q hq
  | refresh =>
    cases hpc : t.refresh with
    | checking jobs j rest =>
      rw [hpc] at hu hl
      exact ⟨hu, hl, h.records⟩
    | saving jobs rest =>
      rw [hpc] at hu hl
      exact ⟨hu, hl, h.records⟩
    | marking => exact ⟨by simp [RefreshPc.unfinished], by simp [RefreshPc.jobs], h.records⟩
    | _ => exact h

theorem Tracker.Waiting.recordFinished {t : Tracker} (h : t.Waiting) {id : String}
    (hid : t.outcome id ≠ none) : (t.recordFinished id).Waiting := by
  unfold Tracker.recordFinished
  split
  · exact h
  · refine ⟨h.unfinished, h.listed, fun p hp => ?_⟩
    rcases List.mem_append.mp hp with hp | hp
    · exact h.records p hp
    · obtain rfl := List.mem_singleton.mp hp
      exact hid

theorem outcome_recordFinished (t : Tracker) (id : String) :
    (t.recordFinished id).outcome = t.outcome := by
  unfold Tracker.recordFinished
  split <;> rfl

theorem outcome_recordAll (t : Tracker) (jobs : List JobBrief) :
    (jobs.foldl (fun t j => t.recordFinished j.id) t).outcome = t.outcome := by
  induction jobs generalizing t with
  | nil => rfl
  | cons j jobs ih => exact (ih _).trans (outcome_recordFinished t j.id)

/-- Beginning to record finished jobs changes neither the list nor the order of saves. -/
theorem Tracker.Settled.recordAll {t : Tracker} (h : t.Settled) (jobs : List JobBrief) :
    (jobs.foldl (fun t j => t.recordFinished j.id) t).Settled := by
  induction jobs generalizing t with
  | nil => exact h
  | cons j jobs ih => exact ih (h.recordFinished j.id)

theorem Tracker.Waiting.recordAll {t : Tracker} (h : t.Waiting) {jobs : List JobBrief}
    (hjobs : ∀ j ∈ jobs, t.outcome j.id ≠ none) :
    (jobs.foldl (fun t j => t.recordFinished j.id) t).Waiting := by
  induction jobs generalizing t with
  | nil => exact h
  | cons j jobs ih =>
    refine ih (h.recordFinished (hjobs j (List.mem_cons_self ..))) ?_
    rw [outcome_recordFinished]
    exact fun k hk => hjobs k (List.mem_cons_of_mem _ hk)

/-! ## Steps -/

/-- The step puts no placeholder of a job behind a final record of it that is stored or
waits in the chain. -/
def PlaceholderFirst (t : Tracker) : TrackerAction → Prop
  | .resume => ∀ jobs j rest, t.refresh = .checked jobs j rest none → t.pending j.id = none
  | .sync job => job.state.terminal = false → job.id ∉ t.seen → t.pending job.id = none
  | _ => True

theorem Tracker.Settled.sync {rt : Runtime} {t : Tracker} (h : t.Settled) {job : Job}
    (hpossible : possible t.outcome job.id job.state = true)
    (hfirst : PlaceholderFirst t (.sync job)) : (t.sync rt job).Settled := by
  unfold Tracker.sync
  split
  · rename_i hterm
    dsimp only
    split
    · exact ⟨h.kept, h.within, h.final, h.chain⟩
    · have hout : t.outcome job.id = some job.state := by
        simpa [possible, hterm] using hpossible
      have hs := h.serial (.save (toHistory job)) .nobody (h.keeps_final rfl hout)
      exact ⟨hs.kept, hs.within, hs.final, hs.chain⟩
  · rename_i hterm
    have hterm : job.state.terminal = false := by simpa using hterm
    dsimp only
    split
    · exact ⟨h.kept, h.within, h.final, h.chain⟩
    · rename_i hseen
      have hs := h.serial (.save (toHistory job)) .nobody
        (keeps_placeholder rfl hterm (hfirst hterm hseen))
      exact ⟨hs.kept, hs.within, hs.final, hs.chain⟩

theorem Tracker.Waiting.sync {rt : Runtime} {t : Tracker} (h : t.Waiting) (job : Job) :
    (t.sync rt job).Waiting := by
  unfold Tracker.sync
  split <;> dsimp only <;> split <;> exact ⟨h.unfinished, h.listed, h.records⟩

/-- A job of the server reaches its final state once. -/
theorem Tracker.Waiting.finish {t : Tracker} (h : t.Waiting) {id : String} {s : Jobs.State}
    (hnone : t.outcome id = none) :
    Tracker.Waiting { t with outcome := Function.update t.outcome id (some s) } := by
  have hkeep (id' : String) (s' : Jobs.State) (hs' : t.outcome id' = some s') :
      Function.update t.outcome id (some s) id' = some s' := by
    rw [Function.update_of_ne, hs']
    rintro rfl
    rw [hnone] at hs'
    cases hs'
  refine ⟨h.unfinished, fun j hj hj' => hkeep j.id j.state (h.listed j hj hj'), fun p hp => ?_⟩
  obtain ⟨s', hs'⟩ := Option.ne_none_iff_exists'.mp (h.records p hp)
  exact Option.ne_none_iff_exists'.mpr ⟨s', hkeep p.1 s' hs'⟩

/-- The loop has ended, and the finished jobs of the list are recorded. -/
theorem Tracker.Waiting.recordListed {t : Tracker} (h : t.Waiting) {jobs : List JobBrief}
    (hjobs : t.refresh = .live jobs []) :
    Tracker.Waiting { (jobs.filter fun j => j.state.terminal).foldl
        (fun t j => t.recordFinished j.id) t with refresh := .recording jobs } := by
  have hl := h.listed
  rw [hjobs] at hl
  have hfinal : ∀ j ∈ jobs.filter fun j => j.state.terminal, t.outcome j.id ≠ none := by
    intro j hj
    obtain ⟨hmem, hterm⟩ := List.mem_filter.mp hj
    rw [hl j hmem hterm]
    exact Option.some_ne_none _
  have hout := outcome_recordAll t (jobs.filter fun j => j.state.terminal)
  refine ⟨by simp [RefreshPc.unfinished], fun j hj hterm => ?_, (h.recordAll hfinal).records⟩
  exact (congrFun hout j.id).trans (hl j hj hterm)

/-- The activations wait for what is there to be waited for, whatever happens. -/
theorem Tracker.Waiting.step {rt : Runtime} {t t' : Tracker} {a : TrackerAction} (h : t.Waiting)
    (hstep : t.step rt a = some t') : t'.Waiting := by
  have hu := h.unfinished
  have hl := h.listed
  cases Tracker.moves_of_step hstep with
  | finish hterm hnone => exact h.finish hnone
  | refreshBusy => exact h
  | refresh | listFailed | recorded =>
    exact ⟨by simp [RefreshPc.unfinished], by simp [RefreshPc.jobs], h.records⟩
  | listed hpc hpossible hlive =>
    refine ⟨fun j hj => ?_, fun j hj hterm => ?_, h.records⟩
    · rw [RefreshPc.unfinished, hlive] at hj
      simpa using (List.mem_filter.mp hj).2
    · simpa [possible, hterm] using hpossible j hj
  | nextSeen hpc | resumeSave hpc | resumeSkip hpc =>
    -- the loop leaves the first of its briefs
    rw [hpc] at hu hl
    exact ⟨fun k hk => hu k (List.mem_cons_of_mem _ hk), hl, h.records⟩
  | nextCheck hpc hseen =>
    rw [hpc] at hu hl
    exact ⟨hu, hl, h.records⟩
  | nextRecord hpc => exact h.recordListed hpc
  | @resumeRecord id existing hpc => exact h.setRecord id _
  | @fetched job hpc hcur =>
    have hwait : (t.serial (.save (toHistory job)) (.record job.id)).Waiting :=
      ⟨h.unfinished, h.listed, h.records⟩
    exact hwait.setRecord job.id _
  | @fetchFailed id hpc =>
    have hwait := h.setRecord id none
    exact ⟨hwait.unfinished, hwait.listed, hwait.records⟩
  | @sync job hpossible => exact h.sync job
  | @link now l rest hchain =>
    have hwait : Tracker.Waiting { t with
        chain := rest
        stored := l.op.apply rt now t.stored
        settled := settle l.op t.settled } := ⟨h.unfinished, h.listed, h.records⟩
    exact hwait.wake _ _
  | delete | clear | disconnect => exact ⟨h.unfinished, h.listed, h.records⟩

/-- Both invariants together. -/
def Tracker.Inv (t : Tracker) : Prop := t.Settled ∧ t.Waiting

/-- A fetched job that is being recorded has reached its final state. -/
theorem Tracker.Waiting.outcome_of_recordPc {t : Tracker} (h : t.Waiting) {id : String}
    {pc : RecordPc} (hpc : t.recordPc id = some pc) {s : Jobs.State}
    (hcur : current t.outcome id s = true) : t.outcome id = some s := by
  have hne : t.outcome id ≠ none := by
    obtain ⟨p, hp, rfl⟩ : ∃ p ∈ t.records, p.1 = id := by
      obtain ⟨l, l', hl, -⟩ := List.lookup_eq_some_iff.mp hpc
      exact ⟨(id, pc), by rw [hl]; simp, rfl⟩
    exact h.records p hp
  obtain ⟨final, hout⟩ := Option.ne_none_iff_exists'.mp hne
  have hst : s = final := by simpa [current, hout] using hcur
  rw [hout, hst]

/-- Each step that puts no placeholder behind a final record keeps what is on record. -/
theorem Tracker.Inv.settled_step {rt : Runtime} {t t' : Tracker} {a : TrackerAction} (h : t.Inv)
    (hfirst : PlaceholderFirst t a) (hstep : t.step rt a = some t') : t'.Settled := by
  obtain ⟨hs, hw⟩ := h
  cases Tracker.moves_of_step hstep with
  | finish hterm hnone => exact hs.finish hterm hnone
  | refreshBusy => exact hs
  | refresh | listFailed | listed | nextSeen | resumeSkip | resumeRecord | fetchFailed
    | disconnect => exact ⟨hs.kept, hs.within, hs.final, hs.chain⟩
  | @nextCheck jobs rest j hpc hseen =>
    have hser := hs.serial (.get j.id) .refresh trivial
    exact ⟨hser.kept, hser.within, hser.final, hser.chain⟩
  | @nextRecord jobs hpc =>
    have hall := hs.recordAll (jobs.filter fun j => j.state.terminal)
    exact ⟨hall.kept, hall.within, hall.final, hall.chain⟩
  | @resumeSave jobs rest j hpc =>
    -- the placeholder of a job that is not finished, and that has nothing final on record
    have hnone := hfirst jobs j rest hpc
    have hu := hw.unfinished
    rw [hpc] at hu
    have hser := hs.serial (.save (briefToHistory j)) .refresh
      (keeps_placeholder rfl (hu j (List.mem_cons_self ..)) hnone)
    exact ⟨hser.kept, hser.within, hser.final, hser.chain⟩
  | @recorded jobs hpc hrecords =>
    have hser := hs.serial (.markLost (jobs.map JobBrief.id)) .refresh trivial
    exact ⟨hser.kept, hser.within, hser.final, hser.chain⟩
  | @fetched job hpc hcur =>
    have hout := hw.outcome_of_recordPc hpc hcur
    have hser := hs.serial (.save (toHistory job)) (.record job.id) (hs.keeps_final rfl hout)
    exact ⟨hser.kept, hser.within, hser.final, hser.chain⟩
  | sync hpossible => exact hs.sync hpossible hfirst
  | link hchain => exact (hs.link hchain).wake _ _
  | @delete id => exact hs.serial (.delete id) .nobody trivial
  | clear => exact hs.serial .clear .nobody trivial

/-- Each step that puts no placeholder behind a final record keeps the invariants. -/
theorem Tracker.Inv.step {rt : Runtime} {t t' : Tracker} {a : TrackerAction} (h : t.Inv)
    (hfirst : PlaceholderFirst t a) (hstep : t.step rt a = some t') : t'.Inv :=
  ⟨h.settled_step hfirst hstep, h.2.step hstep⟩

/-- Waking an activation leaves the history alone. -/
theorem Tracker.Noted.wake {t : Tracker} (h : t.Noted) (existing : Option HistoryEntry)
    (waiter : Waiter) : (t.wake existing waiter).Noted := by
  unfold Tracker.wake
  cases waiter with
  | nobody => exact h
  | record id => exact h.congr rfl rfl
  | refresh =>
    cases t.refresh with
    | checking | saving | marking => exact h.congr rfl rfl
    | _ => exact h

theorem Tracker.Noted.recordAll {t : Tracker} (h : t.Noted) (jobs : List JobBrief) :
    (jobs.foldl (fun t j => t.recordFinished j.id) t).Noted := by
  induction jobs generalizing t with
  | nil => exact h
  | cons j jobs ih =>
    refine ih ?_
    dsimp only [Tracker.recordFinished]
    split
    · exact h
    · exact h.congr rfl rfl

/-- Every step, in order or not, puts on record what it stores. -/
theorem Tracker.Noted.step {rt : Runtime} {t t' : Tracker} {a : TrackerAction} (h : t.Noted)
    (hstep : t.step rt a = some t') : t'.Noted := by
  cases Tracker.moves_of_step hstep with
  | nextRecord => exact (h.recordAll _).congr rfl rfl
  | sync =>
    unfold Tracker.sync
    split <;> dsimp only <;> split <;> exact h.congr rfl rfl
  | @link now l rest hchain =>
    exact Tracker.Noted.wake (t := { t with
      chain := rest
      stored := l.op.apply rt now t.stored
      settled := settle l.op t.settled }) (h.apply l.op) _ _
  | _ => exact h.congr rfl rfl

/-- What is kept, and on record as the server's jobs ended, is a truthful history. -/
theorem Tracker.Settled.truthful {t : Tracker} (h : t.Settled) (hnoted : t.Noted) :
    Truthful t.outcome t.stored :=
  ⟨fun e he s hs hterm => h.within e.id s (hnoted e he s hs hterm),
    fun e he s hs hterm e' he' hid => h.kept e' he' s (hid ▸ hnoted e he s hs hterm)⟩

/-! ## Runs -/

/-- In a run of a tab that was opened over any truthful history, and that never puts a
placeholder of a job behind a final record of it, every stored record of a job keeps the final
state on record. The history that the run leaves is truthful again. -/
theorem kept_of_placeholderFirst {rt : Runtime} {outcome : Outcomes} {all : List HistoryEntry}
    (hall : Truthful outcome all) (hfinal : ∀ id s, outcome id = some s → s.terminal = true)
    {as : List TrackerAction} {t : Tracker}
    (hrun : execute (Tracker.step rt) (.reopened outcome all) as = some t)
    (hfirst : Along (Tracker.step rt) PlaceholderFirst (.reopened outcome all) as) :
    t.Kept ∧ Truthful t.outcome t.stored := by
  have hinv := hfirst.invariant hrun (fun t => t.Inv ∧ t.Noted)
    ⟨⟨settled_reopened hall hfinal, waiting_reopened⟩, noted_reopened hall⟩
    fun _ _ _ hstep hfirst h => ⟨h.1.step hfirst hstep, h.2.step hstep⟩
  exact ⟨hinv.1.1.kept, hinv.1.1.truthful hinv.2⟩

/-! ## A lost outcome -/

/-- Strings compare by code points, and all dates are one. -/
private def demoRuntime : Runtime where
  localeCompare := compare
  getTime _ := some 1700000000000

/-- A clean-up of one topic in some state. -/
private def cleanup (state : Jobs.State) : Job where
  id := "j"
  mode := .nuke
  state := state
  phase := some "nuke"
  accountId := "1"
  spec := ⟨.nuke, ["us-east-1"], ["sns-topic"], none, none,
    some [⟨"sns-topic", "us-east-1", "a"⟩], none⟩
  createdAt := "2023-11-14T22:13:20Z"
  startedAt := some "2023-11-14T22:13:20Z"
  finishedAt := none
  error := none
  lastSeq := 1
  scanned := 1
  found := []
  results := []
  errors := []
  summary := none
  logTail := none

/-- The history of an earlier visit: a clean-up that succeeded, and one whose end this browser
has not seen. -/
private def earlier : List HistoryEntry :=
  [{ toHistory (cleanup .succeeded) with id := "i" }, toHistory (cleanup .running)]

/-- The server's jobs that have ended by now. -/
private def endedBefore : Outcomes := fun id => if id = "i" then some .succeeded else none

private theorem truthful_earlier : Truthful endedBefore earlier := by
  have hfirst (e : HistoryEntry) (he : e ∈ earlier) (s : Jobs.State) (hs : e.state = .job s)
      (hterm : s.terminal = true) : s = .succeeded ∧ e.id = "i" := by
    rcases List.mem_cons.mp he with rfl | he
    · exact ⟨(HistoryState.job.inj hs).symm, rfl⟩
    · obtain rfl := List.mem_singleton.mp he
      obtain rfl := HistoryState.job.inj hs
      cases hterm
  refine ⟨fun e he s hs hterm => ?_, fun e he s hs hterm e' he' hid => ?_⟩
  · obtain ⟨rfl, hid⟩ := hfirst e he s hs hterm
    rw [hid]
    rfl
  · obtain ⟨rfl, hid'⟩ := hfirst e he s hs hterm
    rcases List.mem_cons.mp he' with rfl | he'
    · rfl
    · obtain rfl := List.mem_singleton.mp he'
      exact absurd (hid.trans hid') (by decide)

private theorem final_endedBefore (id : String) (s : Jobs.State) (h : endedBefore id = some s) :
    s.terminal = true := by
  obtain ⟨-, rfl⟩ := Option.ite_some_none_eq_some.mp h
  rfl

/-- A reloaded page sees the clean-up run and end, and the tracker records it. -/
private def pageRun : List TrackerAction :=
  [.sync (cleanup .running), .link 0, .finish "j" .succeeded, .sync (cleanup .succeeded), .link 0]

theorem pageRun_kept :
    ∃ t, execute (Tracker.step demoRuntime) (.reopened endedBefore earlier) pageRun = some t ∧
      t.Kept ∧ Truthful t.outcome t.stored := by
  have hfirst : Along (Tracker.step demoRuntime) PlaceholderFirst (.reopened endedBefore earlier)
      pageRun :=
    .cons (fun _ _ => rfl) rfl <| .cons trivial rfl <| .cons trivial rfl <|
      .cons (fun hterm => absurd hterm (by decide)) rfl <| .cons trivial rfl trivial
  obtain ⟨t, hrun⟩ : ∃ t, execute (Tracker.step demoRuntime) (.reopened endedBefore earlier)
      pageRun = some t := ⟨_, rfl⟩
  exact ⟨t, hrun, kept_of_placeholderFirst truthful_earlier final_endedBefore hrun hfirst⟩

/-- The tracker finds no entry of a running clean-up, a page saves its outcome, and the
tracker's placeholder follows. -/
private def raceRun : List TrackerAction :=
  [.refresh, .listed [briefOf (cleanup .running)], .next, .finish "j" .succeeded, .link 0,
    .sync (cleanup .succeeded), .resume, .link 0, .link 0]

/-- The placeholder replaces the stored outcome, and does so in the first visit already. -/
theorem raceRun_not_kept :
    ∃ t, execute (Tracker.step demoRuntime) (.reopened (fun _ => none) []) raceRun = some t ∧
      ¬ t.Kept := by
  refine ⟨_, rfl, fun h => ?_⟩
  have hstate := h (briefToHistory (briefOf (cleanup .running))) (List.mem_singleton_self _)
    .succeeded rfl
  exact absurd hstate (by decide)

end Broom.Web
