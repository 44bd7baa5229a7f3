import Broom.Core.Transition
import Broom.Jobs.View
import Mathlib.Data.Finset.Range
import Mathlib.Data.Finset.Filter

/-!
# The store of jobs

The registry of jobs under its lock. Admission looks at the jobs one by one and decides
when it has seen all, and so does the reaper; jobs move on meanwhile, since nobody else
needs the lock for that. A job that was seen running may have ended before the decision,
never the other way round.
-/

namespace Broom.Jobs

open Broom.Core Broom.Engine

/-! ## State -/

/-- A job that was registered; a forgotten one stays here unlisted. -/
structure Stored where
  job : Job
  listed : Bool := true

/-- Why a job was not admitted. -/
inductive AdmitError
  | sessionBusy
  | serverBusy
  deriving DecidableEq, Repr

def AdmitError.text : AdmitError → String
  | .sessionBusy => "another job is still running for this session"
  | .serverBusy => "the server is running its maximum number of jobs"

/-- The settings of a store; a cap of zero is no cap. -/
structure StoreConfig where
  retention : Nat
  perSession : Nat
  global : Nat

/-- Who holds the store's lock, and how far it has come. -/
inductive Holder
  | free
  /-- `Admit` has jobs left to look at, and has counted the unfinished ones so far. -/
  | admitting (sessionId accountId : String) (spec : Spec) (rest : List Nat) (mine all : Nat)
  /-- The reaper, at a time, has jobs left to look at. -/
  | reaping (now : Nat) (rest : List Nat)
  deriving DecidableEq, Repr

/-- The registry. Jobs are named by their position. -/
structure Store where
  clock : Nat
  entries : List Stored := []
  holder : Holder := .free

/-- The positions of the jobs that the store knows. -/
def Store.known (s : Store) : List Nat :=
  (List.range s.entries.length).filter fun i => (s.entries[i]?).any (·.listed)

/-- The answer of `Admit` after its count. -/
def verdict (c : StoreConfig) (mine all : Nat) : Option AdmitError :=
  if 0 < c.perSession ∧ c.perSession ≤ mine then some .sessionBusy
  else if 0 < c.global ∧ c.global ≤ all then some .serverBusy
  else none

/-- `Admit` looks at one job. -/
def lookAt (sessionId : String) (e : Stored) (mine all : Nat) : Nat × Nat :=
  if e.job.state.terminal then (mine, all)
  else (if e.job.sessionId = sessionId then mine + 1 else mine, all + 1)

/-- The reaper looks at one job. -/
def sweepOne (retention now : Nat) (e : Stored) : Stored :=
  if e.job.finishedAt ≠ 0 ∧ e.job.finishedAt + retention < now then { e with listed := false }
  else e

/-! ## Steps -/

/-- What can happen next. -/
inductive StoreAct
  /-- Time passes. -/
  | advance (d : Nat)
  /-- Anyone moves a job to a state: `setState`, `Fail` and `Cancel`. -/
  | setState (i : Nat) (s : State) (errMsg : String)
  /-- `Admit` takes the lock; it will go through the jobs in some order. -/
  | admitJob (sessionId accountId : String) (spec : Spec) (order : List Nat)
  | look
  /-- `Admit` registers its job under a new identifier and returns. -/
  | insert (id : String)
  | refuse (err : AdmitError)
  /-- The reaper takes the lock for a tick of its timer. -/
  | tick (now : Nat) (order : List Nat)
  | sweep
  | unlock

/-- One step. -/
def Store.step (c : StoreConfig) (s : Store) (act : StoreAct) : Option Store :=
  match act, s.holder with
  | .advance d, _ => some { s with clock := s.clock + d }
  | .setState i st errMsg, _ => do
    let e ← s.entries[i]?
    return { s with
      entries := s.entries.set i { e with job := e.job.setState st errMsg s.clock } }
  | .admitJob sessionId accountId spec order, .free =>
    if order.Perm s.known then
      some { s with holder := .admitting sessionId accountId spec order 0 0 }
    else none
  | .look, .admitting sessionId accountId spec (i :: rest) mine all => do
    let e ← s.entries[i]?
    let (mine, all) := lookAt sessionId e mine all
    return { s with holder := .admitting sessionId accountId spec rest mine all }
  | .insert id, .admitting sessionId accountId spec [] mine all =>
    -- identifiers are random, and new
    if verdict c mine all = none ∧ ∀ e ∈ s.entries, e.job.id ≠ id then
      some { s with
        holder := .free
        entries := s.entries ++ [{ job := newJob id sessionId accountId spec s.clock }] }
    else none
  | .refuse err, .admitting _ _ _ [] mine all =>
    if verdict c mine all = some err then some { s with holder := .free } else none
  | .tick now order, .free =>
    if now ≤ s.clock ∧ order.Perm s.known then some { s with holder := .reaping now order }
    else none
  | .sweep, .reaping now (i :: rest) => do
    let e ← s.entries[i]?
    return { s with holder := .reaping now rest
                    entries := s.entries.set i (sweepOne c.retention now e) }
  | .unlock, .reaping _ [] => some { s with holder := .free }
  | _, _ => none

/-- What the steps do. -/
inductive Store.Moves (c : StoreConfig) (s : Store) : StoreAct → Store → Prop
  | advance (d : Nat) : Moves c s (.advance d) { s with clock := s.clock + d }
  | setState {i : Nat} {e : Stored} (st : State) (errMsg : String)
      (he : s.entries[i]? = some e) :
    Moves c s (.setState i st errMsg)
      { s with entries := s.entries.set i { e with job := e.job.setState st errMsg s.clock } }
  | admitJob {order : List Nat} (sessionId accountId : String) (spec : Spec)
      (hfree : s.holder = .free) (horder : order.Perm s.known) :
    Moves c s (.admitJob sessionId accountId spec order)
      { s with holder := .admitting sessionId accountId spec order 0 0 }
  | look {sessionId accountId : String} {spec : Spec} {i : Nat} {rest : List Nat} {mine all : Nat}
      {e : Stored} (hold : s.holder = .admitting sessionId accountId spec (i :: rest) mine all)
      (he : s.entries[i]? = some e) :
    Moves c s .look { s with
      holder := .admitting sessionId accountId spec rest (lookAt sessionId e mine all).1
        (lookAt sessionId e mine all).2 }
  | insert {sessionId accountId : String} {spec : Spec} {mine all : Nat} {id : String}
      (hold : s.holder = .admitting sessionId accountId spec [] mine all)
      (hverdict : verdict c mine all = none) (hnew : ∀ e ∈ s.entries, e.job.id ≠ id) :
    Moves c s (.insert id) { s with
      holder := .free
      entries := s.entries ++ [{ job := newJob id sessionId accountId spec s.clock }] }
  | refuse {sessionId accountId : String} {spec : Spec} {mine all : Nat} {err : AdmitError}
      (hold : s.holder = .admitting sessionId accountId spec [] mine all)
      (hverdict : verdict c mine all = some err) :
    Moves c s (.refuse err) { s with holder := .free }
  | tick {now : Nat} {order : List Nat} (hfree : s.holder = .free) (hnow : now ≤ s.clock)
      (horder : order.Perm s.known) :
    Moves c s (.tick now order) { s with holder := .reaping now order }
  | sweep {now i : Nat} {rest : List Nat} {e : Stored} (hold : s.holder = .reaping now (i :: rest))
      (he : s.entries[i]? = some e) :
    Moves c s .sweep { s with holder := .reaping now rest
                              entries := s.entries.set i (sweepOne c.retention now e) }
  | unlock {now : Nat} (hold : s.holder = .reaping now []) :
    Moves c s .unlock { s with holder := .free }

theorem Store.moves_of_step {c : StoreConfig} {s s' : Store} {act : StoreAct}
    (h : s.step c act = some s') : s.Moves c act s' := by
  unfold Store.step at h
  split at h
  · obtain rfl := Option.some.inj h
    exact .advance _
  · obtain ⟨e, he, h⟩ := Option.bind_eq_some_iff.mp h
    obtain rfl := Option.some.inj h
    exact .setState _ _ he
  · rename_i hold
    obtain ⟨horder, rfl⟩ := Option.ite_some_none_eq_some.mp h
    exact .admitJob _ _ _ hold horder
  · rename_i hold
    obtain ⟨e, he, h⟩ := Option.bind_eq_some_iff.mp h
    obtain rfl := Option.some.inj h
    exact .look hold he
  · rename_i hold
    obtain ⟨⟨hverdict, hnew⟩, rfl⟩ := Option.ite_some_none_eq_some.mp h
    exact .insert hold hverdict hnew
  · rename_i hold
    obtain ⟨hverdict, rfl⟩ := Option.ite_some_none_eq_some.mp h
    exact .refuse hold hverdict
  · rename_i hold
    obtain ⟨⟨hnow, horder⟩, rfl⟩ := Option.ite_some_none_eq_some.mp h
    exact .tick hold hnow horder
  · rename_i hold
    obtain ⟨e, he, h⟩ := Option.bind_eq_some_iff.mp h
    obtain rfl := Option.some.inj h
    exact .sweep hold he
  · rename_i hold
    obtain rfl := Option.some.inj h
    exact .unlock hold
  · cases h

/-! ## Counting -/

/-- The store knows the job, it has not ended, and its session meets a condition. -/
def Stored.unfinished (q : String → Bool) (e : Stored) : Bool :=
  e.listed && !e.job.state.terminal && q e.job.sessionId

/-- The positions of the unfinished jobs in the store whose session meets a condition. -/
def Store.unfinished (s : Store) (q : String → Bool) : Finset Nat :=
  (Finset.range s.entries.length).filter fun i => (s.entries[i]?).any (·.unfinished q)

/-- Those among them that are not left to be looked at. -/
def Store.seen (s : Store) (q : String → Bool) (rest : List Nat) : Finset Nat :=
  (s.unfinished q).filter (· ∉ rest)

section counting

variable {s : Store} {q : String → Bool}

theorem mem_unfinished {i : Nat} :
    i ∈ s.unfinished q ↔ ∃ e, s.entries[i]? = some e ∧ e.unfinished q = true := by
  rw [Store.unfinished, Finset.mem_filter, Finset.mem_range, Option.any_eq_true]
  exact and_iff_right_of_imp fun ⟨e, he, _⟩ => (List.getElem?_eq_some_iff.mp he).1

/-- Ending and forgetting a job start no job. -/
theorem unfinished_set_subset {i : Nat} {e e' : Stored} (he : s.entries[i]? = some e)
    (h : e'.unfinished q = true → e.unfinished q = true) {holder : Holder} :
    Store.unfinished { s with entries := s.entries.set i e', holder := holder } q ⊆
      s.unfinished q := by
  intro k hk
  obtain ⟨x, hx, hun⟩ := mem_unfinished.mp hk
  rw [List.getElem?_set] at hx
  split at hx
  · rename_i hik
    split at hx
    · subst hik
      obtain rfl := Option.some.inj hx
      exact mem_unfinished.mpr ⟨e, he, h hun⟩
    · cases hx
  · exact mem_unfinished.mpr ⟨x, hx, hun⟩

theorem unfinished_setState (e : Stored) (st : State) (errMsg : String) (now : Nat)
    (h : Stored.unfinished q { e with job := e.job.setState st errMsg now } = true) :
    e.unfinished q = true := by
  obtain ⟨-, -, -, hid⟩ := e.job.setState_same st errMsg now
  have hsession : (e.job.setState st errMsg now).sessionId = e.job.sessionId :=
    (congrArg (fun p => p.2.1) hid :)
  simp only [Stored.unfinished, Job.setState_terminal, hsession, Bool.not_or,
    Bool.and_eq_true] at h ⊢
  exact ⟨⟨h.1.1, h.1.2.1⟩, h.2⟩

theorem unfinished_sweepOne {retention now : Nat} {e : Stored}
    (h : (sweepOne retention now e).unfinished q = true) : e.unfinished q = true := by
  unfold sweepOne at h
  split at h
  · simp [Stored.unfinished] at h
  · exact h

/-- Nothing has been looked at when the count starts. -/
theorem seen_of_perm {order : List Nat} (h : order.Perm s.known) : s.seen q order = ∅ := by
  refine Finset.filter_eq_empty_iff.mpr fun i hi hout => hout ?_
  obtain ⟨e, he, hun⟩ := mem_unfinished.mp hi
  rw [h.mem_iff, Store.known, List.mem_filter, List.mem_range]
  refine ⟨(List.getElem?_eq_some_iff.mp he).1, ?_⟩
  rw [he, Option.any_some]
  simp only [Stored.unfinished, Bool.and_eq_true] at hun
  exact hun.1.1

/-- A job that was looked at counts if it has not ended. -/
theorem card_seen_look {i : Nat} {rest : List Nat} {e : Stored} (he : s.entries[i]? = some e) :
    (s.seen q rest).card ≤
      (s.seen q (i :: rest)).card + if e.job.state.terminal = false ∧ q e.job.sessionId then 1
        else 0 := by
  have hsub : s.seen q rest ⊆ insert i (s.seen q (i :: rest)) := by
    intro k hk
    obtain ⟨hun, hrest⟩ := Finset.mem_filter.mp hk
    rw [Finset.mem_insert]
    by_cases hki : k = i
    · exact .inl hki
    · exact .inr (Finset.mem_filter.mpr ⟨hun, by simp [hki, hrest]⟩)
  split
  · exact (Finset.card_le_card hsub).trans (Finset.card_insert_le ..)
  · rename_i hcount
    rw [Nat.add_zero]
    refine Finset.card_le_card fun k hk => ?_
    rcases Finset.mem_insert.mp (hsub hk) with rfl | hmem
    · obtain ⟨e', he', hun⟩ := mem_unfinished.mp (Finset.mem_filter.mp hk).1
      obtain rfl := Option.some.inj (he'.symm.trans he)
      simp only [Stored.unfinished, Bool.and_eq_true, Bool.not_eq_true'] at hun
      exact absurd ⟨hun.1.2, hun.2⟩ hcount
    · exact hmem

theorem seen_nil : s.seen q [] = s.unfinished q := by simp [Store.seen]

/-- A new job is one more at most. -/
theorem unfinished_append_subset (e : Stored) {holder : Holder} :
    Store.unfinished { s with entries := s.entries ++ [e], holder := holder } q ⊆
      if q e.job.sessionId then insert s.entries.length (s.unfinished q) else s.unfinished q := by
  intro k hk
  obtain ⟨x, hx, hun⟩ := mem_unfinished.mp hk
  have hold (h : s.entries[k]? = some x) : k ∈ s.unfinished q := mem_unfinished.mpr ⟨x, h, hun⟩
  rcases Nat.lt_trichotomy k s.entries.length with hlt | rfl | hgt
  · rw [List.getElem?_append_left hlt] at hx
    split
    · exact Finset.mem_insert_of_mem (hold hx)
    · exact hold hx
  · rw [List.getElem?_concat_length] at hx
    obtain rfl := Option.some.inj hx
    simp only [Stored.unfinished, Bool.and_eq_true] at hun
    rw [if_pos hun.2]
    exact Finset.mem_insert_self ..
  · rw [List.getElem?_eq_none (by simp only [List.length_append, List.length_singleton]; omega)]
      at hx
    cases hx

end counting

/-! ## The invariant -/

/-- A job that has an end time is in a final state, and a job that the store has forgotten ended
longer than its retention ago. -/
structure Stored.Sound (c : StoreConfig) (clock : Nat) (e : Stored) : Prop where
  ended : e.job.finishedAt ≠ 0 → e.job.state.terminal = true
  kept : e.listed = false →
    e.job.state.terminal = true ∧ e.job.finishedAt + c.retention < clock

/-- What an admission has counted covers the unfinished jobs that it has looked at. -/
def Store.Counted (s : Store) : Prop :=
  match s.holder with
  | .admitting sessionId _ _ rest mine all =>
    (s.seen (· = sessionId) rest).card ≤ mine ∧ (s.seen (fun _ => true) rest).card ≤ all
  | .free | .reaping _ _ => True

/-- The caps hold, and every job is sound. -/
structure Store.Capped (c : StoreConfig) (s : Store) : Prop where
  session : ∀ sessionId, (s.unfinished (· = sessionId)).card ≤ c.perSession
  global : (s.unfinished fun _ => true).card ≤ c.global
  counted : s.Counted
  reaping : ∀ now rest, s.holder = .reaping now rest → now ≤ s.clock
  sound : ∀ e ∈ s.entries, e.Sound c s.clock

section invariant

variable {c : StoreConfig} {s s' : Store}

theorem Stored.Sound.mono {clock clock' : Nat} {e : Stored} (h : e.Sound c clock)
    (hle : clock ≤ clock') : e.Sound c clock' :=
  ⟨h.ended, fun hl => ⟨(h.kept hl).1, Nat.lt_of_lt_of_le (h.kept hl).2 hle⟩⟩

/-- A forgotten job has ended, so no transition changes it. -/
theorem Stored.Sound.setState {clock : Nat} {e : Stored} (h : e.Sound c clock) (st : State)
    (errMsg : String) (now : Nat) :
    Stored.Sound c clock { e with job := e.job.setState st errMsg now } := by
  refine ⟨fun hfin => ?_, fun hl => ?_⟩
  · rcases Job.setState_finishedAt hfin with hold | hterm
    · rw [Job.setState_terminal, h.ended hold, Bool.true_or]
    · exact hterm
  · obtain ⟨hterm, hlt⟩ := h.kept hl
    have hb := e.job.body_setState st errMsg now
    rw [if_pos hterm] at hb
    have hfin : (e.job.setState st errMsg now).finishedAt = e.job.finishedAt :=
      (congrArg Job.finishedAt hb :)
    exact ⟨by rw [Job.setState_terminal, hterm, Bool.true_or], by rwa [hfin]⟩

theorem Stored.Sound.sweepOne {clock now : Nat} {e : Stored} (h : e.Sound c clock)
    (hnow : now ≤ clock) : (sweepOne c.retention now e).Sound c clock := by
  unfold Jobs.sweepOne
  split
  · rename_i hold
    exact ⟨h.ended, fun _ => ⟨h.ended hold.1, Nat.lt_of_lt_of_le hold.2 hnow⟩⟩
  · exact h

/-- Ending and forgetting jobs keeps what an admission has counted. -/
theorem Store.Counted.set {i : Nat} {e e' : Stored} (h : s.Counted) (he : s.entries[i]? = some e)
    (hun : ∀ q, e'.unfinished q = true → e.unfinished q = true) :
    Store.Counted { s with entries := s.entries.set i e' } := by
  have hle (q : String → Bool) (rest : List Nat) :
      (Store.seen { s with entries := s.entries.set i e' } q rest).card ≤
        (s.seen q rest).card := by
    refine Finset.card_le_card (Finset.filter_subset_filter _ ?_)
    exact @unfinished_set_subset s q i e e' he (hun q) s.holder
  unfold Store.Counted at h ⊢
  cases hold : s.holder with
  | admitting sessionId accountId spec rest mine all =>
    rw [hold] at h
    dsimp only
    exact ⟨(hle _ _).trans h.1, (hle _ _).trans h.2⟩
  | _ => trivial

theorem mem_set_of_forall {P : Stored → Prop} {es : List Stored} {i : Nat} {e' : Stored}
    (h : ∀ e ∈ es, P e) (he' : P e') : ∀ e ∈ es.set i e', P e := by
  intro e he
  rcases List.mem_or_eq_of_mem_set he with hmem | rfl
  · exact h e hmem
  · exact he'

/-- Every step keeps the caps. -/
theorem Store.Capped.step (hp : 0 < c.perSession) (hg : 0 < c.global) {act : StoreAct}
    (h : s.Capped c) (hs : s.step c act = some s') : s'.Capped c := by
  cases moves_of_step hs with
  | advance d =>
    refine ⟨h.session, h.global, h.counted, fun now rest hold => ?_, fun e he => ?_⟩
    · exact (h.reaping now rest hold).trans (Nat.le_add_right ..)
    · exact (h.sound e he).mono (Nat.le_add_right ..)
  | @setState i e st errMsg he =>
    have hun (q : String → Bool) := @unfinished_setState q e st errMsg s.clock
    have hsub (q : String → Bool) := Finset.card_le_card
      (@unfinished_set_subset s q i e _ he (hun q) s.holder)
    refine ⟨fun sid => (hsub _).trans (h.session sid), (hsub _).trans h.global,
      h.counted.set he hun, h.reaping, mem_set_of_forall h.sound ?_⟩
    exact (h.sound e (List.mem_of_getElem? he)).setState st errMsg s.clock
  | @admitJob order sid acc spec hfree horder =>
    refine ⟨h.session, h.global, ?_, nofun, h.sound⟩
    have hseen (q : String → Bool) : (s.seen q order).card ≤ 0 := by
      rw [seen_of_perm horder, Finset.card_empty]
    exact ⟨hseen _, hseen _⟩
  | @look sid acc spec i rest mine all e hold he =>
    refine ⟨h.session, h.global, ?_, nofun, h.sound⟩
    have hcounted := h.counted
    rw [Counted, hold] at hcounted
    have hmine := (@card_seen_look s (· = sid) i rest e he).trans
      (Nat.add_le_add_right hcounted.1 _)
    have hall := (@card_seen_look s (fun _ => true) i rest e he).trans
      (Nat.add_le_add_right hcounted.2 _)
    change (s.seen (· = sid) rest).card ≤ (lookAt sid e mine all).1 ∧
      (s.seen (fun _ => true) rest).card ≤ (lookAt sid e mine all).2
    unfold lookAt
    cases hterm : e.job.state.terminal with
    | true => simpa [hterm] using And.intro hmine hall
    | false =>
      simp only [hterm, decide_eq_true_eq, true_and, if_true, Bool.false_eq_true, if_false]
        at hmine hall ⊢
      refine ⟨?_, hall⟩
      split <;> rename_i hsid
      · rwa [if_pos hsid] at hmine
      · rwa [if_neg hsid] at hmine
  | @insert sid acc spec mine all id hold hverdict hnew =>
    have hcounted := h.counted
    rw [Counted, hold] at hcounted
    simp only [seen_nil] at hcounted
    have hlt : mine < c.perSession ∧ all < c.global := by
      unfold verdict at hverdict
      split at hverdict
      · cases hverdict
      · rename_i hmine
        split at hverdict
        · cases hverdict
        · rename_i hall
          exact ⟨Nat.lt_of_not_le fun hle => hmine ⟨hp, hle⟩,
            Nat.lt_of_not_le fun hle => hall ⟨hg, hle⟩⟩
    have hsub (q : String → Bool) := Finset.card_le_card (@unfinished_append_subset s q
      { job := newJob id sid acc spec s.clock } .free)
    refine ⟨fun sid' => (hsub _).trans ?_, (hsub _).trans ?_, trivial, nofun, fun e he => ?_⟩
    · split <;> rename_i hsid
      · obtain rfl : sid = sid' := of_decide_eq_true hsid
        exact (Finset.card_insert_le ..).trans (Nat.lt_of_le_of_lt hcounted.1 hlt.1)
      · exact h.session sid'
    · rw [if_pos rfl]
      exact (Finset.card_insert_le ..).trans (Nat.lt_of_le_of_lt hcounted.2 hlt.2)
    · rcases List.mem_append.mp he with hold' | hlast
      · exact h.sound e hold'
      · obtain rfl := List.mem_singleton.mp hlast
        exact ⟨fun hfin => absurd rfl hfin, nofun⟩
  | refuse => exact ⟨h.session, h.global, trivial, nofun, h.sound⟩
  | tick hfree hnow horder =>
    refine ⟨h.session, h.global, trivial, fun now' rest hold => ?_, h.sound⟩
    obtain ⟨rfl, -⟩ := Holder.reaping.inj hold
    exact hnow
  | @sweep now i rest e hold he =>
    have hnow := h.reaping now _ hold
    have hsub (q : String → Bool) := Finset.card_le_card (@unfinished_set_subset s q i e
      (sweepOne c.retention now e) he unfinished_sweepOne (.reaping now rest))
    refine ⟨fun sid => (hsub _).trans (h.session sid), (hsub _).trans h.global, trivial,
      fun now' rest' hold' => ?_, mem_set_of_forall h.sound ?_⟩
    · obtain ⟨rfl, -⟩ := Holder.reaping.inj hold'
      exact hnow
    · exact (h.sound e (List.mem_of_getElem? he)).sweepOne hnow
  | unlock => exact ⟨h.session, h.global, trivial, nofun, h.sound⟩

theorem capped_empty (clock : Nat) : Store.Capped c { clock := clock } := by
  have hempty (q : String → Bool) : (Store.unfinished { clock := clock } q).card = 0 := rfl
  exact ⟨fun _ => hempty _ ▸ Nat.zero_le _, hempty _ ▸ Nat.zero_le _, trivial, nofun, by simp⟩

/-! ## Jobs stay -/

/-- Jobs keep their positions. -/
theorem Store.stays_step {act : StoreAct} (hs : s.step c act = some s') {i : Nat} {e : Stored}
    (he : s.entries[i]? = some e) :
    ∃ e', s'.entries[i]? = some e' ∧ e'.job.identity = e.job.identity := by
  have hset {k : Nat} {x x' : Stored} (hx : s.entries[k]? = some x)
      (hid : x'.job.identity = x.job.identity) :
      ∃ e', (s.entries.set k x')[i]? = some e' ∧ e'.job.identity = e.job.identity := by
    rw [List.getElem?_set]
    split
    · rename_i hki
      subst hki
      obtain rfl := Option.some.inj (hx.symm.trans he)
      exact ⟨x', if_pos (List.getElem?_eq_some_iff.mp he).1, hid⟩
    · exact ⟨e, he, rfl⟩
  cases moves_of_step hs with
  | setState st errMsg hx => exact hset hx (Job.setState_same ..).2.2.2
  | insert =>
    exact ⟨e, (List.getElem?_append_left (List.getElem?_eq_some_iff.mp he).1).trans he, rfl⟩
  | @sweep now k rest x hold hx =>
    refine hset hx ?_
    unfold sweepOne
    split <;> rfl
  | _ => exact ⟨e, he, rfl⟩

theorem Store.stays {τ : List StoreAct} (hrun : execute (Store.step c) s τ = some s') {i : Nat}
    {e : Stored} (he : s.entries[i]? = some e) :
    ∃ e', s'.entries[i]? = some e' ∧ e'.job.identity = e.job.identity := by
  refine invariant_of_execute hrun
    (fun t => ∃ e', t.entries[i]? = some e' ∧ e'.job.identity = e.job.identity) ⟨e, he, rfl⟩ ?_
  rintro t act t' hs ⟨e', he', hid⟩
  obtain ⟨e'', he'', hid'⟩ := stays_step hs he'
  exact ⟨e'', he'', hid'.trans hid⟩

/-! ## Refused admissions -/

/-- The steps that do not need the lock. -/
def StoreAct.free : StoreAct → Bool
  | .advance _ | .setState _ _ _ => true
  | .admitJob _ _ _ _ | .look | .insert _ | .refuse _ | .tick _ _ | .sweep | .unlock => false

/-- The steps with which `Admit` returns. -/
def StoreAct.returns : StoreAct → Bool
  | .insert _ | .refuse _ => true
  | .advance _ | .setState _ _ _ | .admitJob _ _ _ _ | .look | .tick _ _ | .sweep | .unlock => false

/-- The store as it is without the lock. -/
def Store.released (s : Store) : Store := { s with holder := .free }

/-- The holder of the lock is admitting a job. -/
def Store.Admitting (s : Store) : Prop :=
  ∃ sessionId accountId spec rest mine all,
    s.holder = .admitting sessionId accountId spec rest mine all

/-- While an admission has not returned, only others change the store. -/
theorem Store.Admitting.step {act : StoreAct} (h : s.Admitting) (hs : s.step c act = some s')
    (hact : act.returns = false) : s'.Admitting ∧
      (if act.free then s.released.step c act = some s'.released
        else s'.released = s.released) := by
  obtain ⟨sid, acc, spec, rest, mine, all, hold⟩ := h
  have hfree (hf : s.holder = .free) : False := by
    rw [hold] at hf
    cases hf
  cases moves_of_step hs with
  | advance d => exact ⟨⟨sid, acc, spec, rest, mine, all, hold⟩, rfl⟩
  | setState st errMsg he =>
    refine ⟨⟨sid, acc, spec, rest, mine, all, hold⟩, ?_⟩
    simp [StoreAct.free, Store.step, released, he]
  | admitJob _ _ _ hf => exact absurd hf hfree
  | look => exact ⟨⟨_, _, _, _, _, _, rfl⟩, rfl⟩
  | insert => cases hact
  | refuse => cases hact
  | tick hf => exact absurd hf hfree
  | sweep hold' =>
    rw [hold] at hold'
    cases hold'
  | unlock hold' =>
    rw [hold] at hold'
    cases hold'

/-- Up to its return, an admission leaves the store to the steps of others. -/
theorem Store.Admitting.run {τ : List StoreAct} (h : s.Admitting)
    (hrun : execute (Store.step c) s τ = some s') (hτ : ∀ act ∈ τ, act.returns = false) :
    s'.Admitting ∧
      execute (Store.step c) s.released (τ.filter StoreAct.free) = some s'.released := by
  induction τ generalizing s with
  | nil =>
    obtain rfl := Option.some.inj hrun
    exact ⟨h, rfl⟩
  | cons act τ ih =>
    obtain ⟨t, ht, hrest⟩ := Option.bind_eq_some_iff.mp hrun
    obtain ⟨hadm, hstep⟩ := h.step ht (hτ act (List.mem_cons_self ..))
    obtain ⟨hadm', hothers⟩ := ih hadm hrest fun a ha => hτ a (List.mem_cons_of_mem _ ha)
    refine ⟨hadm', ?_⟩
    cases hf : act.free with
    | true =>
      rw [hf, if_pos rfl] at hstep
      rw [List.filter_cons_of_pos hf, execute, hstep, Option.bind_some, hothers]
    | false =>
      rw [hf, if_neg Bool.false_ne_true] at hstep
      rw [List.filter_cons_of_neg (by simp [hf]), ← hstep, hothers]

/-- An admission that is refused leaves the store as it is without it. -/
theorem Store.refused {τ : List StoreAct} {sessionId accountId : String} {spec : Spec}
    {order : List Nat} {err : AdmitError} (hτ : ∀ act ∈ τ, act.returns = false)
    (hrun : execute (Store.step c) s
      (.admitJob sessionId accountId spec order :: τ ++ [.refuse err]) = some s') :
    execute (Store.step c) s (τ.filter StoreAct.free) = some s' := by
  rw [List.cons_append] at hrun
  obtain ⟨t, ht, hrest⟩ := Option.bind_eq_some_iff.mp hrun
  rw [execute_append] at hrest
  obtain ⟨t', ht', hrest⟩ := Option.bind_eq_some_iff.mp hrest
  obtain ⟨t'', hlast, hend⟩ := Option.bind_eq_some_iff.mp hrest
  obtain rfl := Option.some.inj hend
  cases moves_of_step ht with
  | admitJob _ _ _ hfree _ =>
    have hs : s = { s with holder := .free } := by rw [← hfree]
    obtain ⟨-, hothers⟩ := Store.Admitting.run ⟨_, _, _, _, _, _, rfl⟩ ht' hτ
    cases moves_of_step hlast with
    | refuse => exact (congrArg (execute (Store.step c) · _) hs).trans hothers

end invariant

/-! ## All runs -/

/-- With both caps set, in every run of a store that starts empty: no session and not the whole
store ever has more unfinished jobs than its cap; a registered job stays in the store until it
has ended and its retention has passed; and an admission that is refused changes nothing. -/
theorem caps_hold {c : StoreConfig} (hp : 0 < c.perSession) (hg : 0 < c.global) {clock : Nat}
    {τ : List StoreAct} {s : Store} (hrun : execute (Store.step c) { clock := clock } τ = some s) :
    (∀ sessionId, (s.unfinished (· = sessionId)).card ≤ c.perSession) ∧
    (s.unfinished fun _ => true).card ≤ c.global ∧
    (∀ τ' s', execute (Store.step c) s τ' = some s' → ∀ (i : Nat) (e : Stored),
      s.entries[i]? = some e → ∃ e', s'.entries[i]? = some e' ∧
        e'.job.identity = e.job.identity ∧ (e'.listed = true ∨
          e'.job.state.terminal = true ∧ e'.job.finishedAt + c.retention < s'.clock)) ∧
    ∀ τ' s' sessionId accountId spec order err, (∀ act ∈ τ', act.returns = false) →
      execute (Store.step c) s (.admitJob sessionId accountId spec order :: τ' ++ [.refuse err]) =
        some s' → execute (Store.step c) s (τ'.filter StoreAct.free) = some s' := by
  have hcapped : s.Capped c := invariant_of_execute hrun (Store.Capped c) (capped_empty clock)
    fun _ _ _ hs h => h.step hp hg hs
  refine ⟨hcapped.session, hcapped.global, fun τ' s' hrun' i e he => ?_,
    fun τ' s' sid acc spec order err hτ hrun' => Store.refused hτ hrun'⟩
  have hcapped' : s'.Capped c := invariant_of_execute hrun' (Store.Capped c) hcapped
    fun _ _ _ hs h => h.step hp hg hs
  obtain ⟨e', he', hid⟩ := Store.stays hrun' he
  refine ⟨e', he', hid, ?_⟩
  cases hl : e'.listed with
  | true => exact .inl rfl
  | false => exact .inr ((hcapped'.sound e' (List.mem_of_getElem? he')).kept hl)

/-- Two requests of one session, with room for one job. -/
private def busyRun : List StoreAct :=
  [.admitJob "a" "1" ⟨.scan, [], [], none, "", [], 0⟩ [], .insert "j",
    .admitJob "a" "1" ⟨.scan, [], [], none, "", [], 0⟩ [0], .look, .refuse .sessionBusy]

/-- The second request is refused and leaves one job. -/
theorem busyRun_capped : ∃ s, execute (Store.step ⟨60, 1, 2⟩) { clock := 1 } busyRun = some s ∧
    (s.unfinished (· = "a")).card ≤ 1 := by
  obtain ⟨s, hs⟩ : ∃ s, execute (Store.step ⟨60, 1, 2⟩) { clock := 1 } busyRun = some s := by
    refine Option.isSome_iff_exists.mp ?_
    decide +kernel
  exact ⟨s, hs, (caps_hold (by decide) (by decide) hs).1 "a"⟩

end Broom.Jobs
