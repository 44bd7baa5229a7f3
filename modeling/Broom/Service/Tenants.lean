import Broom.Api.Events
import Broom.Jobs.Brief
import Broom.Service.Server
import Mathlib.Data.List.Sort

/-!
# Sessions do not see each other's jobs

Every request about jobs is answered from the jobs of its own session, and changes no
other. Two servers that agree on a session and its jobs give that session the same
answers and agree afterwards.
-/

namespace Broom.Service

open Broom.Api Broom.Core Broom.Engine Broom.Jobs

/-! ## Handlers -/

/-- A request about jobs. -/
inductive JobRequest
  | listJobs
  | getJob (id : String)
  /-- The event stream after a sequence number. -/
  | jobEvents (id : String) (after : Int)
  | cancelJob (id : String)
  | createNuke (body : CreateNukeRequest)
  deriving DecidableEq, Repr

/-- What a request about jobs is answered. -/
inductive Reply
  | error (e : ApiError)
  | jobs (briefs : List Brief)
  /-- A job without a snapshot would be a nil pointer. -/
  | job (snapshot : Option Snapshot)
  /-- The events of the stream, and the closing one. -/
  | events (written : List Event) (done : Option (State × String))
  | state (s : State)
  /-- The request goes on to start a job. -/
  | start (spec : Engine.Spec)
  deriving DecidableEq, Repr

/-- The job with an identifier, and its position. -/
def Server.get (s : Server) (id : String) : Option (Nat × Entry) :=
  (s.find id).bind fun i => (s.entries[i]?).map fun e => (i, e)

/-- The job that a request names, if it is the session's. -/
def Server.jobFor (s : Server) (sid id : String) : Except ApiError (Nat × Entry) :=
  match s.get id with
  | none => throw ⟨404, "job_not_found", "job not found"⟩
  | some (i, e) =>
    if e.job.sessionId ≠ sid then throw ⟨404, "job_not_found", "job not found"⟩
    else return (i, e)

/-- One entry of the server changes. -/
def Server.setEntry (s : Server) (i : Nat) (e : Entry) : Server :=
  { s with entries := s.entries.set i e }

/-- What `ForSession` may return: the session's jobs, newest first. -/
structure Server.ForSession (s : Server) (sid : String) (out : List Entry) : Prop where
  perm : out.Perm (s.entries.filter fun e => e.ownedBy sid)
  newestFirst : out.Pairwise fun e e' => e'.job.createdAt ≤ e.job.createdAt

/-- The job after `Cancel`. -/
def Entry.cancelled (e : Entry) (now : Nat) : Entry :=
  if e.job.cancel then e.cancelCtx
  else { e with job := e.job.setState .cancelled "cancelled before start" now }

def Server.cancelJob (s : Server) (id : String) (now : Nat) : Server :=
  match s.get id with
  | none => s
  | some (i, e) => s.setEntry i (e.cancelled now)

/-- The handler of a cancellation. -/
def Server.handleCancelJob (s : Server) (sid id : String) (now : Nat) : Reply × Server :=
  match s.jobFor sid id with
  | .error err => (.error err, s)
  | .ok (i, e) =>
    let s := s.cancelJob e.job.id now
    (.state (((s.entries[i]?).map fun e => e.job.state).getD e.job.state), s)

def Server.handleGetJob (s : Server) (sid id : String) : Reply :=
  match s.jobFor sid id with
  | .error err => .error err
  | .ok (_, e) => .job e.job.snapshot

/-- The reply of a request for a clean-up, up to the start of its job. -/
def Server.handleNuke (s : Server) (sid : String) (identity : Identity)
    (body : CreateNukeRequest) : Reply :=
  match handleCreateNuke sid identity (fun id => (s.get id).map fun p => p.2.job) body with
  | .error err => .error err
  | .ok spec => .start spec

/-- The answers that a request of a session may get, and the server after it. The order
of a listing is partly open, and so is what happens to a job while its events are
streamed. -/
inductive Server.Answers (s : Server) (sid : String) (identity : Identity) :
    JobRequest → Reply → Server → Prop
  | listJobs {out : List Entry} (h : s.ForSession sid out) :
    Answers s sid identity .listJobs (.jobs (out.map fun e => e.job.brief)) s
  | getJob (id : String) : Answers s sid identity (.getJob id) (s.handleGetJob sid id) s
  | noEvents {id : String} {err : ApiError} (after : Int) (h : s.jobFor sid id = .error err) :
    Answers s sid identity (.jobEvents id after) (.error err) s
  | jobEvents {id : String} {after : Int} {i : Nat} {e : Entry} {τ : List Api.Act} {st : Stream}
      (h : s.jobFor sid id = .ok (i, e))
      (hrun : execute Stream.step (handleJobEvents e.job after) τ = some st) :
    Answers s sid identity (.jobEvents id after) (.events st.written st.done)
      (s.setEntry i { e with job := st.job })
  | cancelJob (id : String) (now : Nat) :
    Answers s sid identity (.cancelJob id) (s.handleCancelJob sid id now).1
      (s.handleCancelJob sid id now).2
  | createNuke (body : CreateNukeRequest) :
    Answers s sid identity (.createNuke body) (s.handleNuke sid identity body) s

/-- What a signed-in session may be answered. -/
def Server.Serves (s : Server) (sid : String) (r : JobRequest) (reply : Reply) (s' : Server) :
    Prop :=
  ∃ sess, s.sessions sid = some sess ∧ s.Answers sid sess.identity r reply s'

/-! ## Agreement -/

/-- Known jobs have different identifiers. -/
def Server.UniqueIds (s : Server) : Prop :=
  s.entries.Pairwise fun e e' => e.listed = true → e'.listed = true → e.job.id ≠ e'.job.id

/-- Two servers agree on a session and its jobs. -/
structure Agree (sid : String) (s₁ s₂ : Server) : Prop where
  session : s₁.sessions sid = s₂.sessions sid
  jobs : ∀ e : Entry, e.ownedBy sid = true → (e ∈ s₁.entries ↔ e ∈ s₂.entries)

/-- The sessions and the jobs of other sessions are as they were. -/
structure Untouched (sid : String) (s s' : Server) : Prop where
  sessions : s'.sessions = s.sessions
  length : s'.entries.length = s.entries.length
  jobs : ∀ (i : Nat) (e : Entry), s.entries[i]? = some e → e.job.sessionId ≠ sid →
    s'.entries[i]? = some e

theorem untouched_refl (sid : String) (s : Server) : Untouched sid s s :=
  ⟨rfl, rfl, fun _ _ h _ => h⟩

theorem ownedBy_iff {e : Entry} {sid : String} :
    e.ownedBy sid = true ↔ e.listed = true ∧ e.job.sessionId = sid := decide_eq_true_iff

namespace Server

variable {s : Server} {sid : String}

theorem UniqueIds.eq (h : s.UniqueIds) {i k : Nat} {e e' : Entry} (hi : s.entries[i]? = some e)
    (hk : s.entries[k]? = some e') (he : e.listed = true) (he' : e'.listed = true)
    (hid : e.job.id = e'.job.id) : i = k := by
  obtain ⟨hilt, rfl⟩ := List.getElem?_eq_some_iff.mp hi
  obtain ⟨hklt, rfl⟩ := List.getElem?_eq_some_iff.mp hk
  rcases Nat.lt_trichotomy i k with hlt | rfl | hlt
  · exact absurd hid (List.pairwise_iff_getElem.mp h i k hilt hklt hlt he he')
  · rfl
  · exact absurd hid.symm (List.pairwise_iff_getElem.mp h k i hklt hilt hlt he' he)

/-- A known job has the identifier it is looked up by. -/
theorem get_some {id : String} {i : Nat} {e : Entry} (h : s.get id = some (i, e)) :
    s.entries[i]? = some e ∧ e.listed = true ∧ e.job.id = id := by
  obtain ⟨i', hfind, hget⟩ := Option.bind_eq_some_iff.mp h
  obtain ⟨e', hi, he⟩ := Option.map_eq_some_iff.mp hget
  obtain ⟨rfl, rfl⟩ := Prod.mk.inj he
  obtain ⟨hlt, hp, -⟩ := List.findIdx?_eq_some_iff_getElem.mp hfind
  obtain ⟨hlt', rfl⟩ := List.getElem?_eq_some_iff.mp hi
  exact ⟨hi, of_decide_eq_true hp⟩

/-- A known job is found under its identifier. -/
theorem UniqueIds.get (h : s.UniqueIds) {i : Nat} {e : Entry} (hi : s.entries[i]? = some e)
    (he : e.listed = true) : s.get e.job.id = some (i, e) := by
  cases hget : s.get e.job.id with
  | none =>
    have hfind : s.find e.job.id = none := by
      cases hfind : s.find e.job.id with
      | none => rfl
      | some k =>
        obtain ⟨hlt, -⟩ := List.findIdx?_eq_some_iff_getElem.mp hfind
        simp [Server.get, hfind, hlt] at hget
    have hall := List.findIdx?_eq_none_iff.mp hfind e (List.mem_of_getElem? hi)
    simp [he] at hall
  | some p =>
    obtain ⟨k, e'⟩ := p
    obtain ⟨hk, he', hid⟩ := get_some hget
    obtain rfl := h.eq hi hk he he' hid.symm
    rw [Option.some.inj (hi.symm.trans hk)]

/-- The session gets only its own jobs. -/
theorem jobFor_ok {id : String} {i : Nat} {e : Entry} (h : s.jobFor sid id = .ok (i, e)) :
    s.get id = some (i, e) ∧ s.entries[i]? = some e ∧ e.ownedBy sid = true ∧ e.job.id = id := by
  unfold jobFor at h
  split at h
  · cases h
  · rename_i i' e' hget
    split at h
    · cases h
    · rename_i hown
      obtain ⟨rfl, rfl⟩ := Prod.mk.inj (Except.ok.inj h)
      obtain ⟨hi, he, hid⟩ := get_some hget
      exact ⟨hget, hi, ownedBy_iff.mpr ⟨he, not_not.mp hown⟩, hid⟩

theorem UniqueIds.jobFor (h : s.UniqueIds) {i : Nat} {e : Entry} (hi : s.entries[i]? = some e)
    (he : e.ownedBy sid = true) : s.jobFor sid e.job.id = .ok (i, e) := by
  obtain ⟨hlisted, hown⟩ := ownedBy_iff.mp he
  simp [Server.jobFor, h.get hi hlisted, hown]
  rfl

/-- Another session's job and no job at all are the same error, for a path and for a scan. -/
theorem jobFor_error {id : String} {err : ApiError} (h : s.jobFor sid id = .error err) :
    err = ⟨404, "job_not_found", "job not found"⟩ ∧
      checkScan sid ((s.get id).map fun p => p.2.job) =
        .error ⟨404, "scan_not_found", "scan job not found for this session"⟩ := by
  unfold jobFor at h
  split at h
  · rename_i hget
    rw [hget]
    exact ⟨(Except.error.inj h).symm, rfl⟩
  · rename_i i e hget
    split at h
    · rename_i hown
      rw [hget]
      refine ⟨(Except.error.inj h).symm, ?_⟩
      simp only [Option.map_some, checkScan, if_pos (Or.inl hown)]
      rfl
    · cases h

/-- A cancelled job is its entry's own matter. -/
theorem handleCancelJob_eq {id : String} {i : Nat} {e : Entry}
    (h : s.jobFor sid id = .ok (i, e)) (now : Nat) : s.handleCancelJob sid id now =
      (.state (e.cancelled now).job.state, s.setEntry i (e.cancelled now)) := by
  obtain ⟨hget, hi, -, rfl⟩ := jobFor_ok h
  obtain ⟨hlt, -⟩ := List.getElem?_eq_some_iff.mp hi
  simp [handleCancelJob, cancelJob, h, hget, setEntry, hlt]

/-- The session's jobs after one of them has changed. -/
theorem UniqueIds.mem_setEntry (h : s.UniqueIds) {i : Nat} {e e' x : Entry}
    (hi : s.entries[i]? = some e) (he : e.listed = true) (hx : x.listed = true) :
    x ∈ (s.setEntry i e').entries ↔ x = e' ∨ x ∈ s.entries ∧ x.job.id ≠ e.job.id := by
  have hlt : i < s.entries.length := (List.getElem?_eq_some_iff.mp hi).1
  constructor
  · intro hmem
    obtain ⟨k, hk⟩ := List.mem_iff_getElem?.mp hmem
    rw [setEntry, List.getElem?_set] at hk
    split at hk
    · exact .inl (Option.some.inj hk).symm
    · rename_i hik
      exact .inr ⟨List.mem_of_getElem? hk, fun hid => hik (h.eq hk hi hx he hid).symm⟩
  · rintro (rfl | ⟨hmem, hid⟩)
    · exact List.mem_set hlt x
    · obtain ⟨k, hk⟩ := List.mem_iff_getElem?.mp hmem
      refine List.mem_iff_getElem?.mpr ⟨k, ?_⟩
      rw [setEntry, List.getElem?_set_ne, hk]
      rintro rfl
      rw [hi] at hk
      exact hid (Option.some.inj hk ▸ rfl)

theorem untouched_setEntry {i : Nat} {e : Entry} (hi : s.entries[i]? = some e)
    (he : e.ownedBy sid = true) (e' : Entry) : Untouched sid s (s.setEntry i e') := by
  refine ⟨rfl, List.length_set, fun k x hk hx => ?_⟩
  rw [setEntry, List.getElem?_set_ne, hk]
  rintro rfl
  rw [hi] at hk
  exact hx (Option.some.inj hk ▸ (ownedBy_iff.mp he).2)

end Server

/-! ## Two servers -/

section agree

variable {sid : String} {s₁ s₂ : Server}

/-- A name means the same job to the session on both servers, or no job. -/
theorem Agree.jobFor (h : Agree sid s₁ s₂) (h₁ : s₁.UniqueIds) (h₂ : s₂.UniqueIds) (id : String) :
    (∃ i₁ i₂ e, s₁.jobFor sid id = .ok (i₁, e) ∧ s₂.jobFor sid id = .ok (i₂, e)) ∨
      ∃ err, s₁.jobFor sid id = .error err ∧ s₂.jobFor sid id = .error err := by
  -- a job that one server finds is found by the other
  have hcross {s s' : Server} (hs' : s'.UniqueIds) (hjobs : ∀ e : Entry, e.ownedBy sid = true →
      e ∈ s.entries → e ∈ s'.entries) {i : Nat} {e : Entry} (hok : s.jobFor sid id = .ok (i, e)) :
      ∃ i', s'.jobFor sid id = .ok (i', e) := by
    obtain ⟨-, hi, hown, rfl⟩ := Server.jobFor_ok hok
    obtain ⟨i', hi'⟩ := List.mem_iff_getElem?.mp (hjobs e hown (List.mem_of_getElem? hi))
    exact ⟨i', hs'.jobFor hi' hown⟩
  rcases hok₁ : s₁.jobFor sid id with err₁ | ⟨i₁, e₁⟩
  · rcases hok₂ : s₂.jobFor sid id with err₂ | ⟨i₂, e₂⟩
    · obtain rfl := (Server.jobFor_error hok₁).1
      obtain rfl := (Server.jobFor_error hok₂).1
      exact .inr ⟨_, rfl, rfl⟩
    · obtain ⟨i', hi'⟩ := hcross h₁ (fun e he => (h.jobs e he).mpr) hok₂
      rw [hok₁] at hi'
      cases hi'
  · obtain ⟨i₂, hi₂⟩ := hcross h₂ (fun e he => (h.jobs e he).mp) hok₁
    exact .inl ⟨i₁, i₂, e₁, rfl, hi₂⟩

/-- The same change to the same job keeps two servers in agreement. -/
theorem Agree.setEntry (h : Agree sid s₁ s₂) (h₁ : s₁.UniqueIds) (h₂ : s₂.UniqueIds)
    {i₁ i₂ : Nat} {e : Entry} (hi₁ : s₁.entries[i₁]? = some e) (hi₂ : s₂.entries[i₂]? = some e)
    (he : e.ownedBy sid = true) (e' : Entry) :
    Agree sid (s₁.setEntry i₁ e') (s₂.setEntry i₂ e') := by
  have hlisted := (ownedBy_iff.mp he).1
  refine ⟨h.session, fun x hx => ?_⟩
  rw [h₁.mem_setEntry hi₁ hlisted (ownedBy_iff.mp hx).1,
    h₂.mem_setEntry hi₂ hlisted (ownedBy_iff.mp hx).1, h.jobs x hx]

/-- Both servers may list the same jobs in the same orders. -/
theorem Agree.forSession (h : Agree sid s₁ s₂) (h₁ : s₁.UniqueIds) (h₂ : s₂.UniqueIds)
    {out : List Entry} (hout : s₁.ForSession sid out) : s₂.ForSession sid out := by
  have hnodup {s : Server} (hs : s.UniqueIds) :
      (s.entries.filter fun e => e.ownedBy sid).Nodup := by
    refine (List.Pairwise.filter _ hs).imp_of_mem fun {e e'} he he' hne heq => ?_
    subst heq
    have hlisted := (ownedBy_iff.mp (List.mem_filter.mp he).2).1
    exact hne hlisted hlisted rfl
  refine ⟨hout.perm.trans ?_, hout.newestFirst⟩
  refine (List.perm_ext_iff_of_nodup (hnodup h₁) (hnodup h₂)).mpr fun e => ?_
  rw [List.mem_filter, List.mem_filter, and_congr_left_iff]
  exact h.jobs e

/-- A clean-up's checks come to the same. -/
theorem Agree.handleNuke (h : Agree sid s₁ s₂) (h₁ : s₁.UniqueIds) (h₂ : s₂.UniqueIds)
    (identity : Identity) (body : CreateNukeRequest) :
    s₁.handleNuke sid identity body = s₂.handleNuke sid identity body := by
  have hscan : checkScan sid ((s₁.get body.scanJobId).map fun p => p.2.job) =
      checkScan sid ((s₂.get body.scanJobId).map fun p => p.2.job) := by
    rcases h.jobFor h₁ h₂ body.scanJobId with ⟨i₁, i₂, e, hok₁, hok₂⟩ | ⟨err, hno₁, hno₂⟩
    · rw [(Server.jobFor_ok hok₁).1, (Server.jobFor_ok hok₂).1]
      rfl
    · rw [(Server.jobFor_error hno₁).2, (Server.jobFor_error hno₂).2]
  unfold Server.handleNuke handleCreateNuke
  rw [hscan]

end agree

/-! ## Requests -/

/-- Streaming does not change who a job belongs to. -/
theorem identity_of_stream {j : Job} {after : Int} {τ : List Api.Act} {st : Stream}
    (h : execute Stream.step (handleJobEvents j after) τ = some st) :
    st.job.identity = j.identity := by
  refine invariant_of_execute h (fun st => st.job.identity = j.identity) rfl
    fun st a st' hstep hid => ?_
  rw [← hid]
  cases Stream.moves_of_step hstep with
  | job op => exact st.job.identity_step op
  | subscribe => exact st.job.identity_step (.subscribe st.lastSeq)
  | @receive ch ev j' hpc hr =>
    have hj := st.job.identity_step (.receive ch)
    rwa [Job.step, hr] at hj
  | @unsubscribe ch => exact st.job.identity_step (.unsubscribe ch)
  | @leave ch => exact st.job.identity_step (.unsubscribe ch)
  | _ => rfl

/-- The request with another identifier in its path or its body. -/
def JobRequest.retarget (r : JobRequest) (id : String) : JobRequest :=
  match r with
  | .listJobs => .listJobs
  | .getJob _ => .getJob id
  | .jobEvents _ after => .jobEvents id after
  | .cancelJob _ => .cancelJob id
  | .createNuke body => .createNuke { body with scanJobId := id }

/-- A request leaves the sessions and the jobs of other sessions alone. -/
theorem Server.Answers.untouched {s s' : Server} {sid : String} {identity : Identity}
    {r : JobRequest} {reply : Reply} (h : s.Answers sid identity r reply s') :
    Untouched sid s s' := by
  cases h with
  | jobEvents hok hrun =>
    obtain ⟨-, hi, hown, -⟩ := jobFor_ok hok
    exact untouched_setEntry hi hown _
  | cancelJob id now =>
    rcases hok : s.jobFor sid id with err | ⟨i, e⟩
    · simp only [handleCancelJob, hok]
      exact untouched_refl sid s
    · obtain ⟨-, hi, hown, -⟩ := jobFor_ok hok
      rw [handleCancelJob_eq hok]
      exact untouched_setEntry hi hown _
  | _ => exact untouched_refl sid s

/-- Servers that agree on a session give it the same answers and agree afterwards. -/
theorem Agree.answers {sid : String} {s₁ s₂ s₁' : Server} {identity : Identity} {r : JobRequest}
    {reply : Reply} (h : Agree sid s₁ s₂) (h₁ : s₁.UniqueIds) (h₂ : s₂.UniqueIds)
    (ha : s₁.Answers sid identity r reply s₁') :
    ∃ s₂', s₂.Answers sid identity r reply s₂' ∧ Agree sid s₁' s₂' := by
  cases ha with
  | listJobs hout => exact ⟨s₂, .listJobs (h.forSession h₁ h₂ hout), h⟩
  | getJob id =>
    have heq : s₁.handleGetJob sid id = s₂.handleGetJob sid id := by
      unfold Server.handleGetJob
      rcases h.jobFor h₁ h₂ id with ⟨i₁, i₂, e, hok₁, hok₂⟩ | ⟨err, hno₁, hno₂⟩
      · rw [hok₁, hok₂]
      · rw [hno₁, hno₂]
    exact ⟨s₂, heq ▸ .getJob id, h⟩
  | @noEvents id err after herr =>
    rcases h.jobFor h₁ h₂ id with ⟨i₁, i₂, e, hok₁, -⟩ | ⟨err', hno₁, hno₂⟩
    · rw [herr] at hok₁
      cases hok₁
    · obtain rfl := Except.error.inj (herr.symm.trans hno₁)
      exact ⟨s₂, .noEvents after hno₂, h⟩
  | @jobEvents id after i e τ st hok hrun =>
    rcases h.jobFor h₁ h₂ id with ⟨i₁, i₂, e', hok₁, hok₂⟩ | ⟨err, hno₁, -⟩
    · obtain ⟨rfl, rfl⟩ := Prod.mk.inj (Except.ok.inj (hok.symm.trans hok₁))
      obtain ⟨-, hi₁, hown, -⟩ := Server.jobFor_ok hok
      obtain ⟨-, hi₂, -, -⟩ := Server.jobFor_ok hok₂
      exact ⟨_, .jobEvents hok₂ hrun, h.setEntry h₁ h₂ hi₁ hi₂ hown _⟩
    · rw [hok] at hno₁
      cases hno₁
  | cancelJob id now =>
    refine ⟨(s₂.handleCancelJob sid id now).2, ?_⟩
    rcases h.jobFor h₁ h₂ id with ⟨i₁, i₂, e, hok₁, hok₂⟩ | ⟨err, hno₁, hno₂⟩
    · obtain ⟨-, hi₁, hown, -⟩ := Server.jobFor_ok hok₁
      obtain ⟨-, hi₂, -, -⟩ := Server.jobFor_ok hok₂
      have hcancel := @Server.Answers.cancelJob s₂ sid identity id now
      rw [Server.handleCancelJob_eq hok₂] at hcancel ⊢
      rw [Server.handleCancelJob_eq hok₁]
      exact ⟨hcancel, h.setEntry h₁ h₂ hi₁ hi₂ hown _⟩
    · have hcancel := @Server.Answers.cancelJob s₂ sid identity id now
      simp only [Server.handleCancelJob, hno₁, hno₂] at hcancel ⊢
      exact ⟨hcancel, h⟩
  | createNuke body => exact ⟨s₂, h.handleNuke h₁ h₂ identity body ▸ .createNuke body, h⟩

/-- What a request is answered depends on its identifier only through the session's job of that
name. -/
theorem Server.Answers.retarget {s s' : Server} {sid id id' : String} {identity : Identity}
    {r : JobRequest} {reply : Reply} {err : ApiError} (hid : s.jobFor sid id = .error err)
    (hid' : s.jobFor sid id' = .error err) (h : s.Answers sid identity (r.retarget id) reply s') :
    s.Answers sid identity (r.retarget id') reply s' := by
  cases r with
  | listJobs => exact h
  | getJob _ =>
    cases h
    have heq : s.handleGetJob sid id = s.handleGetJob sid id' := by
      unfold Server.handleGetJob
      rw [hid, hid']
    exact heq ▸ .getJob id'
  | jobEvents _ after =>
    cases h with
    | noEvents _ herr =>
      obtain rfl := Except.error.inj (herr.symm.trans hid)
      exact .noEvents after hid'
    | jobEvents hok =>
      rw [hid] at hok
      cases hok
  | cancelJob _ =>
    cases h with
    | cancelJob _ now =>
      have heq : s.handleCancelJob sid id now = s.handleCancelJob sid id' now := by
        unfold Server.handleCancelJob
        rw [hid, hid']
      exact heq ▸ .cancelJob id' now
  | createNuke body =>
    cases h
    have heq : s.handleNuke sid identity { body with scanJobId := id } =
        s.handleNuke sid identity { body with scanJobId := id' } := by
      unfold Server.handleNuke handleCreateNuke
      rw [(Server.jobFor_error hid).2, (Server.jobFor_error hid').2]
      rfl
    exact heq ▸ .createNuke _

theorem Server.jobFor_foreign {s : Server} {sid id : String}
    (h : ∀ i e, s.get id = some (i, e) → e.job.sessionId ≠ sid) :
    s.jobFor sid id = .error ⟨404, "job_not_found", "job not found"⟩ := by
  unfold jobFor
  split
  · rfl
  · rename_i i e hget
    rw [if_pos (h i e hget)]
    rfl

theorem Agree.serves {sid : String} {s₁ s₂ s₁' : Server} {r : JobRequest} {reply : Reply}
    (h : Agree sid s₁ s₂) (h₁ : s₁.UniqueIds) (h₂ : s₂.UniqueIds)
    (hs : s₁.Serves sid r reply s₁') : ∃ s₂', s₂.Serves sid r reply s₂' ∧ Agree sid s₁' s₂' := by
  obtain ⟨sess, hsess, ha⟩ := hs
  obtain ⟨s₂', ha', hag⟩ := h.answers h₁ h₂ ha
  exact ⟨s₂', ⟨sess, h.session ▸ hsess, ha'⟩, hag⟩

theorem Agree.symm {sid : String} {s₁ s₂ : Server} (h : Agree sid s₁ s₂) : Agree sid s₂ s₁ :=
  ⟨h.session.symm, fun e he => (h.jobs e he).symm⟩

/-- Two servers that agree on a session and its jobs give each of its requests the same answers,
and agree on the session and its jobs afterwards. No request touches another session or its
jobs. An identifier of another session's job is as good as one that does not exist. -/
theorem sessions_isolated {sid : String} {s₁ s₂ : Server} (h₁ : s₁.UniqueIds)
    (h₂ : s₂.UniqueIds) (hagree : Agree sid s₁ s₂) (r : JobRequest) :
    (∀ reply s₁', s₁.Serves sid r reply s₁' →
      ∃ s₂', s₂.Serves sid r reply s₂' ∧ Agree sid s₁' s₂') ∧
    (∀ reply s₂', s₂.Serves sid r reply s₂' →
      ∃ s₁', s₁.Serves sid r reply s₁' ∧ Agree sid s₁' s₂') ∧
    (∀ reply s₁', s₁.Serves sid r reply s₁' → Untouched sid s₁ s₁') ∧
    ∀ foreign missing i e, s₁.get foreign = some (i, e) → e.job.sessionId ≠ sid →
      s₁.get missing = none → ∀ reply s₁',
        s₁.Serves sid (r.retarget foreign) reply s₁' ↔
          s₁.Serves sid (r.retarget missing) reply s₁' := by
  refine ⟨fun reply s₁' hs => hagree.serves h₁ h₂ hs, fun reply s₂' hs => ?_,
    fun reply s₁' hs => ?_, fun foreign missing i e hget hown hnone reply s₁' => ?_⟩
  · obtain ⟨s₁', hs', hag⟩ := hagree.symm.serves h₂ h₁ hs
    exact ⟨s₁', hs', hag.symm⟩
  · obtain ⟨sess, -, ha⟩ := hs
    exact ha.untouched
  · have hforeign : s₁.jobFor sid foreign = .error ⟨404, "job_not_found", "job not found"⟩ := by
      refine Server.jobFor_foreign fun i' e' hget' => ?_
      rw [hget] at hget'
      exact (Prod.mk.inj (Option.some.inj hget')).2 ▸ hown
    have hmissing : s₁.jobFor sid missing = .error ⟨404, "job_not_found", "job not found"⟩ :=
      Server.jobFor_foreign fun i' e' hget' => by
        rw [hnone] at hget'
        cases hget'
    constructor
    · rintro ⟨sess, hsess, ha⟩
      exact ⟨sess, hsess, .retarget hforeign hmissing ha⟩
    · rintro ⟨sess, hsess, ha⟩
      exact ⟨sess, hsess, .retarget hmissing hforeign ha⟩

/-- A signed-in session gets an answer to every request. -/
theorem Server.exists_serves (s : Server) {sid : String} {sess : Session}
    (h : s.sessions sid = some sess) (r : JobRequest) : ∃ reply s', s.Serves sid r reply s' := by
  suffices hans : ∃ reply s', s.Answers sid sess.identity r reply s' by
    obtain ⟨reply, s', ha⟩ := hans
    exact ⟨reply, s', sess, h, ha⟩
  cases r with
  | listJobs =>
    let newer (e e' : Entry) : Prop := e'.job.createdAt ≤ e.job.createdAt
    have htotal : Std.Total newer := ⟨fun e e' => Nat.le_total ..⟩
    have htrans : IsTrans Entry newer := ⟨fun _ _ _ hab hbc => Nat.le_trans hbc hab⟩
    exact ⟨_, s, .listJobs ⟨List.perm_insertionSort newer _, List.pairwise_insertionSort newer _⟩⟩
  | getJob id => exact ⟨_, _, .getJob id⟩
  | jobEvents id after =>
    rcases hok : s.jobFor sid id with err | ⟨i, e⟩
    · exact ⟨_, _, .noEvents after hok⟩
    · exact ⟨_, _, .jobEvents hok (execute_nil _)⟩
  | cancelJob id => exact ⟨_, _, .cancelJob id 0⟩
  | createNuke body => exact ⟨_, _, .createNuke body⟩

/-! ## Two sessions -/

/-- A session's finished scan. -/
private def scanEntry (id sid : String) (now : Nat) : Entry where
  job := { newJob id sid "1" ⟨.scan, ["us-east-1"], ["sns-topic"], none, "", [], 0⟩ now with
    state := .succeeded }
  request := .scan

/-- Both sessions have a job, and the other one's is newer. -/
private def sharedServer : Server where
  sessions sid := if sid = "a" ∨ sid = "b" then some { identity := { accountId := "1" } } else none
  entries := [scanEntry "ja" "a" 1, scanEntry "jb" "b" 2]

/-- The other session is gone with its job. -/
private def ownServer : Server where
  sessions sid := if sid = "a" then some { identity := { accountId := "1" } } else none
  entries := [scanEntry "ja" "a" 1]

/-- A session that asks for the other's job gets the answer of a server without it. -/
theorem sharedServer_isolated : ∃ s', sharedServer.Serves "a" (.getJob "jb")
    (.error ⟨404, "job_not_found", "job not found"⟩) s' ∧ Agree "a" s' ownServer := by
  have hagree : Agree "a" sharedServer ownServer := by
    refine ⟨rfl, fun e he => ?_⟩
    have hother : e ≠ scanEntry "jb" "b" 2 := by
      rintro rfl
      exact absurd he (by decide)
    simp [sharedServer, ownServer, hother]
  have hshared : sharedServer.UniqueIds := by
    simp [Server.UniqueIds, sharedServer, scanEntry, newJob]
  have hown : ownServer.UniqueIds := by simp [Server.UniqueIds, ownServer]
  obtain ⟨-, hback, -⟩ := sessions_isolated hshared hown hagree (.getJob "jb")
  exact hback _ _ ⟨_, rfl, .getJob "jb"⟩

end Broom.Service
