import Broom.Engine.Deleting
import Broom.Service.Server

/-!
# Only confirmed resources

A clean-up's spec is checked once, when its request is accepted, against what a finished
scan found. A finished scan finds nothing more, and no triple with NULs in it shares a key
with one that a scan found, so whatever a worker of the clean-up passes to a nuker is what
was confirmed.
-/

namespace Broom.Service

open Broom.Api Broom.Core Broom.Core.Pool Broom.Engine Broom.Jobs

/-! ## What scans find -/

/-- The names in a found resource have no NUL. -/
def CleanEvent (ev : Event) : Prop :=
  ev.type = .resourceFound → NulFree ev.resourceType ∧ NulFree ev.region ∧ NulFree ev.identifier

/-- The event that a worker's line makes. -/
def Act.published : Act → Option Event
  | .entry _ (.publish ev _) => some ev
  | _ => none

instance : DecidablePred CleanEvent := fun _ => inferInstanceAs (Decidable (_ → _))

/-- Workers report names without NUL. -/
def Act.Clean (act : Act) : Prop :=
  ∀ ev ∈ act.published, CleanEvent ev

instance : DecidablePred Act.Clean := fun act =>
  inferInstanceAs (Decidable (∀ ev ∈ act.published, CleanEvent ev))

/-- Found resources are filed under their keys, and their names have no NUL. -/
def Findings (found : PlainMap String FoundResource) : Prop :=
  ∀ key f, found.lookup key = some f →
    key = f.key ∧ NulFree f.resourceType ∧ NulFree f.region ∧ NulFree f.identifier

theorem findings_aggregate {a : Aggregates} {ev : Event} (h : Findings a.found)
    (hev : CleanEvent ev) : Findings (aggregate a ev).found :=
  Filed.aggregate (P := fun f => NulFree f.resourceType ∧ NulFree f.region ∧ NulFree f.identifier)
    h hev

/-- Reports without NUL keep the findings without NUL. -/
theorem Entry.Moves.findings {e e' : Entry} {a : EntryAct} (h : e.Moves a e')
    (hf : Findings e.job.found) (ha : ∀ ev now, a = .publish ev now → CleanEvent ev) :
    Findings e'.job.found := by
  have hsame {j : Job} (hj : j.toAggregates = e.job.toAggregates) : Findings j.found := by
    rw [hj]
    exact hf
  cases h with
  | setRunning | fail | finish | cancelEarly => exact hsame (e.job.setState_same ..).1
  | publish ev now hstart hw =>
    have hagg := (e.job.publish_same ev now).1
    dsimp only
    rw [hagg]
    exact findings_aggregate hf (ha ev now rfl)
  | watch op hop => exact hsame (congrArg (fun j : Job => j.toAggregates) (body_watch hop e.job) :)
  | _ => exact hf

/-- A scan that succeeded stays as it is. -/
theorem Entry.Moves.succeeded {e e' : Entry} {a : EntryAct} (h : e.Moves a e') (hs : e.Sound)
    (hsucc : e.job.state = .succeeded) :
    e'.job.state = .succeeded ∧ e'.job.toAggregates = e.job.toAggregates := by
  have hset (s : State) (errMsg : String) (now : Nat) :
      (e.job.setState s errMsg now).state = .succeeded ∧
        (e.job.setState s errMsg now).toAggregates = e.job.toAggregates := by
    refine ⟨?_, (e.job.setState_same s errMsg now).1⟩
    rw [Job.setState_state, hsucc]
    rfl
  cases h with
  | setRunning | fail | finish | cancelEarly => exact hset ..
  | publish ev now hstart hw =>
    rw [hs.succeeded hsucc] at hw
    cases hw
  | watch op hop =>
    have hb := body_watch hop e.job
    exact ⟨(congrArg Job.state hb :).trans hsucc, (congrArg (fun j : Job => j.toAggregates) hb :)⟩
  | _ => exact ⟨hsucc, rfl⟩

/-! ## What requests confirm -/

namespace Server

/-- The account of a session. -/
def Account (s : Server) (sid accountId : String) : Prop :=
  ∃ sess, s.sessions sid = some sess ∧ accountId = sess.identity.accountId

/-- A finished scan of a session and what it found. -/
def Scanned (s : Server) (sid : String) (i : Nat) (found : PlainMap String FoundResource) : Prop :=
  ∃ scan, s.entries[i]? = some scan ∧ scan.job.sessionId = sid ∧ scan.job.spec.mode = .scan ∧
    scan.job.state = .succeeded ∧ scan.job.found = found

/-- What a spec was checked for when its request was accepted. -/
def Confirmed (s : Server) (past : List Act) (sid : String) (spec : Engine.Spec) :
    Request → Prop
  | .scan => spec.mode = .scan
  | .nuke body => .createNuke sid body ∈ past ∧ s.Account sid body.confirmAccountId ∧
      ∃ i found, s.Scanned sid i found ∧ ∀ sel ∈ spec.selections,
        sel ∈ body.selections ∧ ∃ f, found.lookup sel.key = some f ∧ f.nukable = true

/-- The request for a clean-up was made, and its account and its scan were checked. -/
def Checked (s : Server) (past : List Act) (c : Checking) : Prop :=
  .createNuke c.sessionId c.body ∈ past ∧ s.Account c.sessionId c.body.confirmAccountId ∧
    ∃ found, s.Scanned c.sessionId c.scan found

/-- Every spec on its way to a worker was checked. -/
structure Vetted (past : List Act) (s : Server) : Prop where
  entries : s.All fun e =>
    e.Sound ∧ Findings e.job.found ∧ s.Confirmed past e.job.sessionId e.job.spec e.request
  checking : ∀ c ∈ s.checking, s.Checked past c
  ready : ∀ r ∈ s.ready, s.Confirmed past r.sessionId r.spec r.request
  authorized : ∀ r ∈ s.authorized, s.Confirmed past r.sessionId r.spec r.request

section

variable {limits : Limits} {s s' : Server} {act : Act}

/-- A session keeps its account. -/
theorem Account.step {sid accountId : String} (h : s.Account sid accountId)
    (hm : s.Moves limits act s') : s'.Account sid accountId := by
  obtain ⟨sess, hsess, rfl⟩ := h
  have hphase {sid' : String} {sess' : Session} (h' : s.sessions sid' = some sess')
      (s₁ : Server) (hs₁ : s₁.sessions = s.sessions) (phase : Phase) :
      (s₁.setPhase sid' sess' phase).Account sid sess.identity.accountId := by
    by_cases hne : sid = sid'
    · subst hne
      obtain rfl := Option.some.inj (hsess.symm.trans h')
      exact ⟨_, Function.update_self .., rfl⟩
    · exact ⟨sess, (Function.update_of_ne hne ..).trans (by rw [hs₁, hsess]), rfl⟩
  cases hm with
  | signIn sid' identity hn =>
    have hne : sid ≠ sid' := by
      rintro rfl
      rw [hsess] at hn
      cases hn
    exact ⟨sess, (Function.update_of_ne hne ..).trans hsess, rfl⟩
  | remove h' hp => exact hphase h' s rfl _
  | close h' hp => exact hphase h' s rfl _
  | collect h' hp hids => exact hphase h' s rfl _
  | readNext h' hp he => exact hphase h' s rfl _
  | cancelNext h' hp heff he hm => exact hphase h' _ rfl _
  | ended h' hp => exact hphase h' s rfl _
  | _ => exact ⟨sess, hsess, rfl⟩

/-- A finished scan finds nothing more. -/
theorem Scanned.step {sid : String} {i : Nat} {found : PlainMap String FoundResource}
    (h : s.Scanned sid i found) (hall : s.All Entry.Sound) (hm : s.Moves limits act s') :
    s'.Scanned sid i found := by
  obtain ⟨scan, hi, hsid, hmode, hsucc, hfound⟩ := h
  obtain ⟨e', hi', rfl | ⟨a, -, hmove⟩⟩ := hm.entry_next hi
  · exact ⟨e', hi', hsid, hmode, hsucc, hfound⟩
  · obtain ⟨hst, hagg⟩ := hmove.succeeded (hall i scan hi) hsucc
    exact ⟨e', hi', hmove.sessionId_eq.trans hsid, by rw [hmove.spec_eq, hmode], hst,
      by rw [hagg, hfound]⟩

theorem Confirmed.step {past : List Act} {sid : String} {spec : Engine.Spec} {request : Request}
    (h : s.Confirmed past sid spec request) (hall : s.All Entry.Sound)
    (hm : s.Moves limits act s') : s'.Confirmed (past ++ [act]) sid spec request := by
  cases request with
  | scan => exact h
  | nuke body =>
    obtain ⟨hmade, hacc, i, found, hscan, hsel⟩ := h
    exact ⟨List.mem_append_left _ hmade, hacc.step hm, i, found, hscan.step hall hm, hsel⟩

theorem Checked.step {past : List Act} {c : Checking} (h : s.Checked past c)
    (hall : s.All Entry.Sound) (hm : s.Moves limits act s') : s'.Checked (past ++ [act]) c := by
  obtain ⟨hmade, hacc, found, hscan⟩ := h
  exact ⟨List.mem_append_left _ hmade, hacc.step hm, found, hscan.step hall hm⟩

/-- A scan that passes the checks of a request is a finished one of its session. -/
theorem scanned_of_checkScan {sid : String} {i : Nat} {e : Entry} (he : s.entries[i]? = some e)
    (hscan : checkScan sid (some e.job) = .ok e.job) : s.Scanned sid i e.job.found := by
  obtain ⟨-, hsid, hmode, hst⟩ := checkScan_ok hscan
  exact ⟨e, he, hsid, hmode, hst, rfl⟩

/-- The selections that pass the checks of a request are confirmed. -/
theorem Checked.confirmed {past : List Act} {c : Checking} {identity : Identity} {scan : Entry}
    {spec : Engine.Spec} (h : s.Checked past c) (he : s.entries[c.scan]? = some scan)
    (hspec : c.body.spec identity scan.job = .ok spec) :
    s.Confirmed past c.sessionId spec (.nuke c.body) := by
  obtain ⟨hmade, hacc, found, scan', hi, hsid, hmode, hst, rfl⟩ := h
  obtain rfl := Option.some.inj (he.symm.trans hi)
  exact ⟨hmade, hacc, c.scan, scan.job.found, ⟨scan, he, hsid, hmode, hst, rfl⟩,
    (spec_ok hspec).2⟩

theorem vetted_init : Vetted [] ({} : Server) :=
  ⟨by simp [Server.All], by simp, by simp, by simp⟩

/-- Only the supervising goroutine publishes. -/
theorem publish_of_effect {i : Nat} {ev : Event} {now : Nat}
    (h : s.effect act = some (i, .publish ev now)) : act = .entry i (.publish ev now) := by
  cases act with
  | entry j a =>
    cases a with
    | publish ev' now' =>
      obtain ⟨rfl, hp⟩ := Prod.mk.inj (Option.some.inj h)
      rw [hp]
    | _ => cases h
  | cancel k now' =>
    obtain ⟨c, -, hc⟩ := Option.map_eq_some_iff.mp h
    cases hc
  | cancelNext sid now' =>
    simp only [effect] at h
    split at h <;> cases h
  | _ => cases h

/-- The jobs of a vetted server are vetted after a step. -/
theorem Vetted.entries_step {past : List Act} (h : s.Vetted past) (hm : s.Moves limits act s')
    (hclean : act.Clean) : s'.All fun e => e.Sound ∧ Findings e.job.found ∧
      s'.Confirmed (past ++ [act]) e.job.sessionId e.job.spec e.request := by
  have hall : s.All Entry.Sound := fun i e hi => (h.entries i e hi).1
  have hstep : s'.All fun e =>
      e.Sound ∧ Findings e.job.found ∧ s.Confirmed past e.job.sessionId e.job.spec e.request := by
    refine h.entries.step hm (fun r hr id now => ?_) ?_
    · refine ⟨sound_entry r id now, fun key f hf => ?_, h.authorized r hr⟩
      rw [Ready.entry, newJob, AList.lookup_empty] at hf
      cases hf
    · rintro i a e e' heff he ⟨hsound, hfind, hconf⟩ hmove
      refine ⟨hsound.step hmove, hmove.findings hfind ?_, ?_⟩
      · rintro ev now rfl
        rw [publish_of_effect heff] at hclean
        exact hclean ev rfl
      · rw [hmove.sessionId_eq, hmove.spec_eq, hmove.request_eq]
        exact hconf
  exact fun i e hi => ⟨(hstep i e hi).1, (hstep i e hi).2.1, (hstep i e hi).2.2.step hall hm⟩

/-- Every step keeps the server vetted. -/
theorem Vetted.step {past : List Act} (h : s.Vetted past) (hm : s.Moves limits act s')
    (hclean : act.Clean) : s'.Vetted (past ++ [act]) := by
  have hall : s.All Entry.Sound := fun i e hi => (h.entries i e hi).1
  have hentries := h.entries_step hm hclean
  have hchecking : ∀ c ∈ s.checking, s'.Checked (past ++ [act]) c :=
    fun c hc => (h.checking c hc).step hall hm
  have hready : ∀ r ∈ s.ready, s'.Confirmed (past ++ [act]) r.sessionId r.spec r.request :=
    fun r hr => (h.ready r hr).step hall hm
  have hauthorized : ∀ r ∈ s.authorized,
      s'.Confirmed (past ++ [act]) r.sessionId r.spec r.request :=
    fun r hr => (h.authorized r hr).step hall hm
  have hmoves := hm
  cases hm with
  | createScan regions resourceTypes olderThan hs =>
    refine ⟨hentries, hchecking, fun r hr => ?_, hauthorized⟩
    rcases List.mem_append.mp hr with hr | hr
    · exact hready r hr
    · obtain rfl := List.mem_singleton.mp hr
      rfl
  | @createNuke sid sess body i e hs hcheck he hscan =>
    refine ⟨hentries, fun c hc => ?_, hready, hauthorized⟩
    rcases List.mem_append.mp hc with hc | hc
    · exact hchecking c hc
    · obtain rfl := List.mem_singleton.mp hc
      have hacc : s.Account sid body.confirmAccountId := ⟨sess, hs, check_ok hcheck⟩
      exact ⟨List.mem_append_right _ (List.mem_singleton_self _), hacc.step hmoves, e.job.found,
        (scanned_of_checkScan he hscan).step hall hmoves⟩
  | unchosen =>
    exact ⟨hentries, fun c hc => hchecking c (List.mem_of_mem_eraseIdx hc), hready, hauthorized⟩
  | @choose k c sess scan spec hk hs he hspec =>
    refine ⟨hentries, fun c hc => hchecking c (List.mem_of_mem_eraseIdx hc), fun r hr => ?_,
      hauthorized⟩
    rcases List.mem_append.mp hr with hr | hr
    · exact hready r hr
    · obtain rfl := List.mem_singleton.mp hr
      have hconf := (h.checking c (List.mem_of_getElem? hk)).confirmed he hspec
      exact hconf.step hall hmoves
  | expired =>
    exact ⟨hentries, hchecking, fun r hr => hready r (List.mem_of_mem_eraseIdx hr), hauthorized⟩
  | credentials hk =>
    refine ⟨hentries, hchecking, fun r hr => hready r (List.mem_of_mem_eraseIdx hr),
      fun r hr => ?_⟩
    rcases List.mem_append.mp hr with hr | hr
    · exact hauthorized r hr
    · obtain rfl := List.mem_singleton.mp hr
      exact hready r (List.mem_of_getElem? hk)
  | admitJob id now hk hcaps =>
    exact ⟨hentries, hchecking, hready, fun r hr => hauthorized r (List.mem_of_mem_eraseIdx hr)⟩
  | refuse =>
    exact ⟨hentries, hchecking, hready, fun r hr => hauthorized r (List.mem_of_mem_eraseIdx hr)⟩
  | _ => exact ⟨hentries, hchecking, hready, hauthorized⟩

end

end Server

/-- Whatever a worker of the server passes to a nuker was confirmed: the session's request that
was accepted as this very clean-up selected it, a succeeded scan of the same session found it
deletable, the request named the session's account, and the worker's rescan listed it. -/
theorem Server.deleted_confirmed {limits : Limits} {as : List Act} {s : Server}
    (hrun : execute (Server.step limits) {} as = some s) (hclean : ∀ act ∈ as, act.Clean)
    {i : Nat} {e : Entry} (hi : s.entries[i]? = some e) {cn : CloudNuke}
    {isGlobal : String → Bool} {now : Int} (x : Deleting cn isGlobal now e.job.spec)
    {c : NukeCall} (hc : c ∈ nukeCalls (acts x.trace)) {id : String} (hid : id ∈ c.batch) :
    ∃ body, e.request = .nuke body ∧ .createNuke e.job.sessionId body ∈ as ∧
      ⟨c.resourceType, c.region, id⟩ ∈ body.selections ∧
      (∃ (j : Nat) (scan : Entry) (f : FoundResource), s.entries[j]? = some scan ∧
        scan.job.sessionId = e.job.sessionId ∧ scan.job.spec.mode = .scan ∧
        scan.job.state = .succeeded ∧
        scan.job.found.lookup (selectionKey c.resourceType c.region id) = some f ∧
        f.resourceType = c.resourceType ∧ f.region = c.region ∧ f.identifier = id ∧
        f.nukable = true) ∧
      (∃ sess, s.sessions e.job.sessionId = some sess ∧
        body.confirmAccountId = sess.identity.accountId) ∧
      ∃ res ∈ x.rescan.account c.region, res.resourceName = c.resourceType ∧
        id ∈ res.resourceIdentifiers := by
  have hvet : Vetted as s := (along_of_forall fun act hact _ => hclean act hact :
      Along (Server.step limits) (fun _ act => act.Clean) {} as).invariant_history hrun Vetted
    vetted_init fun _ _ _ _ hs hact h => h.step (moves_of_step hs) hact
  obtain ⟨-, -, hconf⟩ := hvet.entries i e hi
  obtain ⟨hlisted, sel, hsel, hkey⟩ := x.confirmed hc hid
  cases hreq : e.request with
  | scan =>
    rw [hreq] at hconf
    exact absurd hconf x.mode_ne
  | nuke body =>
    rw [hreq] at hconf
    obtain ⟨hmade, hacc, j, found, ⟨scan, hj, hsid, hmode, hst, rfl⟩, hsels⟩ := hconf
    obtain ⟨hmem, f, hf, hnukable⟩ := hsels sel hsel
    obtain ⟨hfkey, ht, hg, hid⟩ := (hvet.entries j scan hj).2.1 _ f hf
    -- the found resource has no NUL, so neither triple with its key can be another one
    have hfound := Selection.eq_of_key_eq ht hg hid hfkey
    have hcalled := Selection.eq_of_key_eq (s := ⟨c.resourceType, c.region, id⟩) ht hg hid
      (hkey.symm.trans hfkey)
    rw [hkey] at hf
    obtain ⟨hct, hcg, hcid⟩ := Selection.mk.inj hcalled
    refine ⟨body, rfl, hmade, ?_, ⟨j, scan, f, hj, hsid, hmode, hst, hf, hct.symm, hcg.symm,
      hcid.symm, hnukable⟩, hacc, hlisted⟩
    rw [hcalled, ← hfound]
    exact hmem

/-- The request that deletes one topic of the scan. -/
def topicBody : CreateNukeRequest := ⟨"j", "123456789012", [⟨"sns-topic", "us-east-1", "a"⟩]⟩

/-- A scan finds a topic, and the user asks for its deletion. -/
def cleanUp : List Act :=
  admitted ++ [.entry 0 .install, .entry 0 .launch, .entry 0 (.setRunning 2),
    .entry 0 (.publish { type := .resourceFound, resourceType := "sns-topic",
                         region := "us-east-1", identifier := "a" } 3),
    .entry 0 .exit, .entry 0 (.finish none "" 4), .createNuke "s" topicBody, .choose 0,
    .credentials 0, .admitJob 0 "k" 5]

private def deleteSpec : Engine.Spec where
  mode := .nuke
  regions := ["us-east-1"]
  resourceTypes := ["sns-topic"]
  selections := [⟨"sns-topic", "us-east-1", "a"⟩]

private theorem deleteRegions_nulFree : ∀ region ∈ ["us-east-1"], NulFree region := by decide

/-- The rescan lists a second topic beside the confirmed one. -/
private def secondLook : Rescan ["us-east-1"] where
  reports := []
  account := fun _ => [⟨"sns-topic", ["a", "b"], 10⟩]
  failed := ∅
  reports_outcome := by simp
  failed_reported := by simp
  failed_left_out := by simp
  failed_nulFree := by simp
  regions_nulFree := deleteRegions_nulFree
  types_nulFree _ res hres := by
    obtain rfl := List.mem_singleton.mp hres
    decide

/-- The clean-up's worker deletes what it is told to. -/
private noncomputable def deletion : Deleting CloudNuke.standard (fun _ => false) 0 deleteSpec :=
  Deleting.ofRun secondLook
    (NukeSelected.inOrder _ _ _ _ _ fun _ _ batch => (batch.map (⟨·, none⟩), none)) rfl (by decide)

/-- The topic that is deleted was confirmed. -/
theorem cleanUp_confirmed :
    ∃ s e, execute (Server.step ⟨1, 4⟩) {} cleanUp = some s ∧ s.entries[1]? = some e ∧
      e.job.spec = deleteSpec ∧ ∃ body, e.request = .nuke body ∧
        .createNuke e.job.sessionId body ∈ cleanUp ∧
        ⟨"sns-topic", "us-east-1", "a"⟩ ∈ body.selections := by
  obtain ⟨s, hrun, hi⟩ : ∃ s, execute (Server.step ⟨1, 4⟩) {} cleanUp = some s ∧
      s.entries[1]? = some { job := newJob "k" "s" "123456789012" deleteSpec 5,
                             request := .nuke topicBody } := ⟨_, rfl, rfl⟩
  have hcall : (⟨"sns-topic", "us-east-1", ["a"], [⟨"a", none⟩], none⟩ : NukeCall) ∈
      nukeCalls (acts deletion.trace) := by
    decide
  obtain ⟨body, hreq, hmade, hmem, -⟩ := Server.deleted_confirmed hrun (by decide) hi deletion
    hcall (List.mem_singleton_self "a")
  exact ⟨s, _, hrun, hi, rfl, body, hreq, hmade, hmem⟩

end Broom.Service
