import Broom.Web.Outcome

/-!
# Runs labelled as lost

The tab beside the server and the session's other tabs. The server answers a listing with
the jobs that it holds at that moment, and jobs are created and dropped before and after it.
Marking relies on that answer and, for what it does not list, on how old an entry is by the
browser's clock: a job that was created after the answer is spared as long as it is young.
-/

namespace Broom.Web

open Broom.Core

/-! ## The tab and the server -/

/-- A tab of the session, with the server's jobs. -/
structure Browsing where
  tab : Tracker := {}
  /-- The creation times of all jobs there have ever been. -/
  created : String → Option String := fun _ => none
  /-- The jobs that the server holds for the session. -/
  held : Finset String := ∅
  /-- The jobs that have been created since the server last answered the tab. -/
  since : Finset String := ∅
  /-- The server's answer, as long as it is on its way. -/
  answer : Option (List JobBrief) := none

inductive BrowsingAction
  | create (id createdAt : String)
  /-- The server forgets a job. -/
  | drop (id : String)
  /-- The server answers the tab's listing. -/
  | answer (jobs : List JobBrief)
  /-- Another tab writes the history. -/
  | others (all : List HistoryEntry)
  | tab (a : TrackerAction)

/-- An entry, a job or a brief of a job that there has been. -/
def Dated (created : String → Option String) (id createdAt : String) : Prop :=
  created id = some createdAt

instance (created : String → Option String) (id createdAt : String) :
    Decidable (Dated created id createdAt) := inferInstanceAs (Decidable (_ = _))

/-- The list of jobs has been requested, and has not come. -/
def RefreshPc.isListing : RefreshPc → Bool
  | .listing => true
  | _ => false

/-- What the tab gets from the server is what the server has sent. -/
def Browsing.sends (s : Browsing) : TrackerAction → Bool
  | .listed jobs => s.answer = some jobs
  | .fetched _ job | .sync job => Dated s.created job.id job.createdAt
  | _ => true

/-- The answer on its way after a step of the tab. -/
def TrackerAction.receive (answer : Option (List JobBrief)) :
    TrackerAction → Option (List JobBrief)
  | .listed _ | .listFailed => none
  | _ => answer

section

variable (rt : Runtime)

def Browsing.step (s : Browsing) : BrowsingAction → Option Browsing
  | .create id createdAt =>
    if s.created id = none then
      some { s with
        created := Function.update s.created id (some createdAt)
        held := insert id s.held
        since := insert id s.since }
    else none
  | .drop id => some { s with held := s.held.erase id }
  | .answer jobs =>
    if s.tab.refresh.isListing ∧ s.answer = none ∧ (jobs.map JobBrief.id).toFinset = s.held ∧
        ∀ j ∈ jobs, Dated s.created j.id j.createdAt then
      some { s with answer := some jobs, since := ∅ }
    else none
  | .others all =>
    if all.length ≤ maxHistory ∧ ∀ e ∈ all, Dated s.created e.id e.createdAt then
      some { s with tab := { s.tab with stored := all } }
    else none
  | .tab a =>
    if s.sends a then
      (s.tab.step rt a).map fun t => { s with tab := t, answer := a.receive s.answer }
    else none

/-- Marking changes no entry of a job that the server holds. -/
def Spares (s : Browsing) : BrowsingAction → Prop
  | .tab (.link now) => ∀ alive waiter rest, s.tab.chain = ⟨.markLost alive, waiter⟩ :: rest →
      List.Forall₂ (fun e e' => e.id ∈ s.held → e' = e) s.tab.stored
        (markLostHistory rt s.tab.stored alive now 60000)
  | _ => True

/-- When entries are marked, a job that the server holds, that was created after it answered
the listing and that has an unfinished entry was created, by the server's clock, less than a
minute before what the browser's clock shows. -/
def Young (s : Browsing) : BrowsingAction → Prop
  | .tab (.link now) => ∀ alive waiter rest, s.tab.chain = ⟨.markLost alive, waiter⟩ :: rest →
      ∀ e ∈ s.tab.stored, e.id ∈ s.held → e.id ∈ s.since → isHistoryTerminal e.state = false →
        ∃ createdAt ms, s.created e.id = some createdAt ∧ rt.getTime createdAt = some ms ∧
          now - 60000 < ms
  | _ => True

end

/-! ## What is stored -/

variable {rt : Runtime} {created created' : String → Option String}

theorem length_write_le (all : List HistoryEntry) : (write all).length ≤ maxHistory :=
  List.length_take_le ..

theorem write_eq_self {all : List HistoryEntry} (h : all.length ≤ maxHistory) :
    write all = all := List.take_of_length_le h

/-- Marking takes each entry for itself. -/
theorem markLostHistory_eq {all : List HistoryEntry} (h : all.length ≤ maxHistory)
    (alive : List String) (now graceMs : Int) : markLostHistory rt all alive now graceMs =
      all.map fun e => if isLost rt alive now graceMs e then { e with state := .lost } else e := by
  unfold markLostHistory
  split
  · exact write_eq_self ((List.length_map ..).trans_le h)
  · rename_i hany
    symm
    calc _ = all.map id := List.map_congr_left fun e he => if_neg fun hlost =>
            hany (List.any_eq_true.mpr ⟨e, he, hlost⟩)
      _ = all := List.map_id all

/-- Operations keep the stored list short. -/
theorem length_apply_le {all : List HistoryEntry} (h : all.length ≤ maxHistory) (now : Int)
    (op : HistoryOp) : (op.apply rt now all).length ≤ maxHistory := by
  cases op with
  | get | list => exact h
  | save | delete => exact length_write_le _
  | markLost alive =>
    rw [HistoryOp.apply, markLostHistory_eq h, List.length_map]
    exact h
  | clear => exact Nat.zero_le _

/-- Operations keep the creation times of the stored entries. -/
theorem dated_apply {all : List HistoryEntry} (hshort : all.length ≤ maxHistory)
    (h : ∀ e ∈ all, Dated created e.id e.createdAt) (now : Int) {op : HistoryOp}
    (hop : ∀ e, op = .save e → Dated created e.id e.createdAt) :
    ∀ e ∈ op.apply rt now all, Dated created e.id e.createdAt := by
  intro e he
  cases op with
  | get | list => exact h e he
  | save entry =>
    rcases mem_of_mem_saveHistory he with rfl | ⟨he, -⟩
    · exact hop e rfl
    · exact h e he
  | markLost alive =>
    rw [HistoryOp.apply, markLostHistory_eq hshort] at he
    obtain ⟨e₀, he₀, rfl⟩ := List.mem_map.mp he
    have hdated := h e₀ he₀
    split
    · exact hdated
    · exact hdated
  | delete id => exact h e (List.mem_of_mem_filter (mem_of_mem_write he))
  | clear => cases he

/-! ## The listing -/

/-- The list that `refresh` works through, if it has come. -/
def RefreshPc.answered : RefreshPc → Option (List JobBrief)
  | .live jobs _ | .checking jobs _ _ | .checked jobs _ _ _ | .saving jobs _
  | .recording jobs => some jobs
  | .idle | .listing | .marking => none

/-- How many links of the chain `refresh` waits for. -/
def RefreshPc.awaits : RefreshPc → Nat
  | .checking _ _ _ | .saving _ _ | .marking => 1
  | .idle | .listing | .live _ _ | .checked _ _ _ _ | .recording _ => 0

/-- What the tab knows of the jobs: their creation times, and which ids the server has
listed. -/
structure Tracker.Informed (created : String → Option String) (listed : List String → Prop)
    (t : Tracker) : Prop where
  stored : ∀ e ∈ t.stored, Dated created e.id e.createdAt
  short : t.stored.length ≤ maxHistory
  saves : ∀ l ∈ t.chain, ∀ e, l.op = .save e → Dated created e.id e.createdAt
  unfinished : ∀ j ∈ t.refresh.unfinished, Dated created j.id j.createdAt
  answered : ∀ jobs, t.refresh.answered = some jobs → listed (jobs.map JobBrief.id)
  awaits : t.chain.countP (fun l => l.waiter = .refresh) = t.refresh.awaits
  marks : ∀ l ∈ t.chain, ∀ alive, l.op = .markLost alive → l.waiter = .refresh ∧ listed alive

variable {listed listed' : List String → Prop} {t : Tracker}

theorem informed_init : Tracker.Informed created listed {} := by
  constructor <;> simp [RefreshPc.unfinished, RefreshPc.answered, RefreshPc.awaits]

/-- Only the store, the chain and `refresh` matter. -/
theorem Tracker.Informed.congr {t' : Tracker} (h : t.Informed created listed)
    (hstored : t'.stored = t.stored) (hchain : t'.chain = t.chain)
    (hrefresh : t'.refresh = t.refresh) : t'.Informed created listed := by
  obtain ⟨h₁, h₂, h₃, h₄, h₅, h₆, h₇⟩ := h
  constructor
  case stored => rwa [hstored]
  case short => rwa [hstored]
  case saves => rwa [hchain]
  case unfinished => rwa [hrefresh]
  case answered => rwa [hrefresh]
  case awaits => rwa [hchain, hrefresh]
  case marks => rwa [hchain]

/-- An operation that `refresh` does not wait for joins the chain. -/
theorem Tracker.Informed.serial (h : t.Informed created listed) (op : HistoryOp)
    (waiter : Waiter) (hwaiter : waiter ≠ .refresh)
    (hop : ∀ e, op = .save e → Dated created e.id e.createdAt)
    (hmark : ∀ alive, op ≠ .markLost alive) : (t.serial op waiter).Informed created listed where
  stored := h.stored
  short := h.short
  saves l hl := by
    rcases List.mem_append.mp hl with hl | hl
    · exact h.saves l hl
    · obtain rfl := List.mem_singleton.mp hl
      exact hop
  unfinished := h.unfinished
  answered := h.answered
  awaits := by
    rw [Tracker.serial, List.countP_append, h.awaits, List.countP_singleton, if_neg (by simpa)]
    rfl
  marks l hl alive halive := by
    rcases List.mem_append.mp hl with hl | hl
    · exact h.marks l hl alive halive
    · obtain rfl := List.mem_singleton.mp hl
      exact absurd halive (hmark alive)

/-- `refresh` moves on, and waits for nothing. -/
theorem Tracker.Informed.move (h : t.Informed created listed) (hnow : t.refresh.awaits = 0)
    (pc : RefreshPc) (hunfinished : ∀ j ∈ pc.unfinished, Dated created j.id j.createdAt)
    (hanswered : ∀ jobs, pc.answered = some jobs → listed (jobs.map JobBrief.id))
    (hawaits : pc.awaits = 0) :
    Tracker.Informed created listed { t with refresh := pc } where
  stored := h.stored
  short := h.short
  saves := h.saves
  unfinished := hunfinished
  answered := hanswered
  awaits := h.awaits.trans (hnow.trans hawaits.symm)
  marks := h.marks

/-- `refresh` moves on, and waits for an operation. -/
theorem Tracker.Informed.await (h : t.Informed created listed) (hnow : t.refresh.awaits = 0)
    (op : HistoryOp) (pc : RefreshPc)
    (hunfinished : ∀ j ∈ pc.unfinished, Dated created j.id j.createdAt)
    (hanswered : ∀ jobs, pc.answered = some jobs → listed (jobs.map JobBrief.id))
    (hawaits : pc.awaits = 1) (hop : ∀ e, op = .save e → Dated created e.id e.createdAt)
    (hmark : ∀ alive, op = .markLost alive → listed alive) :
    Tracker.Informed created listed { t.serial op .refresh with refresh := pc } where
  stored := h.stored
  short := h.short
  saves l hl := by
    rcases List.mem_append.mp hl with hl | hl
    · exact h.saves l hl
    · obtain rfl := List.mem_singleton.mp hl
      exact hop
  unfinished := hunfinished
  answered := hanswered
  awaits := by
    rw [Tracker.serial, List.countP_append, h.awaits, hnow, hawaits, List.countP_singleton]
    rfl
  marks l hl alive halive := by
    rcases List.mem_append.mp hl with hl | hl
    · exact h.marks l hl alive halive
    · obtain rfl := List.mem_singleton.mp hl
      exact ⟨rfl, hmark alive halive⟩

theorem Tracker.Informed.recordFinished (h : t.Informed created listed) (id : String) :
    (t.recordFinished id).Informed created listed := by
  unfold Tracker.recordFinished
  split
  · exact h
  · have hser := h.serial (.get id) (.record id) (by simp) (by simp) (by simp)
    exact hser.congr rfl rfl rfl

theorem Tracker.Informed.recordAll (h : t.Informed created listed) (jobs : List JobBrief) :
    (jobs.foldl (fun t j => t.recordFinished j.id) t).Informed created listed := by
  induction jobs generalizing t with
  | nil => exact h
  | cons j jobs ih => exact ih (h.recordFinished j.id)

/-- Recording finished jobs does not move `refresh`. -/
theorem refresh_recordAll (jobs : List JobBrief) :
    (jobs.foldl (fun t j => t.recordFinished j.id) t).refresh = t.refresh := by
  induction jobs generalizing t with
  | nil => rfl
  | cons j jobs ih =>
    rw [List.foldl_cons, ih, Tracker.recordFinished]
    split <;> rfl

/-- A page's snapshot is saved under the job's creation time. -/
theorem Tracker.Informed.sync (h : t.Informed created listed) {job : Job}
    (hjob : Dated created job.id job.createdAt) : (t.sync rt job).Informed created listed := by
  have hsave : ∀ e, HistoryOp.save (toHistory job) = .save e → Dated created e.id e.createdAt := by
    rintro _ ⟨⟩
    exact hjob
  have hser := h.serial (.save (toHistory job)) .nobody (by simp) hsave (by simp)
  unfold Tracker.sync
  split <;> dsimp only <;> split
  · exact h.congr rfl rfl rfl
  · exact hser.congr rfl rfl rfl
  · exact h.congr rfl rfl rfl
  · exact hser.congr rfl rfl rfl

/-! ## Steps of the tab -/

/-- What a step of the tab brings is dated, and what the server lists is listed. -/
def Brings (created : String → Option String) (listed : List String → Prop) :
    TrackerAction → Prop
  | .listed jobs => (∀ j ∈ jobs, Dated created j.id j.createdAt) ∧ listed (jobs.map JobBrief.id)
  | .fetched _ job | .sync job => Dated created job.id job.createdAt
  | _ => True

/-- The steps other than links leave the store alone. -/
theorem Tracker.Informed.step (h : t.Informed created listed) {a : TrackerAction}
    (ha : Brings created listed a) (hlink : ∀ now, a ≠ .link now) {t' : Tracker}
    (hstep : t.step rt a = some t') : t'.Informed created listed := by
  have hunfinished := h.unfinished
  have hanswered := h.answered
  cases Tracker.moves_of_step hstep with
  | refreshBusy => exact h
  | finish | resumeRecord | fetchFailed | disconnect => exact h.congr rfl rfl rfl
  | refresh hpc =>
    exact h.move (by rw [hpc]; rfl) .listing (by simp [RefreshPc.unfinished])
      (by simp [RefreshPc.answered]) rfl
  | listFailed hpc =>
    exact h.move (by rw [hpc]; rfl) .idle (by simp [RefreshPc.unfinished])
      (by simp [RefreshPc.answered]) rfl
  | @listed jobs hpc hpossible live hlive =>
    subst hlive
    refine (h.move (by rw [hpc]; rfl) (.live jobs (jobs.filter fun j => !j.state.terminal))
      (fun j hj => ha.1 j (List.mem_of_mem_filter hj)) ?_ rfl).congr rfl rfl rfl
    rintro _ ⟨⟩
    exact ha.2
  | @nextSeen jobs rest j hpc hseen =>
    rw [hpc] at hunfinished hanswered
    exact h.move (by rw [hpc]; rfl) (.live jobs rest)
      (fun j hj => hunfinished j (List.mem_cons_of_mem _ hj)) hanswered rfl
  | @nextCheck jobs rest j hpc hseen =>
    rw [hpc] at hunfinished hanswered
    exact (h.await (by rw [hpc]; rfl) (.get j.id) (.checking jobs j rest) hunfinished hanswered
      rfl (by simp) (by simp)).congr rfl rfl rfl
  | @nextRecord jobs hpc =>
    rw [hpc] at hanswered
    exact (h.recordAll (jobs.filter fun j => j.state.terminal)).move
      (by rw [refresh_recordAll, hpc]; rfl) (.recording jobs) (by simp [RefreshPc.unfinished])
      hanswered rfl
  | @resumeSave jobs rest j hpc =>
    rw [hpc] at hunfinished hanswered
    refine h.await (by rw [hpc]; rfl) (.save (briefToHistory j)) (.saving jobs rest)
      (fun j hj => hunfinished j (List.mem_cons_of_mem _ hj)) hanswered rfl ?_ (by simp)
    rintro _ ⟨⟩
    exact hunfinished j (List.mem_cons_self ..)
  | @resumeSkip jobs rest j existing hpc =>
    rw [hpc] at hunfinished hanswered
    exact h.move (by rw [hpc]; rfl) (.live jobs rest)
      (fun j hj => hunfinished j (List.mem_cons_of_mem _ hj)) hanswered rfl
  | @recorded jobs hpc hrecords =>
    rw [hpc] at hanswered
    refine h.await (by rw [hpc]; rfl) (.markLost (jobs.map JobBrief.id)) .marking
      (by simp [RefreshPc.unfinished]) (by simp [RefreshPc.answered]) rfl (by simp) ?_
    rintro _ ⟨⟩
    exact hanswered jobs rfl
  | @fetched job hpc hcur =>
    refine (h.serial (.save (toHistory job)) (.record job.id) (by simp) ?_
      (by simp)).congr rfl rfl rfl
    rintro _ ⟨⟩
    exact ha
  | sync hpossible => exact h.sync ha
  | @link now l rest hchain => exact absurd rfl (hlink now)
  | @delete id => exact h.serial (.delete id) .nobody (by simp) (by simp) (by simp)
  | clear => exact h.serial .clear .nobody (by simp) (by simp) (by simp)

/-- A link is done, and the activation that waited for it goes on. -/
theorem Tracker.Informed.wake {l : ChainLink} {rest : List ChainLink}
    (h : t.Informed created listed) (hchain : t.chain = l :: rest) {all : List HistoryEntry}
    (hstored : ∀ e ∈ all, Dated created e.id e.createdAt) (hshort : all.length ≤ maxHistory)
    (settled : Outcomes) (existing : Option HistoryEntry) :
    (Tracker.wake { t with chain := rest, stored := all, settled := settled }
      existing l.waiter).Informed created listed := by
  have hsub : ∀ l' ∈ rest, l' ∈ t.chain := fun l' hl' => hchain ▸ List.mem_cons_of_mem _ hl'
  have hsaves := fun l' hl' => h.saves l' (hsub l' hl')
  have hmarks := fun l' hl' => h.marks l' (hsub l' hl')
  have hunfinished := h.unfinished
  have hanswered := h.answered
  have hawaits := h.awaits
  rw [hchain, List.countP_cons] at hawaits
  unfold Tracker.wake
  cases hwaiter : l.waiter with
  | nobody | record =>
    rw [hwaiter, if_neg (by simp), Nat.add_zero] at hawaits
    exact ⟨hstored, hshort, hsaves, hunfinished, hanswered, hawaits, hmarks⟩
  | refresh =>
    rw [hwaiter, if_pos (by simp)] at hawaits
    -- `refresh` waits for this link and for no other
    cases hpc : t.refresh with
    | checking | saving =>
      rw [hpc] at hunfinished hanswered hawaits
      exact ⟨hstored, hshort, hsaves, hunfinished, hanswered, Nat.succ.inj hawaits, hmarks⟩
    | marking =>
      rw [hpc] at hawaits
      exact ⟨hstored, hshort, hsaves, by simp [RefreshPc.unfinished], by simp [RefreshPc.answered],
        Nat.succ.inj hawaits, hmarks⟩
    | idle | listing | live | checked | recording =>
      rw [hpc] at hawaits
      cases hawaits

theorem Tracker.Informed.link (h : t.Informed created listed) {now : Int} {t' : Tracker}
    (hstep : t.step rt (.link now) = some t') : t'.Informed created listed := by
  cases Tracker.moves_of_step hstep with
  | @link now l rest hchain =>
    have hl := h.saves l (hchain ▸ List.mem_cons_self ..)
    exact h.wake hchain (dated_apply h.short h.stored now hl) (length_apply_le h.short now l.op)
      _ _

/-- The tab stays informed whatever it does. -/
theorem Tracker.Informed.any (h : t.Informed created listed) {a : TrackerAction}
    (ha : Brings created listed a) {t' : Tracker} (hstep : t.step rt a = some t') :
    t'.Informed created listed := by
  by_cases hlink : ∃ now, a = .link now
  · obtain ⟨now, rfl⟩ := hlink
    exact h.link hstep
  · exact h.step ha (fun now hnow => hlink ⟨now, hnow⟩) hstep

/-! ## Steps of the tab and the server -/

/-- A list of ids has every job that the server held at its last answer, and still holds, and
none that was created since. -/
structure Lists (created : String → Option String) (held since : Finset String)
    (alive : List String) : Prop where
  before : ∀ id ∈ alive, created id ≠ none ∧ id ∉ since
  complete : ∀ id ∈ held, id ∉ since → id ∈ alive

/-- The tab is informed, and the answer that is on its way is the server's last. -/
structure Browsing.Inv (s : Browsing) : Prop where
  informed : s.tab.Informed s.created (Lists s.created s.held s.since)
  sent : ∀ jobs, s.answer = some jobs → (∀ j ∈ jobs, Dated s.created j.id j.createdAt) ∧
    Lists s.created s.held s.since (jobs.map JobBrief.id)

/-- The tab may know more jobs, and more lists of ids. -/
theorem Tracker.Informed.mono (h : t.Informed created listed)
    (hcreated : ∀ id text, Dated created id text → Dated created' id text)
    (hlisted : ∀ alive, listed alive → listed' alive) : t.Informed created' listed' where
  stored e he := hcreated _ _ (h.stored e he)
  short := h.short
  saves l hl e he := hcreated _ _ (h.saves l hl e he)
  unfinished j hj := hcreated _ _ (h.unfinished j hj)
  answered jobs hjobs := hlisted _ (h.answered jobs hjobs)
  awaits := h.awaits
  marks l hl alive halive := (h.marks l hl alive halive).imp_right (hlisted alive)

/-- While the list is awaited, no list has been passed on. -/
theorem Tracker.Informed.relist (h : t.Informed created listed)
    (hlisting : t.refresh.isListing = true) : t.Informed created listed' := by
  have hpc : t.refresh = .listing := by
    cases hpc : t.refresh <;> first | rfl | (rw [hpc] at hlisting; cases hlisting)
  refine ⟨h.stored, h.short, h.saves, h.unfinished, ?_, h.awaits, fun l hl alive halive => ?_⟩
  · rw [hpc]
    simp [RefreshPc.answered]
  · have hzero := h.awaits
    rw [hpc, RefreshPc.awaits, List.countP_eq_zero] at hzero
    exact absurd (decide_eq_true (h.marks l hl alive halive).1) (hzero l hl)

variable {s s' : Browsing} {held since : Finset String}

/-- A job is created under an id that no list has. -/
theorem Lists.create {alive : List String} (h : Lists created held since alive) {id : String}
    (hid : created id = none) (createdAt : String) :
    Lists (Function.update created id (some createdAt)) (insert id held) (insert id since)
      alive where
  before id' hid' := by
    obtain ⟨hcreated, hsince⟩ := h.before id' hid'
    have hne : id' ≠ id := fun he => hcreated (he ▸ hid)
    exact ⟨by rwa [Function.update_of_ne hne], by simp [hne, hsince]⟩
  complete id' hheld hsince := by
    rw [Finset.mem_insert, not_or] at hsince
    exact h.complete id' (Finset.mem_of_mem_insert_of_ne hheld hsince.1) hsince.2

theorem Dated.create {id : String} (hid : created id = none) (createdAt : String)
    {id' text : String} (h : Dated created id' text) :
    Dated (Function.update created id (some createdAt)) id' text := by
  have hne : id' ≠ id := by
    rintro rfl
    exact nomatch hid.symm.trans h
  rwa [Dated, Function.update_of_ne hne]

/-- A job that is forgotten need not be listed. -/
theorem Lists.drop {alive : List String} (h : Lists created held since alive) (id : String) :
    Lists created (held.erase id) since alive :=
  ⟨h.before, fun id' hid' => h.complete id' (Finset.mem_of_mem_erase hid')⟩

/-- What the server answers lists what it holds. -/
theorem Lists.answer {jobs : List JobBrief} (hheld : (jobs.map JobBrief.id).toFinset = held)
    (hdated : ∀ j ∈ jobs, Dated created j.id j.createdAt) :
    Lists created held ∅ (jobs.map JobBrief.id) where
  before id hid := by
    obtain ⟨j, hj, rfl⟩ := List.mem_map.mp hid
    refine ⟨fun hnone => ?_, Finset.notMem_empty _⟩
    exact nomatch (hdated j hj).symm.trans hnone
  complete id hid _ := List.mem_toFinset.mp (hheld.symm ▸ hid)

theorem Browsing.Inv.brings (h : s.Inv) {a : TrackerAction} (hsends : s.sends a = true) :
    Brings s.created (Lists s.created s.held s.since) a := by
  cases a with
  | listed jobs => exact h.sent jobs (of_decide_eq_true hsends)
  | fetched id job => exact of_decide_eq_true (p := Dated s.created job.id job.createdAt) hsends
  | sync job => exact of_decide_eq_true (p := Dated s.created job.id job.createdAt) hsends
  | _ => trivial

theorem Browsing.Inv.step (h : s.Inv) {a : BrowsingAction} (hstep : s.step rt a = some s') :
    s'.Inv := by
  cases a with
  | create id createdAt =>
    simp only [Browsing.step, Option.ite_none_right_eq_some, Option.some.injEq] at hstep
    obtain ⟨hid, rfl⟩ := hstep
    refine ⟨h.informed.mono (fun _ _ => .create hid createdAt) fun _ hl => hl.create hid createdAt,
      fun jobs hjobs => ?_⟩
    obtain ⟨hdated, hlists⟩ := h.sent jobs hjobs
    exact ⟨fun j hj => .create hid createdAt (hdated j hj), hlists.create hid createdAt⟩
  | drop id =>
    obtain rfl := Option.some.inj hstep
    refine ⟨h.informed.mono (fun _ _ h => h) fun _ hl => hl.drop id, fun jobs hjobs => ?_⟩
    obtain ⟨hdated, hlists⟩ := h.sent jobs hjobs
    exact ⟨hdated, hlists.drop id⟩
  | answer jobs =>
    simp only [Browsing.step, Option.ite_none_right_eq_some, Option.some.injEq] at hstep
    obtain ⟨⟨hlisting, -, hheld, hdated⟩, rfl⟩ := hstep
    refine ⟨h.informed.relist hlisting, ?_⟩
    rintro _ ⟨⟩
    exact ⟨hdated, .answer hheld hdated⟩
  | others all =>
    simp only [Browsing.step, Option.ite_none_right_eq_some, Option.some.injEq] at hstep
    obtain ⟨⟨hshort, hdated⟩, rfl⟩ := hstep
    obtain ⟨-, -, hsaves, hunfinished, hanswered, hawaits, hmarks⟩ := h.informed
    exact ⟨⟨hdated, hshort, hsaves, hunfinished, hanswered, hawaits, hmarks⟩, h.sent⟩
  | tab a =>
    simp only [Browsing.step, Option.ite_none_right_eq_some] at hstep
    obtain ⟨hsends, hstep⟩ := hstep
    obtain ⟨t, ht, rfl⟩ := Option.map_eq_some_iff.mp hstep
    refine ⟨h.informed.any (h.brings hsends) ht, fun jobs hjobs => h.sent jobs ?_⟩
    cases a with
    | listed | listFailed => cases hjobs
    | _ => exact hjobs

/-! ## Marking -/

/-- An entry is spared if it is finished, listed or young. -/
theorem isLost_eq_false_iff {alive : List String} {now graceMs : Int} {e : HistoryEntry} :
    isLost rt alive now graceMs e = false ↔ isHistoryTerminal e.state = true ∨ e.id ∈ alive ∨
      ∃ ms, rt.getTime e.createdAt = some ms ∧ now - graceMs < ms := by
  simp only [isLost, Bool.not_eq_false', Bool.or_eq_true, List.contains_iff_mem,
    Option.any_eq_true, decide_eq_true_eq, or_assoc]

/-- Marking leaves an entry as it is only if it spares it. -/
theorem mark_eq_self_iff {alive : List String} {now graceMs : Int} {e : HistoryEntry} :
    (if isLost rt alive now graceMs e then { e with state := .lost } else e) = e ↔
      isLost rt alive now graceMs e = false := by
  refine ⟨fun he => Bool.eq_false_iff.mpr fun hlost => ?_, fun h => if_neg (by simp [h])⟩
  rw [if_pos hlost] at he
  have hterm : isHistoryTerminal e.state = true := by rw [← he]; rfl
  simp [isLost, hterm] at hlost

/-- Marking spares what the server holds if and only if what has come since is young. -/
theorem Browsing.Inv.spares_iff (h : s.Inv) (a : BrowsingAction) :
    Spares rt s a ↔ Young rt s a := by
  unfold Spares Young
  split
  · rename_i now
    refine forall₃_congr fun alive waiter rest => forall_congr' fun hchain => ?_
    obtain ⟨-, hlists⟩ := h.informed.marks _ (hchain ▸ List.mem_cons_self ..) alive rfl
    rw [markLostHistory_eq h.informed.short, List.forall₂_map_right_iff, List.forall₂_same]
    refine forall₃_congr fun e he hheld => ?_
    rw [mark_eq_self_iff, isLost_eq_false_iff]
    have hdated := h.informed.stored e he
    constructor
    · rintro (hterm | halive | ⟨ms, hms, hyoung⟩) hsince hunfinished
      · cases hterm.symm.trans hunfinished
      · exact absurd hsince (hlists.before _ halive).2
      · exact ⟨e.createdAt, ms, hdated, hms, hyoung⟩
    · intro hyoung
      by_cases hsince : e.id ∈ s.since
      · cases hterm : isHistoryTerminal e.state with
        | true => exact .inl rfl
        | false =>
          obtain ⟨createdAt, ms, hcreated, hms, hlt⟩ := hyoung hsince hterm
          obtain rfl := Option.some.inj (hdated.symm.trans hcreated)
          exact .inr (.inr ⟨ms, hms, hlt⟩)
      · exact .inr (.inl (hlists.complete _ hheld hsince))
  · rfl

theorem init_inv : Browsing.Inv {} := ⟨informed_init, nofun⟩

/-- In a run of the tab, the server and the other tabs, marking never changes an entry of a
job that the server holds if and only if every such job that was created after the listing
was answered is, at the time of marking, young by the browser's clock. -/
theorem spares_iff_young (rt : Runtime) (as : List BrowsingAction) :
    Along (Browsing.step rt) (Spares rt) {} as ↔ Along (Browsing.step rt) (Young rt) {} as :=
  along_congr Browsing.Inv init_inv (fun _ _ _ hstep h => h.step hstep) fun _ a h => h.spares_iff a

/-! ## A run labelled as lost -/

/-- Strings compare by code points, and there is one date. -/
private def oneDate : Runtime where
  localeCompare := compare
  getTime _ := some 1700000000000

/-- A clean-up that runs. -/
private def runningCleanup : Job where
  id := "j"
  mode := .nuke
  state := .running
  phase := some "nuke"
  accountId := "1"
  spec := ⟨.nuke, ["us-east-1"], ["sns-topic"], none, none,
    some [⟨"sns-topic", "us-east-1", "a"⟩], none⟩
  createdAt := "2023-11-14T22:13:20Z"
  startedAt := some "2023-11-14T22:13:20Z"
  finishedAt := none
  error := none
  lastSeq := 1
  scanned := 1
  found := []
  results := []
  errors := []
  summary := none
  logTail := none

/-- A clean-up is created right after the server has answered that there are none. -/
private def lateRun : List BrowsingAction :=
  [.tab .refresh, .answer [], .tab (.listed []), .create "j" "2023-11-14T22:13:20Z",
    .tab (.sync runningCleanup), .tab .next, .tab .recorded, .tab (.link 1700000060000)]

/-- The browser's clock is a minute ahead: marking changes the entry of the clean-up, which
the server holds. -/
theorem lateRun_not_spares :
    ∃ s, execute (Browsing.step oneDate) {} lateRun = some s ∧ s.held = {"j"} ∧
      ¬ Along (Browsing.step oneDate) (Spares oneDate) {}
        (lateRun ++ [.tab (.link 1700000060000)]) := by
  refine ⟨_, rfl, by decide, fun h => ?_⟩
  have hspares := (h.after rfl).1 [] .refresh [] rfl
  obtain ⟨hentry, -⟩ := List.forall₂_cons.mp hspares
  exact absurd (congrArg HistoryEntry.state (hentry (by decide))) (by decide)

end Broom.Web
