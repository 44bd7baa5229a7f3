import Broom.Core.Ranking
import Broom.Web.Failures
import Broom.Web.Outcome

/-!
# The tracker when storage fails

The tracker's run with transactions that may be rejected, one link of the chain at a time.
A final record joins the set of saved ids before it is stored, and a rejected write tells
nobody. As long as every final record that is written is kept, the set of saved ids names
jobs whose final record has been stored, whenever nothing is under way.
-/

namespace Broom.Web

open Broom.Core

section

variable (rt : Runtime)

/-- The stored list after an operation some of whose transactions may be rejected. -/
def HistoryOp.applyFaulty (now : Int) (f : Storage.Faults) (all : List HistoryEntry)
    (op : HistoryOp) : List HistoryEntry :=
  match f.run (some all) (Storage.program rt now op) with
  | some ((), stored) => stored.getD []
  | none => all

/-- One step of the tab; the faults are those of the link that is done. -/
def Tracker.stepFaulty (t : Tracker) : TrackerAction × Storage.Faults → Option Tracker
  | (.link now, f) =>
    match t.chain with
    | l :: rest =>
      some (Tracker.wake
        { t with
          chain := rest
          stored := l.op.applyFaulty rt now f t.stored
          settled := settle l.op t.settled }
        (l.op.reply (f.seen (some t.stored))) l.waiter)
    | [] => none
  | (a, _) => t.step rt a

/-- A tab that has just been opened over the history stored so far. -/
def Tracker.opened (all : List HistoryEntry) : Tracker := { stored := all }

/-- The stored list has the final record of a job. -/
def Tracker.Holds (t : Tracker) (id : String) : Prop :=
  ∃ e ∈ t.stored, e.id = id ∧ recordedFinally (some e) = true

/-- At some point of a run the final record of a job was stored. -/
def Written (all : List HistoryEntry) (as : List (TrackerAction × Storage.Faults))
    (id : String) : Prop :=
  ∃ past rest t, as = past ++ rest ∧
    execute (Tracker.stepFaulty rt) (Tracker.opened all) past = some t ∧ t.Holds id

/-- When the write of a final record comes, it is not rejected, and fewer than fifty of the
other entries that were read come before the record; or the record is stored already. -/
def WriteKept (t : Tracker) : TrackerAction × Storage.Faults → Prop
  | (.link _, f) => ∀ e waiter rest, t.chain = ⟨.save e, waiter⟩ :: rest →
      recordedFinally (some e) = true → t.Holds e.id ∨
        f.set = false ∧ (((f.seen (some t.stored)).filter fun x => x.id ≠ e.id).filter fun x =>
          ¬ newestFirst rt e.createdAt x.createdAt).length < maxHistory
  | _ => True

/-- What is considered saved has been stored, and what has not been stored is recorded as
soon as it is listed again. -/
structure SavedIsWritten (all : List HistoryEntry) (as : List (TrackerAction × Storage.Faults))
    (t : Tracker) : Prop where
  written : ∀ id ∈ t.saved, Written rt all as id
  retried : ∀ id, ¬ Written rt all as id →
    (t.recordFinished id).chain = t.chain ++ [⟨.get id, .record id⟩]

end

variable {rt : Runtime}

/-! ## One operation -/

/-- A final record that may be kept is stored. -/
theorem mem_applyFaulty_save {now : Int} {f : Storage.Faults} {all : List HistoryEntry}
    {e : HistoryEntry} (hset : f.set = false)
    (hroom : (((f.seen (some all)).filter fun x => x.id ≠ e.id).filter fun x =>
      ¬ newestFirst rt e.createdAt x.createdAt).length < maxHistory) :
    e ∈ (HistoryOp.save e).applyFaulty rt now f all := by
  rw [HistoryOp.applyFaulty, Storage.program, Storage.run_saveHistory]
  simp only [Storage.Faults.written, hset, if_false, Bool.false_eq_true, Option.getD_some]
  exact mem_take_insertionSort hroom

/-- What an operation returns was stored. -/
theorem mem_stored_of_reply {f : Storage.Faults} {all : List HistoryEntry} {id : String}
    {e : HistoryEntry} (h : (HistoryOp.get id).reply (f.seen (some all)) = some e) :
    e ∈ all ∧ e.id = id := by
  have hmem := List.mem_of_find?_eq_some h
  refine ⟨?_, by simpa using List.find?_some h⟩
  rw [Storage.Faults.seen] at hmem
  split at hmem
  · cases hmem
  · exact hmem

/-! ## What is under way -/

/-- The final record of a job waits in the chain. -/
def Tracker.Coming (t : Tracker) (id : String) : Prop :=
  ∃ l ∈ t.chain, ∃ e, l.op = .save e ∧ e.id = id ∧ recordedFinally (some e) = true

/-- Every id that is considered saved is accounted for: its final record has been stored, or
is on its way to the store, or an activation is still at work on it. -/
structure Tracked (W : String → Prop) (t : Tracker) : Prop where
  holds : ∀ id, t.Holds id → W id
  saved : ∀ id ∈ t.saved, W id ∨ (∃ p ∈ t.records, p.1 = id) ∨ t.Coming id
  saving : ∀ p ∈ t.records, p.2 = .saving → W p.1 ∨ t.Coming p.1
  gotten : ∀ p ∈ t.records, ∀ existing, p.2 = .gotten existing →
    recordedFinally existing = true → W p.1
  asked : ∀ l ∈ t.chain, ∀ id id', l.waiter = .record id → l.op = .get id' → id' = id

variable {W W' : String → Prop} {t : Tracker}

theorem tracked_opened {all : List HistoryEntry} (h : ∀ id, (Tracker.opened all).Holds id → W id) :
    Tracked W (Tracker.opened all) :=
  ⟨h, by simp [Tracker.opened], by simp [Tracker.opened], by simp [Tracker.opened],
    by simp [Tracker.opened]⟩

theorem waiting_opened {all : List HistoryEntry} : (Tracker.opened all).Waiting :=
  ⟨by simp [Tracker.opened, RefreshPc.unfinished], by simp [Tracker.opened, RefreshPc.jobs],
    by simp [Tracker.opened]⟩

theorem Tracked.mono (h : Tracked W t) (hW : ∀ id, W id → W' id) : Tracked W' t :=
  ⟨fun id hid => hW id (h.holds id hid), fun id hid => (h.saved id hid).imp_left (hW id),
    fun p hp hpc => (h.saving p hp hpc).imp_left (hW p.1),
    fun p hp e hpc he => hW p.1 (h.gotten p hp e hpc he), h.asked⟩

/-- Only the store, the chain, the saved ids and the activations matter. -/
theorem Tracked.congr {t' : Tracker} (h : Tracked W t) (hstored : t'.stored = t.stored)
    (hchain : t'.chain = t.chain) (hsaved : t'.saved = t.saved)
    (hrecords : t'.records = t.records) : Tracked W t' := by
  obtain ⟨h₁, h₂, h₃, h₄, h₅⟩ := h
  constructor
  case holds => simpa only [Tracker.Holds, hstored] using h₁
  case saved => simpa only [Tracker.Coming, hsaved, hrecords, hchain] using h₂
  case saving => simpa only [Tracker.Coming, hrecords, hchain] using h₃
  case gotten => simpa only [hrecords] using h₄
  case asked => simpa only [hchain] using h₅

theorem Tracker.Coming.serial {id : String} (h : t.Coming id) (op : HistoryOp)
    (waiter : Waiter) : (t.serial op waiter).Coming id := by
  obtain ⟨l, hl, hrest⟩ := h
  exact ⟨l, List.mem_append_left _ hl, hrest⟩

/-- The last link of the chain may be a final record. -/
theorem coming_serial {e : HistoryEntry} (he : recordedFinally (some e) = true)
    (waiter : Waiter) : (t.serial (.save e) waiter).Coming e.id :=
  ⟨_, List.mem_append_right _ (List.mem_singleton_self _), e, rfl, rfl, he⟩

/-- An operation joins the chain. -/
theorem Tracked.serial (h : Tracked W t) (op : HistoryOp) (waiter : Waiter)
    (hasked : ∀ id id', waiter = .record id → op = .get id' → id' = id) :
    Tracked W (t.serial op waiter) where
  holds := h.holds
  saved id hid := (h.saved id hid).imp_right (Or.imp_right fun hc => hc.serial op waiter)
  saving p hp hpc := (h.saving p hp hpc).imp_right fun hc => hc.serial op waiter
  gotten := h.gotten
  asked := by
    intro l hl
    rcases List.mem_append.mp hl with hl | hl
    · exact h.asked l hl
    · obtain rfl := List.mem_singleton.mp hl
      exact hasked

/-- An id becomes saved when its final record is on its way. -/
theorem Tracked.insert_saved (h : Tracked W t) {id : String} (hid : t.Coming id) :
    Tracked W { t with saved := insert id t.saved } where
  holds := h.holds
  saved id' hid' := by
    rcases Finset.mem_insert.mp hid' with rfl | hid'
    · exact .inr (.inr hid)
    · exact h.saved id' hid'
  saving := h.saving
  gotten := h.gotten
  asked := h.asked

/-- An activation begins by asking for the stored entry of its own job. -/
theorem Tracked.recordFinished (h : Tracked W t) (id : String) :
    Tracked W (t.recordFinished id) := by
  unfold Tracker.recordFinished
  split
  · exact h
  · have hser := h.serial (.get id) (.record id) (by rintro _ _ ⟨⟩ ⟨⟩; rfl)
    refine ⟨hser.holds, fun id' hid' => ?_, fun p hp hpc => ?_, fun p hp e hpc he => ?_,
      hser.asked⟩
    · rcases Finset.mem_insert.mp hid' with rfl | hid'
      · exact .inr (.inl ⟨_, List.mem_append_right _ (List.mem_singleton_self _), rfl⟩)
      · refine (hser.saved id' hid').imp_right (Or.imp_left ?_)
        exact fun ⟨p, hp, he⟩ => ⟨p, List.mem_append_left _ hp, he⟩
    · rcases List.mem_append.mp hp with hp | hp
      · exact hser.saving p hp hpc
      · obtain rfl := List.mem_singleton.mp hp
        cases hpc
    · rcases List.mem_append.mp hp with hp | hp
      · exact hser.gotten p hp e hpc he
      · obtain rfl := List.mem_singleton.mp hp
        cases hpc

theorem Tracked.recordAll (h : Tracked W t) (jobs : List JobBrief) :
    Tracked W (jobs.foldl (fun t j => t.recordFinished j.id) t) := by
  induction jobs generalizing t with
  | nil => exact h
  | cons j jobs ih => exact ih (h.recordFinished j.id)

/-- Activations move, each as far as its job's record allows. -/
theorem Tracked.moveRecords (h : Tracked W t) (id : String) (move : RecordPc → Option RecordPc)
    (hend : ∀ pc, (id, pc) ∈ t.records → move pc = none → id ∈ t.saved → W id ∨ t.Coming id)
    (hsaving : ∀ pc, (id, pc) ∈ t.records → move pc = some .saving → W id ∨ t.Coming id)
    (hgotten : ∀ pc, (id, pc) ∈ t.records → ∀ existing, move pc = some (.gotten existing) →
      recordedFinally existing = true → W id) :
    Tracked W { t with records := t.records.filterMap fun p =>
      if p.1 = id then (move p.2).map (p.1, ·) else some p } := by
  -- an activation after the move is an old one of another job, or a moved one
  have hold : ∀ q ∈ t.records.filterMap (fun p =>
      if p.1 = id then (move p.2).map (p.1, ·) else some p),
      q ∈ t.records ∧ q.1 ≠ id ∨ q.1 = id ∧ ∃ pc, (id, pc) ∈ t.records ∧ move pc = some q.2 := by
    intro q hq
    obtain ⟨p, hp, hpq⟩ := List.mem_filterMap.mp hq
    split at hpq
    · rename_i hid
      obtain ⟨pc, hpc, rfl⟩ := Option.map_eq_some_iff.mp hpq
      exact .inr ⟨hid, p.2, hid ▸ hp, hpc⟩
    · rename_i hid
      obtain rfl := Option.some.inj hpq
      exact .inl ⟨hp, hid⟩
  refine ⟨h.holds, fun id' hid' => ?_, fun q hq hpc => ?_, fun q hq e hpc he => ?_, h.asked⟩
  · rcases h.saved id' hid' with hW | ⟨⟨id'', pc⟩, hp, rfl⟩ | hc
    · exact .inl hW
    · by_cases hid : id'' = id
      · subst hid
        cases hmove : move pc with
        | none => exact (hend pc hp hmove hid').imp_right .inr
        | some pc' =>
          refine .inr (.inl ⟨(id'', pc'), List.mem_filterMap.mpr ⟨_, hp, ?_⟩, rfl⟩)
          rw [if_pos rfl, hmove, Option.map_some]
      · exact .inr (.inl ⟨_, List.mem_filterMap.mpr ⟨_, hp, if_neg hid⟩, rfl⟩)
    · exact .inr (.inr hc)
  · rcases hold q hq with ⟨hq, -⟩ | ⟨hid, pc, hp, hmove⟩
    · exact h.saving q hq hpc
    · rw [hid]
      exact hsaving pc hp (hpc ▸ hmove)
  · rcases hold q hq with ⟨hq, -⟩ | ⟨hid, pc, hp, hmove⟩
    · exact h.gotten q hq e hpc he
    · rw [hid]
      exact hgotten pc hp e (hpc ▸ hmove) he

theorem Tracked.setRecord (h : Tracked W t) (id : String) (pc : Option RecordPc)
    (hend : pc = none → id ∈ t.saved → W id ∨ t.Coming id)
    (hsaving : pc = some .saving → W id ∨ t.Coming id)
    (hgotten : ∀ existing, pc ≠ some (.gotten existing)) : Tracked W (t.setRecord id pc) := by
  have hmove := h.moveRecords id (fun _ => pc) (fun _ _ => hend) (fun _ _ => hsaving)
    fun _ _ e he => absurd he (hgotten e)
  refine hmove.congr rfl rfl rfl ?_
  refine congrArg (t.records.filterMap ·) (funext fun p => ?_)
  split
  · rename_i hid
    rw [hid]
  · rfl

/-! ## Steps -/

/-- The snapshot of a finished job is a final record. -/
theorem recordedFinally_toHistory {job : Job} (h : job.state.terminal = true) :
    recordedFinally (some (toHistory job)) = true := by
  simp [recordedFinally, toHistory, isHistoryTerminal, h]

theorem outcome_wake (existing : Option HistoryEntry) (waiter : Waiter) :
    (t.wake existing waiter).outcome = t.outcome := by
  unfold Tracker.wake
  cases waiter with
  | nobody | record => rfl
  | refresh => cases t.refresh <;> rfl

theorem outcome_sync (job : Job) : (t.sync rt job).outcome = t.outcome := by
  unfold Tracker.sync
  split <;> dsimp only <;> split <;> rfl

/-- The jobs' outcomes are final states. -/
def Tracker.FinalOutcomes (t : Tracker) : Prop :=
  ∀ id s, t.outcome id = some s → s.terminal = true

theorem Tracker.FinalOutcomes.of_eq {t' : Tracker} (h : t.FinalOutcomes)
    (he : t'.outcome = t.outcome) : t'.FinalOutcomes := by
  rw [Tracker.FinalOutcomes, he]
  exact h

theorem Tracker.FinalOutcomes.step {a : TrackerAction} {t' : Tracker} (h : t.FinalOutcomes)
    (hstep : t.step rt a = some t') : t'.FinalOutcomes := by
  cases Tracker.moves_of_step hstep with
  | @finish id s hterm hnone =>
    intro id' s' hs'
    have hs' : Function.update t.outcome id (some s) id' = some s' := hs'
    by_cases hid : id' = id
    · subst hid
      rw [Function.update_self, Option.some.injEq] at hs'
      exact hs' ▸ hterm
    · rw [Function.update_of_ne hid] at hs'
      exact h id' s' hs'
  | nextRecord hpc => exact h.of_eq (outcome_recordAll t _)
  | link hchain => exact h.of_eq (outcome_wake _ _)
  | @sync job hpossible => exact h.of_eq (outcome_sync job)
  | refreshBusy => exact h
  | _ => exact h.of_eq rfl

theorem Tracked.sync (h : Tracked W t) (job : Job) : Tracked W (t.sync rt job) := by
  unfold Tracker.sync
  split
  · rename_i hterm
    dsimp only
    split
    · exact h.congr rfl rfl rfl rfl
    · have hser := h.serial (.save (toHistory job)) .nobody (by rintro _ _ ⟨⟩)
      exact (hser.insert_saved (coming_serial (recordedFinally_toHistory hterm) .nobody)).congr
        rfl rfl rfl rfl
  · dsimp only
    split
    · exact h.congr rfl rfl rfl rfl
    · exact (h.serial (.save (toHistory job)) .nobody (by rintro _ _ ⟨⟩)).congr rfl rfl rfl rfl

/-- The steps other than links leave the store alone, and account for what they save. -/
theorem Tracked.step {a : TrackerAction} {t' : Tracker} (h : Tracked W t) (hw : t.Waiting)
    (hf : t.FinalOutcomes) (hlink : ∀ now, a ≠ .link now) (hstep : t.step rt a = some t') :
    Tracked W t' := by
  cases Tracker.moves_of_step hstep with
  | refreshBusy => exact h
  | finish | refresh | listFailed | listed | nextSeen | resumeSkip | disconnect =>
    exact h.congr rfl rfl rfl rfl
  | @nextCheck jobs rest j hpc hseen =>
    exact (h.serial (.get j.id) .refresh (by rintro _ _ ⟨⟩)).congr rfl rfl rfl rfl
  | nextRecord hpc => exact (h.recordAll _).congr rfl rfl rfl rfl
  | @resumeSave jobs rest j hpc =>
    exact (h.serial (.save (briefToHistory j)) .refresh (by rintro _ _ ⟨⟩)).congr rfl rfl rfl rfl
  | @recorded jobs hpc hrecords =>
    exact (h.serial (.markLost (jobs.map JobBrief.id)) .refresh (by rintro _ _ ⟨⟩)).congr
      rfl rfl rfl rfl
  | @resumeRecord id existing hpc =>
    obtain ⟨l, l', hl, -⟩ := List.lookup_eq_some_iff.mp hpc
    have hmem : (id, RecordPc.gotten existing) ∈ t.records := by rw [hl]; simp
    refine h.setRecord id _ (fun hnone _ => ?_) (fun hs => ?_) fun e he => ?_
    · -- the activation ends here because the record it found is final
      split at hnone
      · exact .inl (h.gotten _ hmem existing rfl ‹_›)
      · cases hnone
    · split at hs <;> cases hs
    · split at he <;> cases he
  | @fetched job hpc hcur =>
    have hterm := hf _ _ (hw.outcome_of_recordPc hpc hcur)
    have hser := h.serial (.save (toHistory job)) (.record job.id) (by simp)
    have hcoming : (t.serial (.save (toHistory job)) (.record job.id)).Coming job.id :=
      coming_serial (recordedFinally_toHistory hterm) _
    exact hser.setRecord job.id (some .saving) (by simp) (fun _ => .inr hcoming) (by simp)
  | @fetchFailed id hpc =>
    have herase : Tracked W { t with saved := t.saved.erase id } :=
      ⟨h.holds, fun id' hid' => h.saved id' (Finset.mem_of_mem_erase hid'), h.saving, h.gotten,
        h.asked⟩
    have hnot : id ∉ t.saved.erase id := Finset.notMem_erase id t.saved
    have hset : Tracked W (Tracker.setRecord { t with saved := t.saved.erase id } id none) :=
      herase.setRecord id none (fun _ hid => absurd hid hnot) (by simp) (by simp)
    exact hset.congr rfl rfl rfl rfl
  | @sync job hpossible => exact h.sync job
  | @link now l rest hchain => exact absurd rfl (hlink now)
  | @delete id => exact h.serial (.delete id) .nobody (by rintro _ _ ⟨⟩)
  | clear => exact h.serial .clear .nobody (by rintro _ _ ⟨⟩)

/-- A link stores the final record it carries, and wakes the activation that waits for it
with what was stored. -/
theorem Tracked.link {now : Int} {f : Storage.Faults} {l : ChainLink} {rest : List ChainLink}
    (h : Tracked W t) (hchain : t.chain = l :: rest) (hkept : WriteKept rt t (.link now, f))
    (hW : ∀ id, W id → W' id)
    (hholds : ∀ e ∈ l.op.applyFaulty rt now f t.stored, recordedFinally (some e) = true → W' e.id)
    {t₁ : Tracker} (hstored : t₁.stored = l.op.applyFaulty rt now f t.stored)
    (hrest : t₁.chain = rest) (hsaved : t₁.saved = t.saved) (hrecords : t₁.records = t.records) :
    Tracked W' (t₁.wake (l.op.reply (f.seen (some t.stored))) l.waiter) := by
  -- a final record that was on its way has been stored, or still is on its way
  have hcoming : ∀ id, t.Coming id → W' id ∨ t₁.Coming id := by
    rintro id ⟨l', hl', e, hop, rfl, he⟩
    rw [hchain] at hl'
    rcases List.mem_cons.mp hl' with rfl | hl'
    · obtain ⟨op, waiter⟩ := l'
      obtain rfl : op = .save e := hop
      rcases hkept e waiter rest hchain he with hheld | ⟨hset, hroom⟩
      · exact .inl (hW _ (h.holds _ hheld))
      · exact .inl (hholds e (mem_applyFaulty_save hset hroom) he)
    · exact .inr ⟨l', hrest ▸ hl', e, hop, rfl, he⟩
  have hnext : Tracked W' t₁ := by
    refine ⟨?_, fun id hid => ?_, fun p hp hpc => ?_, fun p hp e hpc he => ?_, fun l' hl' => ?_⟩
    · rintro id ⟨e, he, rfl, hfinal⟩
      exact hholds e (hstored ▸ he) hfinal
    · rw [hsaved] at hid
      rcases h.saved id hid with hid | hid | hid
      · exact .inl (hW id hid)
      · exact .inr (.inl (hrecords ▸ hid))
      · exact (hcoming id hid).imp_right .inr
    · rw [hrecords] at hp
      exact (h.saving p hp hpc).elim (fun hp => .inl (hW _ hp)) (hcoming _)
    · rw [hrecords] at hp
      exact hW _ (h.gotten p hp e hpc he)
    · exact h.asked l' (hchain ▸ List.mem_cons_of_mem _ (hrest ▸ hl'))
  unfold Tracker.wake
  cases hwaiter : l.waiter with
  | nobody => exact hnext
  | refresh =>
    dsimp only
    split
    · exact hnext.congr rfl rfl rfl rfl
    · exact hnext.congr rfl rfl rfl rfl
    · exact hnext.congr rfl rfl rfl rfl
    · exact hnext
  | record id =>
    refine hnext.moveRecords id (RecordPc.wake _) (fun pc hp hmove _ => ?_) (fun pc hp hmove => ?_)
      fun pc hp e hmove he => ?_
    · -- an activation that ends has waited for its record to be stored
      cases pc with
      | saving => exact hnext.saving _ hp rfl
      | getting | gotten | fetching => cases hmove
    · cases pc <;> cases hmove
    · cases pc with
      | getting =>
        obtain rfl := RecordPc.gotten.inj (Option.some.inj hmove)
        cases hop : l.op with
        | get id' =>
          -- what is found is the stored record of this job
          have hl : l ∈ t.chain := hchain ▸ List.mem_cons_self ..
          obtain rfl := h.asked l hl id id' hwaiter hop
          rw [hop] at he
          obtain ⟨existing, hreply, -⟩ := Option.any_eq_true .. |>.mp he
          obtain ⟨hmem, hid⟩ := mem_stored_of_reply hreply
          exact hW _ (h.holds _ ⟨existing, hmem, hid, by rwa [hreply] at he⟩)
        | save | markLost | delete | clear | list =>
          rw [hop] at he
          cases he
      | gotten existing =>
        obtain rfl := RecordPc.gotten.inj (Option.some.inj hmove)
        exact hnext.gotten _ hp _ rfl he
      | fetching => cases hmove
      | saving => cases hmove

/-! ## Runs -/

variable {all : List HistoryEntry}

theorem Written.append {as : List (TrackerAction × Storage.Faults)} {id : String}
    (h : Written rt all as id) (bs : List (TrackerAction × Storage.Faults)) :
    Written rt all (as ++ bs) id := by
  obtain ⟨past, rest, t, rfl, hrun, hheld⟩ := h
  exact ⟨past, rest ++ bs, t, by rw [List.append_assoc], hrun, hheld⟩

theorem stored_wake (existing : Option HistoryEntry) (waiter : Waiter) :
    (t.wake existing waiter).stored = t.stored := by
  unfold Tracker.wake
  cases waiter with
  | nobody | record => rfl
  | refresh => cases t.refresh <;> rfl

/-- Faults are only those of links. -/
theorem stepFaulty_of_ne {a : TrackerAction} (f : Storage.Faults) (ha : ∀ now, a ≠ .link now) :
    t.stepFaulty rt (a, f) = t.step rt a := by
  cases a with
  | link now => exact absurd rfl (ha now)
  | _ => rfl

/-- What is accounted for, with what holds of the activations and the server. -/
structure Sound (W : String → Prop) (t : Tracker) : Prop where
  tracked : Tracked W t
  waiting : t.Waiting
  final : t.FinalOutcomes

/-- A step over storage that may fail keeps the account of what is saved. -/
theorem Sound.step {a : TrackerAction × Storage.Faults} {t' : Tracker} (h : Sound W t)
    (hkept : WriteKept rt t a) (hstep : t.stepFaulty rt a = some t') (hW : ∀ id, W id → W' id)
    (hholds : ∀ id, t'.Holds id → W' id) : Sound W' t' := by
  obtain ⟨a, f⟩ := a
  by_cases hlink : ∃ now, a = .link now
  · obtain ⟨now, rfl⟩ := hlink
    simp only [Tracker.stepFaulty] at hstep
    cases hchain : t.chain with
    | nil => simp [hchain] at hstep
    | cons l rest =>
      rw [hchain] at hstep
      obtain rfl := Option.some.inj hstep
      have hwait : Tracker.Waiting { t with
          chain := rest
          stored := l.op.applyFaulty rt now f t.stored
          settled := settle l.op t.settled } :=
        ⟨h.waiting.unfinished, h.waiting.listed, h.waiting.records⟩
      refine ⟨h.tracked.link hchain hkept hW (fun e he hfinal => hholds e.id ⟨e, ?_, rfl, hfinal⟩)
        rfl rfl rfl rfl, hwait.wake _ _, h.final.of_eq (outcome_wake _ _)⟩
      rw [stored_wake]
      exact he
  · have ha : ∀ now, a ≠ .link now := fun now hnow => hlink ⟨now, hnow⟩
    rw [stepFaulty_of_ne f ha] at hstep
    exact ⟨(h.tracked.step h.waiting h.final ha hstep).mono hW, h.waiting.step hstep,
      h.final.step hstep⟩

/-- A run that keeps every final record it writes accounts for what it considers saved. -/
theorem sound_of_writeKept {as : List (TrackerAction × Storage.Faults)} {t : Tracker}
    (hrun : execute (Tracker.stepFaulty rt) (Tracker.opened all) as = some t)
    (hkept : Along (Tracker.stepFaulty rt) (WriteKept rt) (Tracker.opened all) as) :
    Sound (Written rt all as) t := by
  induction as using List.reverseRecOn generalizing t with
  | nil =>
    obtain rfl := Option.some.inj hrun
    exact ⟨tracked_opened fun id hid => ⟨[], [], _, rfl, rfl, hid⟩, waiting_opened,
      fun _ _ h => nomatch h⟩
  | append_singleton as a ih =>
    obtain ⟨t₀, hrun₀, hstep⟩ := of_execute_concat hrun
    refine (ih hrun₀ hkept.of_append).step (hkept.after hrun₀).1 hstep
      (fun id h => h.append [a]) fun id hid => ?_
    exact ⟨as ++ [a], [], t, (List.append_nil _).symm, hrun, hid⟩

/-- In every run that keeps the final records it writes, whenever nothing is under way, every
id that is considered saved has had its final record stored, and any other is recorded anew
as soon as it is listed. -/
theorem savedIsWritten_of_writeKept {as : List (TrackerAction × Storage.Faults)} {t : Tracker}
    (hrun : execute (Tracker.stepFaulty rt) (Tracker.opened all) as = some t)
    (hkept : Along (Tracker.stepFaulty rt) (WriteKept rt) (Tracker.opened all) as)
    (hchain : t.chain = []) (hrecords : t.records = []) : SavedIsWritten rt all as t := by
  have htracked := (sound_of_writeKept hrun hkept).tracked
  have hwritten : ∀ id ∈ t.saved, Written rt all as id := by
    intro id hid
    rcases htracked.saved id hid with h | ⟨p, hp, -⟩ | ⟨l, hl, -⟩
    · exact h
    · rw [hrecords] at hp
      cases hp
    · rw [hchain] at hl
      cases hl
  refine ⟨hwritten, fun id hid => ?_⟩
  rw [Tracker.recordFinished, if_neg fun hsaved => hid (hwritten id hsaved)]
  rfl

/-! ## A lost record -/

/-- Strings compare by code points, and there are no dates. -/
private def plainRuntime : Runtime where
  localeCompare := compare
  getTime _ := none

/-- A scan that found nothing. -/
private def emptyScan : Job where
  id := "j"
  mode := .scan
  state := .succeeded
  phase := some "scan"
  accountId := "1"
  spec := ⟨.scan, ["us-east-1"], ["sns-topic"], none, none, none, none⟩
  createdAt := "2023-11-14T22:13:20Z"
  startedAt := some "2023-11-14T22:13:20Z"
  finishedAt := some "2023-11-14T22:13:21Z"
  error := none
  lastSeq := 1
  scanned := 1
  found := []
  results := []
  errors := []
  summary := none
  logTail := none

private def noFaults : Storage.Faults := ⟨false, false, false⟩

/-- The tracker records a scan that ended unseen. -/
private def recordRun : List (TrackerAction × Storage.Faults) :=
  [(.finish "j" .succeeded, noFaults), (.refresh, noFaults),
    (.listed [briefOf emptyScan], noFaults), (.next, noFaults), (.link 0, noFaults),
    (.resumeRecord "j", noFaults), (.fetched "j" emptyScan, noFaults), (.link 0, noFaults)]

theorem recordRun_savedIsWritten :
    ∃ t, execute (Tracker.stepFaulty plainRuntime) (Tracker.opened []) recordRun = some t ∧
      t.saved = {"j"} ∧ SavedIsWritten plainRuntime [] recordRun t := by
  have hkept : Along (Tracker.stepFaulty plainRuntime) (WriteKept plainRuntime)
      (Tracker.opened []) recordRun :=
    have hroom : ([] : List HistoryEntry).length < maxHistory := by decide
    .cons trivial rfl <| .cons trivial rfl <| .cons trivial rfl <| .cons trivial rfl <|
      .cons (fun _ _ _ h => nomatch h) rfl <| .cons trivial rfl <| .cons trivial rfl <|
        .cons (fun _ _ _ _ _ => .inr ⟨rfl, hroom⟩) rfl trivial
  obtain ⟨t, hrun⟩ : ∃ t, execute (Tracker.stepFaulty plainRuntime) (Tracker.opened [])
      recordRun = some t := ⟨_, rfl⟩
  exact ⟨t, hrun, by cases hrun; rfl, savedIsWritten_of_writeKept hrun hkept
    (by cases hrun; rfl) (by cases hrun; rfl)⟩

/-- A page sees the scan end, and its record cannot be written. -/
private def rejectedRun : List (TrackerAction × Storage.Faults) :=
  [(.finish "j" .succeeded, noFaults), (.sync emptyScan, noFaults), (.link 0, ⟨false, true, false⟩)]

/-- The scan is considered saved, and no record of it was ever stored. -/
theorem rejectedRun_not_written :
    ∃ t, execute (Tracker.stepFaulty plainRuntime) (Tracker.opened []) rejectedRun = some t ∧
      t.chain = [] ∧ t.records = [] ∧ ¬ SavedIsWritten plainRuntime [] rejectedRun t := by
  refine ⟨_, rfl, rfl, rfl, fun h => ?_⟩
  obtain ⟨past, rest, t, has, hrun, e, he, -⟩ := h.written "j" (by decide)
  -- nothing is stored at any point of the run
  have hpast : past ∈ rejectedRun.inits := (List.mem_inits _ _).mpr ⟨rest, has.symm⟩
  simp only [rejectedRun, List.inits, List.map_cons, List.map_nil, List.mem_cons, List.not_mem_nil,
    or_false] at hpast
  rcases hpast with rfl | rfl | rfl | rfl <;> cases hrun <;> cases he

end Broom.Web
