import Broom.Engine.RunEvents
import Broom.Jobs.Brief
import Broom.Jobs.Supervisor

/-!
# Tallies and views

The worker counts its events one by one; a job files them under keys and shows what
is filed. The two agree when no key comes twice. A job shows what its worker wrote,
however the worker's log lines and other operations come in between.
-/

namespace Broom.Jobs

open Broom.Core Broom.Engine Broom.Core.Pool

/-- The keys that events of one type are about, with repetitions. -/
def keysOf (type : EventType) (events : List Event) : List String :=
  (events.filter fun ev => ev.type = type).map Event.key

theorem keysOf_cons (type : EventType) (ev : Event) (events : List Event) :
    keysOf type (ev :: events) = keysOf type [ev] ++ keysOf type events := by
  by_cases h : ev.type = type <;> simp [keysOf, h]

/-- The outcome was there before the run came to it. -/
def DeleteResult.gone (r : DeleteResult) : Bool := r.note = "already_gone"

/-- A summary counts what a view shows. -/
structure Counts (s : Summary) (v : View) : Prop where
  found : s.found = v.found.values.length
  nukable : s.found = s.nukable + s.notNukable
  notNukable : s.notNukable = v.found.values.countP fun f => !f.nukable
  generalErrors : s.generalErrors = v.errors.length
  deleted : s.deleted = v.results.values.countP fun r => r.success && !r.gone
  alreadyGone : s.alreadyGone = v.results.values.countP fun r => r.success && r.gone
  warned : s.warned = v.results.values.countP fun r => !r.success && r.warning
  failed : s.failed = v.results.values.countP fun r => !r.success && !r.warning

theorem counts_empty : Counts {} {} := ⟨rfl, rfl, rfl, rfl, rfl, rfl, rfl, rfl⟩

/-- The mode and the number of unselected resources count nothing shown. -/
theorem Counts.with_mode {s : Summary} {v : View} (h : Counts s v) (mode : Mode)
    (notSelected : Nat) : Counts { s with mode := mode, notSelected := notSelected } v :=
  ⟨h.found, h.nukable, h.notNukable, h.generalErrors, h.deleted, h.alreadyGone, h.warned, h.failed⟩

/-! ## One event -/

theorem Counts.found_step {s : Summary} {v : View} (h : Counts s v) {ev : Event}
    (htype : ev.type = .resourceFound) (hnew : ev.key ∉ v.found.keys) :
    Counts (tally s ev) (v.apply ev) := by
  have hvalues : (v.found.set (foundOf ev).key (foundOf ev)).values =
      v.found.values ++ [foundOf ev] := OrderedMap.values_set hnew
  have hnukable : (foundOf ev).nukable = !decide (ev.nukable = some false) := by
    rcases hev : ev.nukable with _ | _ | _ <;> simp [foundOf, hev]
  have hn := h.nukable
  unfold tally View.apply
  rw [htype]
  dsimp only
  split <;> rename_i hev
  · refine ⟨?_, ?_, ?_, h.generalErrors, h.deleted, h.alreadyGone, h.warned, h.failed⟩
    · rw [hvalues, List.length_append, ← h.found, List.length_singleton]
    · dsimp only
      omega
    · simp [hvalues, List.countP_append, ← h.notNukable, hnukable, hev]
  · refine ⟨?_, ?_, ?_, h.generalErrors, h.deleted, h.alreadyGone, h.warned, h.failed⟩
    · rw [hvalues, List.length_append, ← h.found, List.length_singleton]
    · dsimp only
      omega
    · simp [hvalues, List.countP_append, ← h.notNukable, hnukable, hev]

theorem Counts.deleted_step {s : Summary} {v : View} (h : Counts s v) {ev : Event}
    (htype : ev.type = .resourceDeleted) (hplain : Plain ev) (hnew : ev.key ∉ v.results.keys) :
    Counts (tally s ev) (v.apply ev) := by
  have hvalues : (v.results.set (resultOf ev).key (resultOf ev)).values =
      v.results.values ++ [resultOf ev] := OrderedMap.values_set hnew
  have hcount (p : DeleteResult → Bool) :
      (v.results.set (resultOf ev).key (resultOf ev)).values.countP p =
        v.results.values.countP p + if p (resultOf ev) then 1 else 0 := by
    rw [hvalues, List.countP_append, List.countP_singleton]
  have hgone : (resultOf ev).gone = decide (ev.note = "already_gone") := rfl
  have hsuccess : (resultOf ev).success = decide (ev.success = some true) := rfl
  have hwarning : (resultOf ev).warning = ev.warning := rfl
  unfold tally View.apply
  rw [htype]
  dsimp only
  -- the four ways to close out a resource, in the order in which the tally tells them apart
  split
  · rename_i hnote
    have hok := hplain.gone hnote
    refine ⟨h.found, h.nukable, h.notNukable, h.generalErrors, ?_, ?_, ?_, ?_⟩ <;>
      simp [hcount, hgone, hsuccess, hnote, hok, h.deleted, h.alreadyGone, h.warned, h.failed]
  · rename_i hnote
    split
    · rename_i hok
      refine ⟨h.found, h.nukable, h.notNukable, h.generalErrors, ?_, ?_, ?_, ?_⟩ <;>
        simp [hcount, hgone, hsuccess, hnote, hok, h.deleted, h.alreadyGone, h.warned, h.failed]
    · rename_i hok
      split <;> rename_i hwarn <;>
        refine ⟨h.found, h.nukable, h.notNukable, h.generalErrors, ?_, ?_, ?_, ?_⟩ <;>
        simp [hcount, hsuccess, hwarning, hok, hwarn, h.deleted, h.alreadyGone, h.warned, h.failed]

/-- An event about a new resource, or about none, is counted as it is shown. -/
theorem Counts.step {s : Summary} {v : View} (h : Counts s v) {ev : Event} (hplain : Plain ev)
    (hfound : (v.found.keys ++ keysOf .resourceFound [ev]).Nodup)
    (hresult : (v.results.keys ++ keysOf .resourceDeleted [ev]).Nodup) :
    Counts (tally s ev) (v.apply ev) ∧
      (v.apply ev).found.keys = v.found.keys ++ keysOf .resourceFound [ev] ∧
      (v.apply ev).results.keys = v.results.keys ++ keysOf .resourceDeleted [ev] := by
  cases htype : ev.type with
  | phase =>
    have hphase := hplain.phase htype
    simp only [tally, View.apply, keysOf, htype, hphase, if_false]
    exact ⟨⟨h.found, h.nukable, h.notNukable, h.generalErrors, h.deleted, h.alreadyGone,
      h.warned, h.failed⟩, by simp [htype], by simp [htype]⟩
  | resourceFound =>
    have hnew : ev.key ∉ v.found.keys := by
      have hkeys : keysOf .resourceFound [ev] = [ev.key] := by simp [keysOf, htype]
      rw [hkeys, List.nodup_append'] at hfound
      exact List.disjoint_singleton.mp hfound.2.2
    refine ⟨h.found_step htype hnew, ?_, ?_⟩
    · have hset : (v.found.set (foundOf ev).key (foundOf ev)).keys = v.found.keys ++ [ev.key] :=
        (OrderedMap.keys_set ..).trans (if_neg hnew)
      simpa [View.apply, keysOf, htype] using hset
    · simp [View.apply, keysOf, htype]
  | resourceDeleted =>
    have hnew : ev.key ∉ v.results.keys := by
      have hkeys : keysOf .resourceDeleted [ev] = [ev.key] := by simp [keysOf, htype]
      rw [hkeys, List.nodup_append'] at hresult
      exact List.disjoint_singleton.mp hresult.2.2
    refine ⟨h.deleted_step htype hplain hnew, ?_, ?_⟩
    · simp [View.apply, keysOf, htype]
    · have hset : (v.results.set (resultOf ev).key (resultOf ev)).keys =
          v.results.keys ++ [ev.key] := (OrderedMap.keys_set ..).trans (if_neg hnew)
      simpa [View.apply, keysOf, htype] using hset
  | generalError =>
    simp only [tally, View.apply, keysOf, htype]
    exact ⟨⟨h.found, h.nukable, h.notNukable, by simp [h.generalErrors], h.deleted, h.alreadyGone,
      h.warned, h.failed⟩, by simp [htype], by simp [htype]⟩
  | _ =>
    simp only [tally, View.apply, keysOf, htype]
    exact ⟨⟨h.found, h.nukable, h.notNukable, h.generalErrors, h.deleted, h.alreadyGone,
      h.warned, h.failed⟩, by simp [htype], by simp [htype]⟩

/-! ## All events of a run -/

theorem Counts.foldl {s : Summary} {v : View} (h : Counts s v) {events : List Event}
    (hplain : ∀ ev ∈ events, Plain ev)
    (hfound : (v.found.keys ++ keysOf .resourceFound events).Nodup)
    (hresult : (v.results.keys ++ keysOf .resourceDeleted events).Nodup) :
    Counts (events.foldl tally s) (events.foldl View.apply v) := by
  induction events generalizing s v with
  | nil => exact h
  | cons ev events ih =>
    rw [keysOf_cons, ← List.append_assoc] at hfound hresult
    obtain ⟨hstep, hkeys, hreskeys⟩ := h.step (hplain ev (List.mem_cons_self ..))
      (List.nodup_append'.mp hfound).1 (List.nodup_append'.mp hresult).1
    exact ih hstep (fun ev' hev' => hplain ev' (List.mem_cons_of_mem _ hev'))
      (by rwa [hkeys]) (by rwa [hreskeys])

/-- The first event of a run shows its phase at most, be it a rescan's. -/
theorem counts_first {ev : Event} (h : ev.type = .phase ∨ ev.type = .fatal) :
    Counts (tally {} ev) (View.apply {} ev) ∧ (View.apply {} ev).found.keys = [] ∧
      (View.apply {} ev).results.keys = [] := by
  rcases h with htype | htype
  · unfold tally View.apply
    rw [htype]
    dsimp only
    split <;> exact ⟨⟨rfl, rfl, rfl, rfl, rfl, rfl, rfl, rfl⟩, rfl, rfl⟩
  · unfold tally View.apply
    rw [htype]
    exact ⟨counts_empty, rfl, rfl⟩

/-- The tally of a run's events counts what they show. -/
theorem counts_of_runEvents {events : List Event} (h : RunEvents events)
    (hfound : (keysOf .resourceFound events).Nodup)
    (hresult : (keysOf .resourceDeleted events).Nodup) :
    Counts (events.foldl tally {}) (viewOf events) := by
  cases events with
  | nil => exact counts_empty
  | cons ev events =>
    obtain ⟨hfirst, hf, hr⟩ := counts_first (h.first ev rfl)
    rw [keysOf_cons, List.nodup_append'] at hfound hresult
    refine hfirst.foldl h.plain ?_ ?_
    · rw [hf, List.nil_append]
      exact hfound.2.1
    · rw [hr, List.nil_append]
      exact hresult.2.1

/-- A shown summary was written. -/
theorem exists_of_viewOf_summary {events : List Event} {sum : Summary}
    (h : (viewOf events).summary = some sum) :
    ∃ before ev after, events = before ++ ev :: after ∧ ev.type = .summary ∧
      ev.summary = some sum := by
  induction events using List.reverseRecOn with
  | nil => cases h
  | append_singleton events ev ih =>
    rw [viewOf_append, List.foldl_cons, List.foldl_nil] at h
    have hold (hsame : ((viewOf events).apply ev).summary = (viewOf events).summary) :
        ∃ before ev' after, events ++ [ev] = before ++ ev' :: after ∧ ev'.type = .summary ∧
          ev'.summary = some sum := by
      obtain ⟨before, ev', after, he, hev'⟩ := ih (hsame ▸ h)
      exact ⟨before, ev', after ++ [ev], by simp [he], hev'⟩
    cases htype : ev.type with
    | summary =>
      simp only [View.apply, htype] at h
      exact ⟨events, ev, [], rfl, htype, h⟩
    | phase =>
      refine hold ?_
      simp only [View.apply, htype]
      split <;> rfl
    | _ => exact hold (by simp only [View.apply, htype])

/-- The summary that a run's events show is their tally. -/
theorem summary_of_runEvents {events : List Event} (h : RunEvents events) {sum : Summary}
    (hs : (viewOf events).summary = some sum) : ∃ mode notSelected,
      sum = { events.foldl tally {} with mode := mode, notSelected := notSelected } := by
  obtain ⟨before, ev, after, rfl, htype, hev⟩ := exists_of_viewOf_summary hs
  obtain ⟨rfl, mode, notSelected, -, hsummary⟩ := h.summary before ev after rfl htype
  have htally : tally (before.foldl tally {}) ev = before.foldl tally {} := by
    simp only [tally, htype]
  refine ⟨mode, notSelected, ?_⟩
  rw [List.foldl_append, List.foldl_cons, List.foldl_nil, htally]
  exact Option.some.inj (hev.symm.trans hsummary)

/-! ## What a job shows of its worker -/

/-- The events that a view takes no notice of are log lines; it takes no notice of sequence
numbers and times either. -/
def shown (events : List Event) : List Event :=
  (events.map content).filter fun ev => ev.type ≠ .log

theorem viewOf_shown (events : List Event) : viewOf (shown events) = viewOf events := by
  have hfold (v : View) : (shown events).foldl View.apply v = events.foldl View.apply v := by
    induction events generalizing v with
    | nil => rfl
    | cons ev events ih =>
      by_cases hlog : ev.type = .log
      · have happly : v.apply ev = v := by simp only [View.apply, hlog]
        have hskip : shown (ev :: events) = shown events := by simp [shown, content, hlog]
        rw [hskip, List.foldl_cons, happly]
        exact ih v
      · have hkeep : shown (ev :: events) = content ev :: shown events := by
          simp [shown, content, hlog]
        rw [hkeep, List.foldl_cons, List.foldl_cons]
        exact ih (v.apply ev)
  exact hfold {}

/-- The log reader publishes log lines only. -/
theorem log_of_exec_readLogLines {wire : Wire} {lines : List (List UInt8)}
    {τ : List (Act ReadOp.Ans)} {out : String} (h : Prog.Exec (readLogLines wire lines) τ out) :
    ∀ a ∈ τ, a.1.event.type = .log := by
  induction lines generalizing τ with
  | nil =>
    rw [(Prog.exec_pure.mp h).1]
    simp
  | cons line lines ih =>
    rw [readLogLines] at h
    cases hev : logEvent wire line with
    | none =>
      rw [hev] at h
      exact ih h
    | some ev =>
      rw [hev] at h
      obtain ⟨_, now, τ', rfl, hp, h⟩ := Prog.exec_bind.mp h
      rw [exec_publish.mp hp]
      intro a ha
      rcases List.mem_cons.mp ha with rfl | ha
      · unfold logEvent at hev
        split at hev
        · cases hev
        · exact Option.some.inj hev ▸ rfl
      · exact ih h a ha

/-- If all but the first program publish log lines, what is shown of a trace is what is
shown of the first program's part. -/
theorem shown_acts {τ : List LifeStep}
    (h : ∀ i a, Label.act i a ∈ τ → i = 0 ∨ a.1.event.type = .log) :
    shown ((acts τ).map fun a => a.1.event) = shown ((project 0 τ).map fun a => a.1.event) := by
  induction τ with
  | nil => rfl
  | cons l τ ih =>
    have ih := ih fun i a ha => h i a (List.mem_cons_of_mem _ ha)
    rcases l with e | ⟨i, a⟩
    · rw [acts_env, project_env]
      exact ih
    · rw [acts_act, project_act]
      rcases h i a (List.mem_cons_self ..) with rfl | hlog
      · simp only [if_true, shown, List.map_cons, List.filter_cons] at ih ⊢
        split <;> simp only [ih]
      · have hskip (events : List Event) : shown (a.1.event :: events) = shown events := by
          simp [shown, content, hlog]
        split
        · rw [List.map_cons, List.map_cons, hskip, hskip, ih]
        · rw [List.map_cons, hskip, ih]

namespace Supervised

variable {wire : Wire} {stdout stderr : List UInt8} {j : Job}

/-- Only the event reader publishes anything but log lines. -/
theorem log_of_mem_trace (x : Supervised wire stdout stderr j) {i : Nat} {a : Act ReadOp.Ans}
    (h : .act i a ∈ x.trace) : i = 0 ∨ a.1.event.type = .log := by
  obtain ⟨hnum, hexec, hown⟩ := x.run.summarised_ofList x.complete
  have hi := hown i a h
  rcases Nat.lt_or_ge i 1 with hzero | hone
  · exact .inl (Nat.lt_one_iff.mp hzero)
  · obtain ⟨⟨i', out⟩, hout, rfl⟩ := List.mem_map.mp (hnum.mem_iff.mpr hi)
    obtain ⟨q, hq, he⟩ := hexec _ out hout
    obtain rfl : i' = 1 := by
      have := List.mem_range.mp hi
      simp only [List.length_cons, List.length_nil] at this hone
      omega
    obtain rfl : readLogs wire stderr = q := Option.some.inj hq
    exact .inr (log_of_exec_readLogLines he a (mem_project.mpr h))

/-- A supervised job is a run of the job it started as. -/
theorem exists_run (x : Supervised wire stdout stderr j) : ∃ ops, x.result = j.run ops := by
  have hread (τ : List LifeStep) (j : Job) : ∃ ops, τ.foldl Job.live j = j.run ops := by
    induction τ generalizing j with
    | nil => exact ⟨[], rfl⟩
    | cons l τ ih =>
      obtain ⟨ops, hops⟩ := ih (j.live l)
      rcases l with e | ⟨i, ⟨ev⟩, now⟩
      · exact ⟨e.op :: ops, hops⟩
      · exact ⟨.publish ev now :: ops, hops⟩
  obtain ⟨ops, hops⟩ := hread x.trace j
  refine ⟨ops ++ [.setState (exitState x.ctxErr x.waitErr x.sawFatal).1
    (exitState x.ctxErr x.waitErr x.sawFatal).2 x.now], ?_⟩
  unfold Job.run at hops ⊢
  rw [List.foldl_append, ← hops]
  rfl

/-- A job that had no events shows what the event reader published. -/
theorem viewOf_result (x : Supervised wire stdout stderr j) (hj : j.events = []) :
    viewOf x.result.events = viewOf x.published := by
  have hread := j.events_foldl_live x.trace
  rw [hj, List.map_nil, List.nil_append] at hread
  have hevents : shown x.result.events = shown ((acts x.trace).map fun a => a.1.event) := by
    have hresult : x.result.events = x.read.events := (x.read.setState_same ..).2.1
    rw [shown, hresult, read, hread, shown, List.map_map]
    rfl
  rw [← viewOf_shown, hevents, shown_acts fun i a ha => x.log_of_mem_trace ha]
  exact viewOf_shown _

end Supervised

end Broom.Jobs
