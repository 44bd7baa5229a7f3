import Broom.Engine.AlreadyGone

/-!
# Batches and their outcomes

The batches a region's walk passes to its nukers are the first ones of a reference
sequence that names neither errors nor the context. What is reported between one
batch and the next is the reply to it: its results, and for a bare error the
identifiers without one. A reply that is silent about an identifier and no error
either leaves that identifier without an outcome.
-/

namespace Broom.Engine

open Broom.Core Broom.Core.Pool

/-! ## The sequence of batches -/

/-- The reference sequence of a region: its resources in list order, the confirmed
identifiers of each, cut into batches. -/
def regionBatches (cn : CloudNuke) (region : String) (list : List AwsResource)
    (selected : Finset String) : List (String × List String) :=
  list.flatMap (referenceBatches cn region selected)

/-- The batches of a resource hold its confirmed identifiers in listing order. -/
theorem referenceBatches_flatten (cn : CloudNuke) (region : String) (selected : Finset String)
    (res : AwsResource) :
    (referenceBatches cn region selected res).flatMap Prod.snd =
      confirmed region selected res := by
  unfold referenceBatches
  split
  · rename_i h
    simp [h]
  · simp [List.flatMap_map, List.flatMap_id', cn.split_flatten]

/-- A batch of a resource carries its type, is not empty and keeps to its limit. -/
theorem of_mem_referenceBatches {cn : CloudNuke} {region : String} {selected : Finset String}
    {res : AwsResource} {b : String × List String}
    (h : b ∈ referenceBatches cn region selected res) :
    b.1 = res.resourceName ∧ b.2 ≠ [] ∧
      (0 < res.maxBatchSize → (b.2.length : Int) ≤ res.maxBatchSize) := by
  unfold referenceBatches at h
  split at h
  · simp at h
  · rename_i hne
    obtain ⟨batch, hb, rfl⟩ := List.mem_map.mp h
    refine ⟨rfl, ?_, fun hpos => cn.split_length _ _ hpos _ hb⟩
    rintro rfl
    exact cn.split_ne_nil _ _ hne hb

/-- The listed resources of a walk carry the region, so the reference sequence of what
was listed is one of the region's list. -/
theorem RegionWalk.listed_batches {cn : CloudNuke} {region : String} {selected : Finset String}
    {list : List AwsResource} {τ : List (Act NukeOp.Ans)} {stats stats' : NukeStats}
    (h : RegionWalk cn region selected list τ stats stats') :
    (listings τ).flatMap (fun p => referenceBatches cn p.1 selected p.2) =
      regionBatches cn region ((listings τ).map Prod.snd) selected := by
  rw [regionBatches, List.flatMap_map]
  apply List.flatMap_congr
  intro p hp
  rw [h.listings_region p hp]

/-- Whatever the nukers reply and whenever the context is done, the calls of a
region's walk are the first ones of its reference sequence. -/
theorem nukeRegionSelected_refines_batches {cn : CloudNuke} {region : String}
    {list : List AwsResource} {selected : Finset String} {τ : List (Act NukeOp.Ans)}
    {out : NukeStats × List String}
    (h : Prog.Exec (nukeRegionSelected cn region list selected) τ out) :
    (nukeCalls τ).map NukeCall.typedBatch <+: regionBatches cn region list selected ∧
      (¬ Stopped τ → (nukeCalls τ).map NukeCall.typedBatch =
        regionBatches cn region list selected) ∧
      (∀ c ∈ nukeCalls τ, c.region = region ∧ c.batch ≠ []) ∧
      ∀ res ∈ list, (referenceBatches cn region selected res).flatMap Prod.snd =
          res.resourceIdentifiers.filter
            (fun id => selectionKey res.resourceName region id ∈ selected) ∧
        ∀ b ∈ referenceBatches cn region selected res,
          0 < res.maxBatchSize → (b.2.length : Int) ≤ res.maxBatchSize := by
  obtain ⟨stats, errors⟩ := out
  have hw := nukeRegionSelected_walk h
  have hbatches : (nukeCalls τ).map NukeCall.typedBatch <+:
      regionBatches cn region list selected := by
    obtain ⟨rest, hrest⟩ := hw.listings_prefix
    refine hw.calls_prefix.trans ?_
    rw [hw.listed_batches, ← hrest, regionBatches, regionBatches, List.flatMap_append]
    exact List.prefix_append _ _
  refine ⟨hbatches, fun hgo => ?_, fun c hc => ⟨hw.calls_region c hc, ?_⟩, fun res _ => ⟨?_, ?_⟩⟩
  · rw [hw.calls_complete hgo, hw.listed_batches, hw.listings_complete hgo]
  · obtain ⟨res, -, hb⟩ := List.mem_flatMap.mp (hbatches.subset (List.mem_map_of_mem hc))
    exact (of_mem_referenceBatches hb).2.1
  · exact referenceBatches_flatten cn region selected res
  · intro b hb
    exact (of_mem_referenceBatches hb).2.2

/-- No walk is stopped by a nuker under a live context. -/
theorem not_stopped_replay (nuker : Nuker) {α : Type} (p : NukeM α) :
    ¬ Stopped (p.replay nuker.oracle).1 := fun h =>
  Bool.noConfusion (Prog.answer_of_mem_replay h)

/-- Three confirmed topics in batches of two, with a nuker that is always throttled. -/
theorem nukeRegionSelected_refines_batches_throttled :
    (nukeCalls ((nukeRegionSelected CloudNuke.standard "us-east-1"
        [⟨"sns-topic", ["a", "b", "c"], 2⟩]
        (selectionKeys [⟨"sns-topic", "us-east-1", "a"⟩, ⟨"sns-topic", "us-east-1", "b"⟩,
          ⟨"sns-topic", "us-east-1", "c"⟩])).replay
        (Nuker.oracle fun _ _ _ =>
          ([], some { message := "slow down", throttling := true }))).1).map
      NukeCall.typedBatch = [("sns-topic", ["a", "b"]), ("sns-topic", ["c"])] :=
  ((nukeRegionSelected_refines_batches (Prog.exec_replay _ _)).2.1 (not_stopped_replay _ _)).trans
    (by decide +kernel)

/-! ## What is reported between two batches -/

/-- The next batch starts with its progress report. -/
def startsBatch : Act NukeOp.Ans → Bool
  | ⟨.emit (.nukeProgress _ _ _), _⟩ => true
  | _ => false

/-- The reports before the next batch starts. -/
def reportsBefore (τ : List (Act NukeOp.Ans)) : List Report :=
  reportsOf (τ.takeWhile fun a => !startsBatch a)

/-- The calls of a walk, each with what is reported after it and before the next batch. -/
def aftermaths : List (Act NukeOp.Ans) → List (NukeCall × List Report)
  | [] => []
  | a :: τ => ((nukeCall a).map fun c => (c, reportsBefore τ)).toList ++ aftermaths τ

/-- An identifier is reported in a `resource_deleted` event. -/
def Reported (resourceType region id : String) (reports : List Report) : Prop :=
  ∃ ev ∈ reports.filterMap Report.event, ev.type = .resourceDeleted ∧
    ev.resourceType = resourceType ∧ ev.region = region ∧ ev.identifier = id

/-- Each identifier of a batch is reported before the next batch of the walk starts. -/
def ReportsEachBatch (τ : List (Act NukeOp.Ans)) : Prop :=
  ∀ p ∈ aftermaths τ, ∀ id ∈ p.1.batch, Reported p.1.resourceType p.1.region id p.2

/-- The reply to a call carries an error or a result for each identifier of the batch. -/
def NukeCall.Accounted (c : NukeCall) : Prop :=
  c.err.isSome ∨ ∀ id ∈ c.batch, id ∈ c.results.map NukeResult.identifier

/-- The reports of a call, its progress report apart. -/
def NukeCall.outcomes (c : NukeCall) : List Report :=
  c.results.map (resultReport c.resourceType c.region) ++
    bareReports c.resourceType c.region c.batch c.results c.err

@[simp] theorem aftermaths_cons (a : Act NukeOp.Ans) (τ : List (Act NukeOp.Ans)) :
    aftermaths (a :: τ) =
      ((nukeCall a).map fun c => (c, reportsBefore τ)).toList ++ aftermaths τ := rfl

@[simp] theorem aftermaths_nil : aftermaths [] = [] := rfl

@[simp] theorem reportsBefore_nil : reportsBefore [] = [] := rfl

theorem reportsBefore_cons (a : Act NukeOp.Ans) (τ : List (Act NukeOp.Ans)) :
    reportsBefore (a :: τ) =
      if startsBatch a then [] else (emitted a).toList ++ reportsBefore τ := by
  cases h : startsBatch a <;> simp [reportsBefore, h]

/-- The calls with their aftermaths are the calls. -/
theorem aftermaths_map_fst (τ : List (Act NukeOp.Ans)) :
    (aftermaths τ).map Prod.fst = nukeCalls τ := by
  induction τ with
  | nil => rfl
  | cons a τ ih =>
    rw [aftermaths_cons, nukeCalls_cons, List.map_append, ih]
    cases nukeCall a <;> rfl

/-- What follows without reports before its own first batch adds nothing to an
earlier aftermath. -/
theorem reportsBefore_append {τ τ' : List (Act NukeOp.Ans)} (h : reportsBefore τ' = []) :
    reportsBefore (τ ++ τ') = reportsBefore τ := by
  induction τ with
  | nil => exact h
  | cons a τ ih => simp only [List.cons_append, reportsBefore_cons, ih]

theorem aftermaths_append {τ τ' : List (Act NukeOp.Ans)} (h : reportsBefore τ' = []) :
    aftermaths (τ ++ τ') = aftermaths τ ++ aftermaths τ' := by
  induction τ with
  | nil => rfl
  | cons a τ ih =>
    simp only [List.cons_append, aftermaths_cons, ih, reportsBefore_append h, List.append_assoc]

/-- A trace without calls has no aftermaths. -/
theorem aftermaths_eq_nil {τ : List (Act NukeOp.Ans)} (h : nukeCalls τ = []) :
    aftermaths τ = [] := by
  rw [← List.map_eq_nil_iff, aftermaths_map_fst, h]

/-- Steps that report nothing and call nobody leave no aftermath. -/
theorem quiet_append {τ τ' : List (Act NukeOp.Ans)} (hcall : nukeCalls τ = [])
    (hrep : reportsOf τ = []) (h : reportsBefore τ' = []) :
    reportsBefore (τ ++ τ') = [] ∧ aftermaths (τ ++ τ') = aftermaths τ' := by
  have hbefore : reportsBefore τ = [] :=
    List.sublist_nil.mp (hrep ▸ (List.takeWhile_sublist _).filterMap _)
  refine ⟨(reportsBefore_append h).trans hbefore, ?_⟩
  rw [aftermaths_append h, aftermaths_eq_nil hcall, List.nil_append]

/-- Reports that start no batch are all made before the next one. -/
theorem reportsBefore_emits {reports : List Report} {τ : List (Act NukeOp.Ans)}
    (hr : ∀ r ∈ reports, startsBatch ⟨.emit r, ()⟩ = false) (h : reportsBefore τ = []) :
    reportsBefore (emits reports ++ τ) = reports := by
  induction reports with
  | nil => exact h
  | cons r rs ih =>
    have hrs := ih fun r' hr' => hr r' (List.mem_cons_of_mem _ hr')
    change reportsBefore (⟨.emit r, ()⟩ :: (emits rs ++ τ)) = _
    simp [reportsBefore_cons, hr r (List.mem_cons_self ..), hrs]

/-- The reports of a call before the next batch are its results and its bare reports. -/
theorem reportsBefore_outcomes (c : NukeCall) {τ : List (Act NukeOp.Ans)}
    (h : reportsBefore τ = []) : reportsBefore (emits c.outcomes ++ τ) = c.outcomes := by
  refine reportsBefore_emits (fun r hr => ?_) h
  rcases List.mem_append.mp hr with hr | hr
  · obtain ⟨result, -, rfl⟩ := List.mem_map.mp hr
    rfl
  · cases he : c.err with
    | none => simp [bareReports, he] at hr
    | some err =>
      rw [he] at hr
      obtain ⟨id, -, rfl⟩ := List.mem_map.mp hr
      rfl

/-- The inner loop reports each reply before its next batch, and nothing before its
first one. -/
theorem nukeBatches_aftermaths {t g : String} {batches : List (List String)}
    {stats : NukeStats} {errors : List String} {τ : List (Act NukeOp.Ans)}
    {out : NukeStats × List String × Bool}
    (h : Prog.Exec (nukeBatches t g batches stats errors) τ out) :
    reportsBefore τ = [] ∧ ∀ p ∈ aftermaths τ, p.2 = p.1.outcomes := by
  induction batches generalizing stats errors τ with
  | nil =>
    obtain ⟨rfl, -⟩ := Prog.exec_pure.mp h
    simp
  | cons batch batches ih =>
    rcases exec_nukeBatches_cons h with ⟨rfl, -⟩ | ⟨results, err, pause, τ', errors', rfl, hp, h⟩
    · exact ⟨rfl, by simp⟩
    · obtain ⟨hbefore, hrest⟩ := ih h
      have hquiet : nukeCalls pause = [] ∧ reportsOf pause = [] := by
        rcases hp with rfl | ⟨delay, rfl⟩ <;> simp
      obtain ⟨hpause, hafter⟩ := quiet_append hquiet.1 hquiet.2 hbefore
      refine ⟨rfl, fun p hmem => ?_⟩
      let c : NukeCall := ⟨t, g, batch, results, err⟩
      have hsplit : emits (results.map (resultReport t g)) ++
          emits (bareReports t g batch results err) ++ pause ++ τ' =
            emits c.outcomes ++ (pause ++ τ') := by
        simp [emits, NukeCall.outcomes, c]
      rw [hsplit] at hmem
      simp only [aftermaths_cons, nukeCall, Option.map_none, Option.map_some, Option.toList_none,
        Option.toList_some, List.nil_append, aftermaths_append hpause, hafter,
        aftermaths_eq_nil (nukeCalls_emits _), List.singleton_append, List.mem_cons] at hmem
      rcases hmem with rfl | hmem
      · exact reportsBefore_outcomes c hpause
      · exact hrest p hmem

/-- The outer loop reports each reply before its next batch, and nothing before its
first one. -/
theorem nukeResources_aftermaths {cn : CloudNuke} {region : String} {selected : Finset String}
    {list : List AwsResource} {stats : NukeStats} {errors : List String}
    {τ : List (Act NukeOp.Ans)} {out : NukeStats × List String}
    (h : Prog.Exec (nukeResources cn region selected list stats errors) τ out) :
    reportsBefore τ = [] ∧ ∀ p ∈ aftermaths τ, p.2 = p.1.outcomes := by
  induction list generalizing stats errors τ with
  | nil =>
    obtain ⟨rfl, -⟩ := Prog.exec_pure.mp h
    simp
  | cons res list ih =>
    obtain ⟨-, -, hr, hc, -⟩ := filtering_facts region selected res
    rcases exec_nukeResources_cons h with ⟨rfl, -⟩ | ⟨stats₁, -, ⟨-, τ', rfl, hrest⟩ |
      ⟨-, τ₁, stats₂, errors₂, stopped, hb, ⟨-, rfl, -⟩ | ⟨-, τ₂, rfl, hrest⟩⟩⟩
    · exact ⟨rfl, by simp⟩
    · obtain ⟨hbefore, hafter⟩ := ih hrest
      obtain ⟨hq, hmap⟩ := quiet_append hc hr hbefore
      exact ⟨hq, hmap ▸ hafter⟩
    · obtain ⟨hbefore, hafter⟩ := nukeBatches_aftermaths hb
      obtain ⟨hq, hmap⟩ := quiet_append hc hr hbefore
      exact ⟨hq, hmap ▸ hafter⟩
    · obtain ⟨hbefore₂, hafter₂⟩ := ih hrest
      obtain ⟨hbefore₁, hafter₁⟩ := nukeBatches_aftermaths hb
      obtain ⟨hq, hmap⟩ := quiet_append hc hr ((reportsBefore_append hbefore₂).trans hbefore₁)
      refine ⟨hq, ?_⟩
      rw [hmap, aftermaths_append hbefore₂]
      intro p hp
      exact (List.mem_append.mp hp).elim (hafter₁ p) (hafter₂ p)

/-! ## Which replies leave an identifier without an outcome -/

/-- A reply reports an identifier of its batch exactly if it carries an error or a
result for it. -/
theorem NukeCall.reported_iff (c : NukeCall) {id : String} (hid : id ∈ c.batch) :
    Reported c.resourceType c.region id c.outcomes ↔
      c.err.isSome ∨ id ∈ c.results.map NukeResult.identifier := by
  constructor
  · rintro ⟨ev, hev, -, -, -, rfl⟩
    obtain ⟨r, hr, he⟩ := List.mem_filterMap.mp hev
    rcases List.mem_append.mp hr with hr | hr
    · obtain ⟨result, hres, rfl⟩ := List.mem_map.mp hr
      obtain rfl := Option.some.inj he
      exact Or.inr (List.mem_map_of_mem hres)
    · cases herr : c.err with
      | none => simp [bareReports, herr] at hr
      | some err => exact Or.inl rfl
  · intro h
    by_cases hres : id ∈ c.results.map NukeResult.identifier
    · obtain ⟨result, hmem, rfl⟩ := List.mem_map.mp hres
      exact ⟨_, List.mem_filterMap.mpr ⟨_, List.mem_append_left _ (List.mem_map_of_mem hmem), rfl⟩,
        rfl, rfl, rfl, rfl⟩
    · obtain ⟨err, herr⟩ := Option.isSome_iff_exists.mp (h.resolve_right hres)
      refine ⟨_, List.mem_filterMap.mpr ⟨.resourceDeleted c.resourceType c.region id false
        err.warning err.message, List.mem_append_right _ ?_, rfl⟩, rfl, rfl, rfl, rfl⟩
      rw [herr]
      exact List.mem_map_of_mem (List.mem_filter.mpr ⟨hid, decide_eq_true hres⟩)

/-- A region's walk reports each batch before the next one exactly if every reply
accounts for its batch. -/
theorem reportsEachBatch_iff {cn : CloudNuke} {region : String} {list : List AwsResource}
    {selected : Finset String} {τ : List (Act NukeOp.Ans)} {out : NukeStats × List String}
    (h : Prog.Exec (nukeRegionSelected cn region list selected) τ out) :
    ReportsEachBatch τ ↔ ∀ c ∈ nukeCalls τ, c.Accounted := by
  have hafter := (nukeResources_aftermaths h).2
  have heach : ∀ p ∈ aftermaths τ,
      (∀ id ∈ p.1.batch, Reported p.1.resourceType p.1.region id p.2) ↔ p.1.Accounted := by
    intro p hp
    rw [hafter p hp]
    constructor
    · intro hall
      by_cases herr : p.1.err.isSome
      · exact Or.inl herr
      · exact Or.inr fun id hid => ((p.1.reported_iff hid).mp (hall id hid)).resolve_left herr
    · exact fun hacc id hid => (p.1.reported_iff hid).mpr (hacc.imp_right fun h => h id hid)
  rw [ReportsEachBatch, ← aftermaths_map_fst, List.forall_mem_map]
  exact forall₂_congr heach

/-- In a complete pool of walks every part of the trace is a walk's, or empty. -/
theorem reportsEachBatch_project_iff {cn : CloudNuke} {account : Account}
    {selected : Finset String} {regions : List String} {limit : Nat} {τ : List Step}
    {r : Pool NukeOp NukeOp.Ans (NukeStats × List String)}
    (hrun : Pool.Run limit (Pool.ofList (regionWalks cn account selected regions)) τ r)
    (hc : r.Complete) (i : Nat) :
    ReportsEachBatch (project i τ) ↔ ∀ c ∈ nukeCalls (project i τ), c.Accounted := by
  obtain ⟨hn, he, ho⟩ := hrun.summarised_ofList hc
  by_cases hi : i ∈ r.finished.map Prod.fst
  · obtain ⟨⟨_, out⟩, hmem, rfl⟩ := List.mem_map.mp hi
    obtain ⟨q, hq, hexec⟩ := he _ out hmem
    obtain ⟨region, -, rfl⟩ := List.mem_map.mp (List.mem_of_getElem? hq)
    exact reportsEachBatch_iff hexec
  · have hnil : project i τ = [] := project_eq_nil fun a ha => hi (hn.mem_iff.mpr (ho i a ha))
    simp [hnil, ReportsEachBatch]

theorem mem_nukeCalls_acts {c : NukeCall} {τ : List Step} :
    c ∈ nukeCalls (acts τ) ↔ ∃ i, c ∈ nukeCalls (project i τ) := by
  simp only [nukeCalls, List.mem_filterMap, mem_acts, mem_project]
  constructor
  · rintro ⟨a, ⟨i, hi⟩, hc⟩
    exact ⟨i, a, hi, hc⟩
  · rintro ⟨i, a, hi, hc⟩
    exact ⟨a, ⟨i, hi⟩, hc⟩

/-- What a call's replies account for is in the reports of a run that reports all of it. -/
theorem Reported.mono {t g id : String} {reports reports' : List Report}
    (h : Reported t g id reports) (hsub : reports ⊆ reports') : Reported t g id reports' := by
  obtain ⟨ev, hev, hfields⟩ := h
  obtain ⟨r, hr, he⟩ := List.mem_filterMap.mp hev
  exact ⟨ev, List.mem_filterMap.mpr ⟨r, hsub hr, he⟩, hfields⟩

namespace NukeSelected

variable {cn : CloudNuke} {account : Account} {regions : List String} {selected : Finset String}
  {parallelism : Int}

/-- Everything reported for a call is reported by the run. -/
theorem outcomes_subset_reports (run : NukeSelected cn account regions selected parallelism)
    {c : NukeCall} (hc : c ∈ nukeCalls (acts run.trace)) : c.outcomes ⊆ run.reports := by
  have hpool {regions : List String} {τ : List Step}
      {finished : List (Nat × NukeStats × List String)}
      (hw : Walks cn account selected regions τ finished) (hc : c ∈ nukeCalls (acts τ)) :
      c.outcomes ⊆ reportsOf (acts τ) := by
    intro report hrep
    obtain ⟨i, hi⟩ := mem_nukeCalls_acts.mp hc
    obtain ⟨a, ha, -⟩ := List.mem_filterMap.mp hi
    obtain ⟨region, -, stats, hwalk⟩ := hw.of_mem_project ha
    have hmem : report ∈ reportsOf (project i τ) := by
      rw [hwalk.reports]
      exact List.mem_flatMap.mpr ⟨c, hi, List.mem_cons_of_mem _ hrep⟩
    exact ((project_sublist_acts i τ).filterMap emitted).subset hmem
  intro report hrep
  have hworld : run.world.reports =
      reportsOf (acts run.regional) ++ reportsOf (acts run.global) := by
    rw [(World.run_eq run.world_run).2.1, acts_append, reportsOf_append]
    rfl
  rw [trace, acts_append, nukeCalls_append, List.mem_append] at hc
  rw [reports, hworld]
  refine List.mem_append_left _ (List.mem_append.mpr ?_)
  exact hc.imp (fun h => hpool run.regional_walks h hrep) fun h => hpool run.global_walks h hrep

/-- Every attempted identifier gets an outcome before the next batch of its region,
and the run ends with a result for each, exactly if every reply carries an error or
a result for each identifier of its batch. -/
theorem every_attempt_reported_iff
    (run : NukeSelected cn account regions selected parallelism) :
    ((∀ i, ReportsEachBatch (project i run.regional) ∧ ReportsEachBatch (project i run.global)) ∧
      ∀ c ∈ nukeCalls (acts run.trace), ∀ id ∈ c.batch,
        Reported c.resourceType c.region id run.reports) ↔
    ∀ c ∈ nukeCalls (acts run.trace), c.Accounted := by
  have hregional := reportsEachBatch_project_iff run.regional_run run.regional_complete
  have hglobal := reportsEachBatch_project_iff run.global_run run.global_complete
  have hcalls {c : NukeCall} : c ∈ nukeCalls (acts run.trace) ↔
      ∃ i, c ∈ nukeCalls (project i run.regional) ∨ c ∈ nukeCalls (project i run.global) := by
    rw [trace, acts_append, nukeCalls_append, List.mem_append, mem_nukeCalls_acts,
      mem_nukeCalls_acts, ← exists_or]
  constructor
  · rintro ⟨heach, -⟩ c hc
    obtain ⟨i, hi | hi⟩ := hcalls.mp hc
    · exact (hregional i).mp (heach i).1 c hi
    · exact (hglobal i).mp (heach i).2 c hi
  · intro hacc
    refine ⟨fun i => ⟨?_, ?_⟩, fun c hc id hid => ?_⟩
    · exact (hregional i).mpr fun c hc => hacc c (hcalls.mpr ⟨i, Or.inl hc⟩)
    · exact (hglobal i).mpr fun c hc => hacc c (hcalls.mpr ⟨i, Or.inr hc⟩)
    · have hrep := (c.reported_iff hid).mpr ((hacc c hc).imp_right fun h => h id hid)
      exact hrep.mono (run.outcomes_subset_reports hc)

end NukeSelected

/-! ## A silent reply -/

/-- A nuker that replies neither a result nor an error. -/
def silentNuker : Nuker := fun _ _ _ => ([], none)

/-- There is no global region to walk. -/
theorem silentRun_global : Pool.Run 1 (Pool.ofList (regionWalks CloudNuke.standard
    (fun _ => [topic]) (selectionKeys [⟨"sns-topic", "us-east-1", "a"⟩]) (globals ["us-east-1"])))
    ([] : List Step) ⟨[], [], []⟩ := .refl _

theorem silentRun_global_complete :
    (⟨[], [], []⟩ : Pool NukeOp NukeOp.Ans (NukeStats × List String)).Complete := rfl

/-- One topic is confirmed and passed to the silent nuker. -/
def silentRun : NukeSelected CloudNuke.standard (fun _ => [topic]) ["us-east-1"]
    (selectionKeys [⟨"sns-topic", "us-east-1", "a"⟩]) 1 where
  regional := ((nukeRegionSelected CloudNuke.standard "us-east-1" [topic]
    (selectionKeys [⟨"sns-topic", "us-east-1", "a"⟩])).replay silentNuker.oracle).1.map (.act 0)
  regionalEnd := ⟨[], [], [(0, { attempted := 1 }, [])]⟩
  regional_run := Run.single Nat.one_pos (Prog.exec_replay silentNuker.oracle _)
  regional_complete := rfl
  global := []
  globalEnd := ⟨[], [], []⟩
  global_run := silentRun_global
  global_complete := silentRun_global_complete
  world := { seen := {selectionKey "sns-topic" "us-east-1" "a"}
             reports := [.nukeProgress "sns-topic" "us-east-1" 1] }
  world_run := rfl
  gone := []
  gone_perm := by simp [selectionKeys, Selection.key]

/-- The topic is attempted in a run without errors that is never cancelled, and no
event reports it. -/
theorem silentRun_unreported :
    silentRun.world.ctxDone = false ∧ silentRun.errors = [] ∧
      ∃ c ∈ nukeCalls (acts silentRun.trace), ∃ id ∈ c.batch,
        ¬ Reported c.resourceType c.region id silentRun.reports := by
  refine ⟨rfl, rfl, ⟨"sns-topic", "us-east-1", ["a"], [], none⟩, by decide +kernel, "a",
    by decide, ?_⟩
  rintro ⟨ev, hev, htype, -⟩
  have hprogress : ev.type = .nukeProgress := by
    obtain ⟨r, hr, he⟩ := List.mem_filterMap.mp hev
    obtain rfl := List.mem_singleton.mp hr
    exact Option.some.inj he ▸ rfl
  rw [hprogress] at htype
  cases htype

end Broom.Engine
