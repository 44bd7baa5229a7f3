import Broom.Engine.Nuke

/-!
# What one region's walk does

Every execution of `nukeRegionSelected` is described by four projections of its
trace: the resources it listed, the keys it marked, the calls it made to nukers
and the reports it emitted. The listed resources are a prefix of the region's
list, the marked keys are their confirmed ones, the calls are a prefix of the
reference batches, and the reports are those of the calls. A walk that never
meets a done context does all of it.
-/

namespace Broom.Engine

open Broom.Core

/-- One call of a nuker with its reply. -/
structure NukeCall where
  resourceType : String
  region : String
  batch : List String
  results : List NukeResult
  err : Option GoError
  deriving DecidableEq, Repr

/-- The reports that belong to a call. -/
def NukeCall.reports (c : NukeCall) : List Report :=
  .nukeProgress c.resourceType c.region c.batch.length ::
    (c.results.map (resultReport c.resourceType c.region) ++
      bareReports c.resourceType c.region c.batch c.results c.err)

/-- The key a step marks as seen. -/
def markedKey : Act NukeOp.Ans → Option String
  | ⟨.markSeen key, _⟩ => some key
  | _ => none

/-- The report a step emits. -/
def emitted : Act NukeOp.Ans → Option Report
  | ⟨.emit report, _⟩ => some report
  | _ => none

/-- The call a step makes. -/
def nukeCall : Act NukeOp.Ans → Option NukeCall
  | ⟨.nuke t g batch, (results, err)⟩ => some ⟨t, g, batch, results, err⟩
  | _ => none

/-- The resource a step lists, with its region. -/
def listedResource : Act NukeOp.Ans → Option (String × AwsResource)
  | ⟨.resourceIdentifiers region res, _⟩ => some (region, res)
  | _ => none

/-- The keys a trace marks as seen. -/
def marks (τ : List (Act NukeOp.Ans)) : List String := τ.filterMap markedKey

/-- The reports of a trace. -/
def reportsOf (τ : List (Act NukeOp.Ans)) : List Report := τ.filterMap emitted

/-- The calls of a trace. -/
def nukeCalls (τ : List (Act NukeOp.Ans)) : List NukeCall := τ.filterMap nukeCall

/-- The resources a trace lists. -/
def listings (τ : List (Act NukeOp.Ans)) : List (String × AwsResource) :=
  τ.filterMap listedResource

/-- The walk met a done context. -/
def Stopped (τ : List (Act NukeOp.Ans)) : Prop := ⟨.ctxErr, true⟩ ∈ τ

/-- The confirmed ones among the identifiers of a resource. -/
def confirmed (region : String) (selected : Finset String) (res : AwsResource) : List String :=
  res.resourceIdentifiers.filter fun id => selectionKey res.resourceName region id ∈ selected

/-- The keys of all identifiers a resource lists. -/
def AwsResource.keys (region : String) (res : AwsResource) : List String :=
  res.resourceIdentifiers.map (selectionKey res.resourceName region)

/-- The keys of the confirmed identifiers of a resource. -/
def confirmedKeys (region : String) (selected : Finset String) (res : AwsResource) :
    List String := (confirmed region selected res).map (selectionKey res.resourceName region)

/-- The batches an undisturbed walk passes to the nuker of a resource. -/
def referenceBatches (cn : CloudNuke) (region : String) (selected : Finset String)
    (res : AwsResource) : List (String × List String) :=
  if confirmed region selected res = [] then []
  else (cn.split (confirmed region selected res) res.maxBatchSize).map (res.resourceName, ·)

/-- The type and the batch of a call. -/
def NukeCall.typedBatch (c : NukeCall) : String × List String := (c.resourceType, c.batch)

/-! ## Single operations -/

section operations

variable {τ : List (Act NukeOp.Ans)}

@[simp] theorem exec_ctxErr {done : Bool} : Prog.Exec ctxErr τ done ↔ τ = [⟨.ctxErr, done⟩] :=
  Prog.exec_perform

@[simp] theorem exec_resourceIdentifiers {region : String} {res : AwsResource} {u : Unit} :
    Prog.Exec (resourceIdentifiers region res) τ u ↔ τ = [⟨.resourceIdentifiers region res, ()⟩] :=
  Prog.exec_perform

@[simp] theorem exec_markSeen {key : String} {u : Unit} :
    Prog.Exec (markSeen key) τ u ↔ τ = [⟨.markSeen key, ()⟩] := Prog.exec_perform

@[simp] theorem exec_emit {report : Report} {u : Unit} :
    Prog.Exec (emit report) τ u ↔ τ = [⟨.emit report, ()⟩] := Prog.exec_perform

@[simp] theorem exec_nuke {t g : String} {batch : List String}
    {reply : List NukeResult × Option GoError} :
    Prog.Exec (nuke t g batch) τ reply ↔ τ = [⟨.nuke t g batch, reply⟩] := Prog.exec_perform

@[simp] theorem exec_sleepCtx {delay : Delay} {u : Unit} :
    Prog.Exec (sleepCtx delay) τ u ↔ τ = [⟨.sleepCtx delay, ()⟩] := Prog.exec_perform

@[simp] theorem exec_emitAll {reports : List Report} {u : Unit} :
    Prog.Exec (emitAll reports) τ u ↔ τ = reports.map fun r => ⟨.emit r, ()⟩ := by
  induction reports generalizing τ with
  | nil => simp [emitAll]
  | cons r rs ih => simp [emitAll, Prog.exec_bind, ih]

end operations

@[simp] theorem marks_cons (a : Act NukeOp.Ans) (τ : List (Act NukeOp.Ans)) :
    marks (a :: τ) = (markedKey a).toList ++ marks τ := by
  cases h : markedKey a <;> simp [marks, h]

@[simp] theorem reportsOf_cons (a : Act NukeOp.Ans) (τ : List (Act NukeOp.Ans)) :
    reportsOf (a :: τ) = (emitted a).toList ++ reportsOf τ := by
  cases h : emitted a <;> simp [reportsOf, h]

@[simp] theorem nukeCalls_cons (a : Act NukeOp.Ans) (τ : List (Act NukeOp.Ans)) :
    nukeCalls (a :: τ) = (nukeCall a).toList ++ nukeCalls τ := by
  cases h : nukeCall a <;> simp [nukeCalls, h]

@[simp] theorem listings_cons (a : Act NukeOp.Ans) (τ : List (Act NukeOp.Ans)) :
    listings (a :: τ) = (listedResource a).toList ++ listings τ := by
  cases h : listedResource a <;> simp [listings, h]

@[simp] theorem stopped_cons (a : Act NukeOp.Ans) (τ : List (Act NukeOp.Ans)) :
    Stopped (a :: τ) ↔ a = ⟨.ctxErr, true⟩ ∨ Stopped τ := by
  simp [Stopped, eq_comm]

attribute [simp] markedKey emitted nukeCall listedResource

@[simp] theorem marks_nil : marks [] = [] := rfl
@[simp] theorem reportsOf_nil : reportsOf [] = [] := rfl
@[simp] theorem nukeCalls_nil : nukeCalls [] = [] := rfl
@[simp] theorem listings_nil : listings [] = [] := rfl
@[simp] theorem not_stopped_nil : ¬ Stopped [] := by simp [Stopped]

@[simp] theorem marks_append (τ τ' : List (Act NukeOp.Ans)) :
    marks (τ ++ τ') = marks τ ++ marks τ' := List.filterMap_append

@[simp] theorem reportsOf_append (τ τ' : List (Act NukeOp.Ans)) :
    reportsOf (τ ++ τ') = reportsOf τ ++ reportsOf τ' := List.filterMap_append

@[simp] theorem nukeCalls_append (τ τ' : List (Act NukeOp.Ans)) :
    nukeCalls (τ ++ τ') = nukeCalls τ ++ nukeCalls τ' := List.filterMap_append

@[simp] theorem listings_append (τ τ' : List (Act NukeOp.Ans)) :
    listings (τ ++ τ') = listings τ ++ listings τ' := List.filterMap_append

@[simp] theorem stopped_append (τ τ' : List (Act NukeOp.Ans)) :
    Stopped (τ ++ τ') ↔ Stopped τ ∨ Stopped τ' := List.mem_append

/-- A trace that only reports. -/
def emits (reports : List Report) : List (Act NukeOp.Ans) := reports.map fun r => ⟨.emit r, ()⟩

@[simp] theorem marks_emits (reports : List Report) : marks (emits reports) = [] := by
  induction reports with
  | nil => rfl
  | cons r rs ih => simpa [emits] using ih

@[simp] theorem reportsOf_emits (reports : List Report) : reportsOf (emits reports) = reports := by
  induction reports with
  | nil => rfl
  | cons r rs ih => simpa [emits] using ih

@[simp] theorem nukeCalls_emits (reports : List Report) : nukeCalls (emits reports) = [] := by
  induction reports with
  | nil => rfl
  | cons r rs ih => simpa [emits] using ih

@[simp] theorem listings_emits (reports : List Report) : listings (emits reports) = [] := by
  induction reports with
  | nil => rfl
  | cons r rs ih => simpa [emits] using ih

@[simp] theorem not_stopped_emits (reports : List Report) : ¬ Stopped (emits reports) := by
  simp [emits, Stopped]

/-! ## The loops -/

/-- What the inner loop does with the batches of one resource. -/
structure BatchWalk (resourceType region : String) (batches : List (List String))
    (τ : List (Act NukeOp.Ans)) (stats stats' : NukeStats) (stopped : Bool) : Prop where
  listings : listings τ = []
  marks : marks τ = []
  reports : reportsOf τ = (nukeCalls τ).flatMap NukeCall.reports
  calls_region : ∀ c ∈ nukeCalls τ, c.region = region
  calls_prefix : (nukeCalls τ).map NukeCall.typedBatch <+: batches.map (resourceType, ·)
  calls_complete : ¬ Stopped τ →
    (nukeCalls τ).map NukeCall.typedBatch = batches.map (resourceType, ·)
  stopped_iff : stopped = true ↔ Stopped τ
  stats_eq : stats' = { stats with
    attempted := stats.attempted + ((nukeCalls τ).map fun c => c.batch.length).sum }

/-- The pause after a batch leaves no trace but itself. -/
private theorem exec_pause {t g : String} {batches : List (List String)} {stats : NukeStats}
    {errors : List String} {τ : List (Act NukeOp.Ans)}
    {out : NukeStats × List String × Bool} {delay : Delay} {p : Prop} [Decidable p]
    (h : Prog.Exec (if p then do sleepCtx delay; nukeBatches t g batches stats errors
      else nukeBatches t g batches stats errors) τ out) :
    ∃ pause, (pause = [] ∨ pause = [⟨.sleepCtx delay, ()⟩]) ∧ ∃ τ', τ = pause ++ τ' ∧
      Prog.Exec (nukeBatches t g batches stats errors) τ' out := by
  split at h
  · obtain ⟨τ₁, _, τ₂, rfl, hs, h⟩ := Prog.exec_bind.mp h
    exact ⟨τ₁, Or.inr (exec_sleepCtx.mp hs), τ₂, rfl, h⟩
  · exact ⟨[], Or.inl rfl, τ, rfl, h⟩

/-- One turn of the inner loop, whatever the reply: the call, its reports, at most
one pause, and the rest of the loop with some errors collected. -/
theorem exec_nukeBatches_cons {t g : String} {batch : List String}
    {batches : List (List String)} {stats : NukeStats} {errors : List String}
    {τ : List (Act NukeOp.Ans)} {out : NukeStats × List String × Bool}
    (h : Prog.Exec (nukeBatches t g (batch :: batches) stats errors) τ out) :
    (τ = [⟨.ctxErr, true⟩] ∧ out = (stats, [ctxCanceled], true)) ∨
    ∃ results err pause τ' errors',
      τ = ⟨.ctxErr, false⟩ :: ⟨.emit (.nukeProgress t g batch.length), ()⟩ ::
        ⟨.nuke t g batch, (results, err)⟩ ::
        (emits (results.map (resultReport t g)) ++
          emits (bareReports t g batch results err) ++ pause ++ τ') ∧
      (pause = [] ∨ ∃ delay, pause = [⟨.sleepCtx delay, ()⟩]) ∧
      Prog.Exec (nukeBatches t g batches
        { stats with attempted := stats.attempted + batch.length } errors') τ' out := by
  simp only [nukeBatches, Prog.exec_bind, exec_ctxErr] at h
  obtain ⟨_, done, τ₀, rfl, rfl, h⟩ := h
  cases done with
  | true =>
    simp only [ite_true, Prog.exec_pure] at h
    exact Or.inl ⟨by simp [h.1], h.2.symm⟩
  | false =>
    simp only [Bool.false_eq_true, ite_false, Prog.exec_bind, exec_emit, exec_nuke,
      exec_emitAll] at h
    obtain ⟨_, _, τ₁, rfl, rfl, _, ⟨results, err⟩, τ₂, rfl, rfl, _, _, τ₃, rfl, rfl,
      _, _, τ₄, rfl, rfl, h⟩ := h
    refine Or.inr ⟨results, err, ?_⟩
    have hnext : ∃ pause τ' errors', τ₄ = pause ++ τ' ∧
        (pause = [] ∨ ∃ delay, pause = [⟨.sleepCtx delay, ()⟩]) ∧
        Prog.Exec (nukeBatches t g batches
          { stats with attempted := stats.attempted + batch.length } errors') τ' out := by
      cases err with
      | none =>
        obtain ⟨pause, hp, τ', rfl, hrest⟩ := exec_pause h
        exact ⟨pause, τ', _, rfl, hp.imp_right fun he => ⟨_, he⟩, hrest⟩
      | some e =>
        dsimp only at h
        split at h
        · obtain ⟨pause, _, τ', rfl, hs, hrest⟩ := Prog.exec_bind.mp h
          exact ⟨pause, τ', _, rfl, Or.inr ⟨_, exec_sleepCtx.mp hs⟩, hrest⟩
        · obtain ⟨pause, hp, τ', rfl, hrest⟩ := exec_pause h
          exact ⟨pause, τ', _, rfl, hp.imp_right fun he => ⟨_, he⟩, hrest⟩
    obtain ⟨pause, τ', errors', rfl, hp, h⟩ := hnext
    exact ⟨pause, τ', errors', by simp [emits], hp, h⟩

/-- Every execution of the inner loop calls the nuker on a prefix of the batches,
and on all of them unless it met a done context. -/
theorem nukeBatches_walk {t g : String} {batches : List (List String)}
    {stats stats' : NukeStats} {errors errors' : List String} {τ : List (Act NukeOp.Ans)}
    {stopped : Bool}
    (h : Prog.Exec (nukeBatches t g batches stats errors) τ (stats', errors', stopped)) :
    BatchWalk t g batches τ stats stats' stopped := by
  induction batches generalizing stats errors τ with
  | nil =>
    simp only [nukeBatches, Prog.exec_pure, Prod.mk.injEq] at h
    obtain ⟨rfl, rfl, -, rfl⟩ := h
    exact ⟨rfl, rfl, rfl, by simp, by simp, by simp, by simp, by simp⟩
  | cons batch batches ih =>
    rcases exec_nukeBatches_cons h with ⟨rfl, he⟩ | ⟨results, err, pause, τ', errors', rfl, hp, h⟩
    · obtain ⟨rfl, -, rfl⟩ : stats' = stats ∧ _ ∧ stopped = true := by simpa using he
      exact ⟨rfl, rfl, rfl, by simp, by simp, by simp, by simp, by simp⟩
    · have hw := ih h
      have hpause : marks pause = [] ∧ reportsOf pause = [] ∧ nukeCalls pause = [] ∧
          listings pause = [] ∧ ¬ Stopped pause := by
        rcases hp with rfl | ⟨delay, rfl⟩ <;> simp
      refine ⟨by simp [hpause, hw.listings], by simp [hpause, hw.marks], ?_, ?_, ?_, ?_, ?_, ?_⟩
      · simp [hpause, hw.reports, NukeCall.reports]
      · simpa [hpause] using hw.calls_region
      · simpa [hpause, NukeCall.typedBatch] using hw.calls_prefix
      · simpa [hpause, NukeCall.typedBatch] using hw.calls_complete
      · simpa [hpause] using hw.stopped_iff
      · simp [hpause, hw.stats_eq, Nat.add_assoc]

/-- The filter loop keeps the confirmed identifiers in listing order, marks exactly
their keys and counts the others. -/
theorem exec_confirmedIds {t g : String} {selected : Finset String} {ids : List String}
    {stats : NukeStats} {τ : List (Act NukeOp.Ans)} {out : List String × NukeStats} :
    Prog.Exec (confirmedIds t g selected ids stats) τ out ↔
      τ = (ids.filter fun id => selectionKey t g id ∈ selected).map
        (fun id => ⟨.markSeen (selectionKey t g id), ()⟩) ∧
      out = (ids.filter fun id => selectionKey t g id ∈ selected,
        { stats with notSelected := stats.notSelected +
            (ids.filter fun id => selectionKey t g id ∉ selected).length }) := by
  induction ids generalizing stats τ out with
  | nil => simp [confirmedIds, eq_comm]
  | cons id ids ih =>
    by_cases hsel : selectionKey t g id ∈ selected
    · simp only [confirmedIds, hsel, ite_true, Prog.exec_bind, exec_markSeen, ih, Prog.exec_pure]
      constructor
      · rintro ⟨_, _, _, rfl, rfl, _, _, _, rfl, ⟨rfl, rfl⟩, rfl, rfl⟩
        simp [hsel]
      · rintro ⟨rfl, rfl⟩
        refine ⟨[⟨.markSeen (selectionKey t g id), ()⟩], (), _, ?_, rfl, _, _, [],
          (List.append_nil _).symm, ⟨rfl, rfl⟩, rfl, by simp [hsel]⟩
        simp [hsel]
    · have hcount (n m : Nat) : n + 1 + m = n + (m + 1) := by omega
      simp only [confirmedIds, hsel, ite_false, ih]
      simp [hsel, hcount]

/-- The identifiers of a resource that were not confirmed. -/
def unconfirmed (region : String) (selected : Finset String) (res : AwsResource) : List String :=
  res.resourceIdentifiers.filter fun id => selectionKey res.resourceName region id ∉ selected

/-- What a region's walk does with its resources. -/
structure RegionWalk (cn : CloudNuke) (region : String) (selected : Finset String)
    (list : List AwsResource) (τ : List (Act NukeOp.Ans)) (stats stats' : NukeStats) : Prop where
  listings_region : ∀ p ∈ listings τ, p.1 = region
  listings_prefix : (listings τ).map Prod.snd <+: list
  listings_complete : ¬ Stopped τ → (listings τ).map Prod.snd = list
  marks : marks τ = (listings τ).flatMap fun p => confirmedKeys p.1 selected p.2
  reports : reportsOf τ = (nukeCalls τ).flatMap NukeCall.reports
  calls_region : ∀ c ∈ nukeCalls τ, c.region = region
  calls_prefix : (nukeCalls τ).map NukeCall.typedBatch <+:
    (listings τ).flatMap fun p => referenceBatches cn p.1 selected p.2
  calls_complete : ¬ Stopped τ → (nukeCalls τ).map NukeCall.typedBatch =
    (listings τ).flatMap fun p => referenceBatches cn p.1 selected p.2
  stats_eq : stats' = { stats with
    attempted := stats.attempted + ((nukeCalls τ).map fun c => c.batch.length).sum
    notSelected := stats.notSelected +
      ((listings τ).map fun p => (unconfirmed p.1 selected p.2).length).sum }

/-- The part of a walk in which a resource is filtered. -/
def filtering (region : String) (selected : Finset String) (res : AwsResource) :
    List (Act NukeOp.Ans) :=
  ⟨.ctxErr, false⟩ :: ⟨.resourceIdentifiers region res, ()⟩ ::
    (confirmed region selected res).map fun id =>
      ⟨.markSeen (selectionKey res.resourceName region id), ()⟩

theorem filtering_facts (region : String) (selected : Finset String) (res : AwsResource) :
    listings (filtering region selected res) = [(region, res)] ∧
      marks (filtering region selected res) = confirmedKeys region selected res ∧
      reportsOf (filtering region selected res) = [] ∧
      nukeCalls (filtering region selected res) = [] ∧
      ¬ Stopped (filtering region selected res) := by
  have hmap (ids : List String) : ∀ τ : List (Act NukeOp.Ans),
      τ = ids.map (fun id => ⟨.markSeen (selectionKey res.resourceName region id), ()⟩) →
      listings τ = [] ∧ marks τ = ids.map (selectionKey res.resourceName region) ∧
        reportsOf τ = [] ∧ nukeCalls τ = [] ∧ ¬ Stopped τ := by
    induction ids with
    | nil => simp
    | cons id ids ih =>
      rintro τ rfl
      simpa using ih _ rfl
  simpa [filtering, confirmedKeys] using hmap _ _ rfl

/-- The outer loop at a resource: it stops at a done context, or filters the
resource, walks its batches if any are left, and goes on unless these stopped. -/
theorem exec_nukeResources_cons {cn : CloudNuke} {region : String}
    {selected : Finset String} {res : AwsResource} {list : List AwsResource}
    {stats : NukeStats} {errors : List String} {τ : List (Act NukeOp.Ans)}
    {out : NukeStats × List String}
    (h : Prog.Exec (nukeResources cn region selected (res :: list) stats errors) τ out) :
    (τ = [⟨.ctxErr, true⟩] ∧ out.1 = stats) ∨
    ∃ stats₁, stats₁ = { stats with notSelected := stats.notSelected +
        (unconfirmed region selected res).length } ∧
      ((confirmed region selected res = [] ∧ ∃ τ', τ = filtering region selected res ++ τ' ∧
          Prog.Exec (nukeResources cn region selected list stats₁ errors) τ' out) ∨
        (confirmed region selected res ≠ [] ∧ ∃ τ₁ stats₂ errors₂ stopped,
          Prog.Exec (nukeBatches res.resourceName region
            (cn.split (confirmed region selected res) res.maxBatchSize) stats₁ errors)
            τ₁ (stats₂, errors₂, stopped) ∧
          ((stopped = true ∧ τ = filtering region selected res ++ τ₁ ∧ out.1 = stats₂) ∨
            (stopped = false ∧ ∃ τ₂, τ = filtering region selected res ++ (τ₁ ++ τ₂) ∧
              Prog.Exec (nukeResources cn region selected list stats₂ errors₂) τ₂ out)))) := by
  simp only [nukeResources, Prog.exec_bind, exec_ctxErr] at h
  obtain ⟨_, done, τ₀, rfl, rfl, h⟩ := h
  cases done with
  | true =>
    simp only [ite_true, Prog.exec_pure] at h
    exact Or.inl ⟨by simp [h.1], by simp [← h.2]⟩
  | false =>
    simp only [Bool.false_eq_true, ite_false, Prog.exec_bind, exec_resourceIdentifiers,
      exec_confirmedIds] at h
    obtain ⟨_, _, τ₁, rfl, rfl, _, _, τ₂, rfl, ⟨rfl, rfl⟩, h⟩ := h
    refine Or.inr ⟨_, rfl, ?_⟩
    split at h
    · rename_i hnil
      exact Or.inl ⟨hnil, τ₂, by simp [filtering, confirmed], h⟩
    · rename_i hne
      obtain ⟨τ₃, ⟨stats₂, errors₂, stopped⟩, τ₄, rfl, hb, h⟩ := Prog.exec_bind.mp h
      refine Or.inr ⟨hne, τ₃, stats₂, errors₂, stopped, hb, ?_⟩
      cases stopped with
      | true =>
        simp only [ite_true, Prog.exec_pure] at h
        exact Or.inl ⟨rfl, by simp [filtering, confirmed, h.1], by simp [← h.2]⟩
      | false => exact Or.inr ⟨rfl, τ₄, by simp [filtering, confirmed], h⟩

/-- Every execution of the outer loop has the form the walk's description gives. -/
theorem nukeResources_walk {cn : CloudNuke} {region : String} {selected : Finset String}
    {list : List AwsResource} {stats stats' : NukeStats} {errors errors' : List String}
    {τ : List (Act NukeOp.Ans)}
    (h : Prog.Exec (nukeResources cn region selected list stats errors) τ (stats', errors')) :
    RegionWalk cn region selected list τ stats stats' := by
  induction list generalizing stats errors τ with
  | nil =>
    simp only [nukeResources, Prog.exec_pure, Prod.mk.injEq] at h
    obtain ⟨rfl, rfl, -⟩ := h
    constructor <;> simp
  | cons res list ih =>
    obtain ⟨hl, hm, hr, hc, hs⟩ := filtering_facts region selected res
    rcases exec_nukeResources_cons h with ⟨rfl, hout⟩ | ⟨stats₁, hst, ⟨hnil, τ', rfl, hrest⟩ |
      ⟨hne, τ₁, stats₂, errors₂, stopped, hexec, ⟨rfl, rfl, hout⟩ | ⟨rfl, τ₂, rfl, hrest⟩⟩⟩
    · obtain rfl : stats' = stats := hout
      constructor <;> simp
    · -- nothing of the resource is confirmed
      have hw := ih hrest
      have href : referenceBatches cn region selected res = [] := by simp [referenceBatches, hnil]
      constructor
      · simpa [hl] using hw.listings_region
      · simpa [hl] using hw.listings_prefix
      · simpa [hl, hs] using hw.listings_complete
      · simp [hm, hl, hw.marks]
      · simp [hr, hc, hw.reports]
      · simpa [hc] using hw.calls_region
      · simpa [hc, hl, href] using hw.calls_prefix
      · simpa [hc, hl, href, hs] using hw.calls_complete
      · simp [hc, hl, hw.stats_eq, hst, Nat.add_assoc]
    · -- the walk stops between two batches
      obtain rfl : stats' = stats₂ := hout
      have hb := nukeBatches_walk hexec
      have hstop := hb.stopped_iff.mp rfl
      have href : referenceBatches cn region selected res =
          (cn.split (confirmed region selected res) res.maxBatchSize).map (res.resourceName, ·) :=
        if_neg hne
      constructor
      · simp [hl, hb.listings]
      · simp [hl, hb.listings]
      · simp [hstop]
      · simp [hm, hl, hb.marks, hb.listings]
      · simp [hr, hc, hb.reports]
      · simpa [hc] using hb.calls_region
      · simpa [hc, hl, hb.listings, href] using hb.calls_prefix
      · simp [hstop]
      · simp [hc, hl, hb.listings, hb.stats_eq, hst]
    · -- all batches of the resource are done
      have hw := ih hrest
      have hb := nukeBatches_walk hexec
      have hgo : ¬ Stopped τ₁ := fun hstop => by simpa using hb.stopped_iff.mpr hstop
      have href : referenceBatches cn region selected res =
          (cn.split (confirmed region selected res) res.maxBatchSize).map (res.resourceName, ·) :=
        if_neg hne
      constructor
      · simpa [hl, hb.listings] using hw.listings_region
      · simpa [hl, hb.listings] using hw.listings_prefix
      · simpa [hl, hb.listings, hs, hgo] using hw.listings_complete
      · simp [hm, hl, hb.marks, hb.listings, hw.marks]
      · simp [hr, hc, hb.reports, hw.reports]
      · intro c hcm
        rw [nukeCalls_append, nukeCalls_append, hc, List.nil_append, List.mem_append] at hcm
        exact hcm.elim (hb.calls_region c) (hw.calls_region c)
      · simpa [hc, hl, hb.listings, href, hb.calls_complete hgo] using hw.calls_prefix
      · simpa [hc, hl, hb.listings, href, hb.calls_complete hgo, hs, hgo] using hw.calls_complete
      · simp [hc, hl, hb.listings, hw.stats_eq, hb.stats_eq, hst, Nat.add_assoc]

/-- Every execution of a region's walk, from its empty statistics. -/
theorem nukeRegionSelected_walk {cn : CloudNuke} {region : String} {selected : Finset String}
    {list : List AwsResource} {stats : NukeStats} {errors : List String}
    {τ : List (Act NukeOp.Ans)}
    (h : Prog.Exec (nukeRegionSelected cn region list selected) τ (stats, errors)) :
    RegionWalk cn region selected list τ {} stats := nukeResources_walk h

end Broom.Engine
