import Broom.Api.StartJob
import Broom.Catalog.Build
import Broom.Core.Grouping
import Broom.Web.LivePageEnd

/-!
# The review page

When a scan has ended, the page selects every deletable resource. Rows, whole services and
everything in view can be switched on and off, under a search and a region filter, until the
account id is typed and the clean-up confirmed. The number on the button is the number of
resources that the clean-up gets.
-/

namespace Broom.Web

open Broom.Core Broom.Engine Broom.Jobs

/-! ## The page -/

/-- The resource as a selection. -/
def FoundResource.toSelection (f : FoundResource) : Selection :=
  { resourceType := f.resourceType, region := f.region, identifier := f.identifier }

/-- The variables of the review page. -/
structure Review where
  services : List Catalog.Service := []
  /-- The account of the session, once it is loaded. -/
  info : Option String := none
  selected : Option (Finset String) := none
  search : String := ""
  region : Option String := none
  isOpen : Bool := false
  confirmId : String := ""

namespace Review

/-- The service of a resource type; a later service of the catalog wins. -/
def typeToService (services : List Catalog.Service) : List (String × String) :=
  (services.flatMap fun s => s.resourceTypes.map fun r => (r.id, s.id)).reverse

def serviceOf (services : List Catalog.Service) (f : FoundResource) : String :=
  ((typeToService services).lookup f.resourceType).getD "other"

/-- The place of a service in the catalog, or -1. -/
def indexOf (order : List String) (sid : String) : Int :=
  if sid ∈ order then order.idxOf sid else -1

section

/-! The language's functions on strings; what is selected does not depend on them. -/
variable (trim toLowerCase : String → String)

/-- The search and the region filter let a resource through. -/
def shows (r : Review) (f : FoundResource) : Bool :=
  let q := toLowerCase (trim r.search)
  (r.region.all fun region => region = "" || f.region = region) &&
    (q = "" || q.toList <:+: (toLowerCase f.identifier).toList ||
      q.toList <:+: f.resourceType.toList)

/-- The rows of the table, by service and in the catalog's order of services. -/
def groups (r : Review) (job : Job) : List (String × List FoundResource) :=
  let order := r.services.map Catalog.Service.id
  (group (serviceOf r.services) (job.found.filter (r.shows trim toLowerCase))).mergeSort
    fun a b => indexOf order a.1 ≤ indexOf order b.1

def visible (r : Review) (job : Job) : List FoundResource :=
  (r.groups trim toLowerCase job).flatMap Prod.snd

def deletable (job : Job) : List FoundResource := job.found.filter (·.nukable)

/-- The page selects every deletable resource of an ended job, once. -/
def select (r : Review) (job : Job) : Review :=
  if r.selected = none ∧ job.state.terminal = true then
    { r with selected := some ((deletable job).map FoundResource.key).toFinset }
  else r

def toggle (r : Review) (f : FoundResource) : Review :=
  if f.nukable = false then r
  else { r with selected := r.selected.map fun s =>
    if f.key ∈ s then s.erase f.key else insert f.key s }

/-- One turn of the loop of `setMany`. -/
def setOne (on : Bool) (s : Finset String) (f : FoundResource) : Finset String :=
  if f.nukable = false then s else if on then insert f.key s else s.erase f.key

def setMany (r : Review) (items : List FoundResource) (on : Bool) : Review :=
  { r with selected := r.selected.map fun s => items.foldl (setOne on) s }

/-- What the page asks for when the clean-up is confirmed. -/
def request (r : Review) (job : Job) (sel : Finset String) : Api.CreateNukeRequest where
  scanJobId := job.id
  confirmAccountId := trim r.confirmId
  selections := (job.found.filter (·.key ∈ sel)).map FoundResource.toSelection

end

end Review

/-! ## The page over a live job -/

/-- A review page and the live job under it. -/
structure ReviewRun where
  live : LiveJob
  review : Review := {}

/-- What can happen next; users act on what the page shows. -/
inductive ReviewAct
  | live (a : LiveAct)
  /-- The catalog is loaded. -/
  | catalog (services : List Catalog.Service)
  /-- The session is loaded. -/
  | session
  /-- The effect that selects runs. -/
  | select
  | search (q : String)
  | region (r : Option String)
  /-- A row is clicked. -/
  | toggle (f : FoundResource)
  /-- The box of a service is clicked. -/
  | toggleGroup (i : Nat) (on : Bool)
  /-- The box above the table is clicked. -/
  | toggleVisible (on : Bool)
  | selectDeletable
  | clear
  | dialog (isOpen : Bool)
  | type (confirmId : String)

section

variable (trim toLowerCase : String → String) (fmt : GoFormat) (wf : WireFormat)
  (identity : Api.Identity)

/-- What a click does on a rendered page. -/
def Review.click (r : Review) (job : Job) : ReviewAct → Option Review
  | .search q => some { r with search := q }
  | .region region => some { r with region := region }
  | .toggle f => if f ∈ r.visible trim toLowerCase job then some (r.toggle f) else none
  | .toggleGroup i on =>
    ((r.groups trim toLowerCase job)[i]?).map fun g => r.setMany g.2 on
  | .toggleVisible on => some (r.setMany (r.visible trim toLowerCase job) on)
  | .selectDeletable => some (r.setMany (Review.deletable job) true)
  | .clear => some { r with selected := some ∅ }
  | .dialog isOpen => some { r with isOpen := isOpen }
  | .type confirmId => some { r with confirmId := confirmId }
  | .live _ | .catalog _ | .session | .select => none

/-- One step of the page or under it. -/
def ReviewRun.step (s : ReviewRun) : ReviewAct → Option ReviewRun
  | .live a => (s.live.step fmt wf a).map fun live => { s with live := live }
  | .catalog services => some { s with review := { s.review with services := services } }
  | .session => some { s with review := { s.review with info := some identity.accountId } }
  | .select => s.live.page.job.map fun job => { s with review := s.review.select job }
  | a =>
    -- until there is a selection the page shows a spinner
    match s.live.page.job, s.review.selected with
    | some job, some _ =>
      (s.review.click trim toLowerCase job a).map fun review => { s with review := review }
    | _, _ => none

/-- The page is opened. -/
def ReviewRun.start (j : Jobs.Job) : ReviewRun where
  live := .start j

end

/-! ## What is selected -/

namespace Review

variable {trim toLowerCase : String → String}

/-- The table shows every resource that the filters let through, once. -/
theorem visible_perm (r : Review) (job : Job) :
    (r.visible trim toLowerCase job).Perm (job.found.filter (r.shows trim toLowerCase)) :=
  ((List.mergeSort_perm _ _).flatMap_right _).trans (flatMap_group_perm ..)

theorem mem_found_of_visible {r : Review} {job : Job} {f : FoundResource}
    (h : f ∈ r.visible trim toLowerCase job) : f ∈ job.found :=
  List.mem_of_mem_filter ((r.visible_perm job).mem_iff.mp h)

theorem mem_found_of_groups {r : Review} {job : Job} {g : String × List FoundResource}
    (hg : g ∈ r.groups trim toLowerCase job) : ∀ f ∈ g.2, f ∈ job.found :=
  fun _ hf => mem_found_of_visible (List.mem_flatMap.mpr ⟨g, hg, hf⟩)

/-- Only deletable resources of the job are selected. -/
def Picked (job : Job) (sel : Finset String) : Prop :=
  ∀ key ∈ sel, ∃ f ∈ job.found, f.nukable = true ∧ f.key = key

theorem Picked.setOne {job : Job} {sel : Finset String} (h : Picked job sel) (on : Bool)
    {f : FoundResource} (hf : f ∈ job.found) : Picked job (setOne on sel f) := by
  unfold Review.setOne
  split
  · exact h
  · rename_i hn
    intro key hkey
    split at hkey
    · rcases Finset.mem_insert.mp hkey with rfl | hkey
      · exact ⟨f, hf, by simpa using hn, rfl⟩
      · exact h key hkey
    · exact h key (Finset.mem_of_mem_erase hkey)

theorem Picked.setMany {job : Job} {sel : Finset String} (h : Picked job sel) {on : Bool}
    {items : List FoundResource} (hitems : ∀ f ∈ items, f ∈ job.found) :
    Picked job (items.foldl (Review.setOne on) sel) := by
  induction items generalizing sel with
  | nil => exact h
  | cons f items ih =>
    obtain ⟨hf, hitems⟩ := List.forall_mem_cons.mp hitems
    exact ih (h.setOne on hf) hitems

/-- A click keeps what is selected deletable. -/
theorem Picked.click {r r' : Review} {job : Job} {a : ReviewAct} {sel sel' : Finset String}
    (h : Picked job sel) (hsel : r.selected = some sel)
    (hr : r.click trim toLowerCase job a = some r') (hsel' : r'.selected = some sel') :
    Picked job sel' := by
  have hmany {items : List FoundResource} {on : Bool} (hitems : ∀ f ∈ items, f ∈ job.found)
      (hs : (r.setMany items on).selected = some sel') : Picked job sel' := by
    rw [Review.setMany, hsel] at hs
    exact Option.some.inj hs ▸ h.setMany hitems
  have hsame (hs : r.selected = some sel') : Picked job sel' :=
    Option.some.inj (hsel.symm.trans hs) ▸ h
  cases a with
  | search | region | dialog | type =>
    obtain rfl := Option.some.inj hr
    exact hsame hsel'
  | toggle f =>
    obtain ⟨hf, rfl⟩ := Option.ite_some_none_eq_some.mp hr
    unfold Review.toggle at hsel'
    split at hsel'
    · exact hsame hsel'
    · rename_i hn
      rw [hsel] at hsel'
      obtain rfl := Option.some.inj hsel'
      have hone (on : Bool) := h.setOne on (mem_found_of_visible hf)
      simp only [Review.setOne, if_neg hn] at hone
      dsimp only
      split
      · exact hone false
      · exact hone true
  | toggleGroup i on =>
    obtain ⟨g, hg, rfl⟩ := Option.map_eq_some_iff.mp hr
    exact hmany (mem_found_of_groups (List.mem_of_getElem? hg)) hsel'
  | toggleVisible on =>
    obtain rfl := Option.some.inj hr
    exact hmany (fun _ => mem_found_of_visible) hsel'
  | selectDeletable =>
    obtain rfl := Option.some.inj hr
    exact hmany (fun _ => List.mem_of_mem_filter) hsel'
  | clear =>
    obtain rfl := Option.some.inj hr
    obtain rfl := Option.some.inj hsel'
    exact fun key hkey => absurd hkey (Finset.notMem_empty key)
  | live | catalog | session | select => cases hr

end Review

/-! ## What the server makes of it -/

/-- The snapshot of an ended job lists what the server has on file, under keys that differ. -/
theorem IsFinal.found {wf : WireFormat} {j : Jobs.Job} {job : Job} (h : IsFinal wf j job)
    (hj : j.Consistent) :
    (job.found.map FoundResource.key).Nodup ∧
      ∀ f ∈ job.found, ∃ g, j.found.lookup f.key = some g ∧ g.nukable = f.nukable := by
  obtain ⟨snap, hsnap, hfound, -⟩ := hj.snapshot
  have hjob : encodeSnapshot wf snap = job := by
    have h' := h.snapshot
    rw [hsnap] at h'
    exact Option.some.inj h'
  have hlist : job.found = (viewOf j.events).found.values.map encodeFound := by
    rw [← hjob, ← hfound]
    rfl
  have hkeyed := (viewOf_keyed j.events).found
  have hkeys : job.found.map FoundResource.key = (viewOf j.events).found.keys := by
    rw [hlist, OrderedMap.values, OrderedMap.keys, List.map_map, List.map_map]
    exact List.map_congr_left fun e he => hkeyed e he
  refine ⟨hkeys ▸ (viewOf j.events).found.nodup, fun f hf => ?_⟩
  rw [hlist] at hf
  obtain ⟨g, hg, rfl⟩ := List.mem_map.mp hf
  obtain ⟨e, he, rfl⟩ := List.mem_map.mp hg
  have hlookup := hj.shows.found.lookup e he
  rw [← hkeyed e he] at hlookup
  exact ⟨e.2, hlookup, rfl⟩

/-- The snapshot says whose job it is. -/
theorem IsFinal.identity {wf : WireFormat} {j : Jobs.Job} {job : Job} (h : IsFinal wf j job) :
    job.id = j.id ∧ job.accountId = j.accountId ∧ job.state = j.state := by
  obtain ⟨snap, hsnap, rfl⟩ := Option.map_eq_some_iff.mp h.snapshot
  unfold Job.snapshot at hsnap
  obtain ⟨found, -, hsnap⟩ := Option.bind_eq_some_iff.mp hsnap
  obtain ⟨results, -, hsnap⟩ := Option.bind_eq_some_iff.mp hsnap
  rw [← Option.some.inj hsnap]
  exact ⟨rfl, rfl, rfl⟩

/-- What a request with a number of selections comes to, for a scan in some state, or one
that is not there any more. -/
def outcome (n : Nat) (scan : Option State) (spec : Engine.Spec) :
    Except Api.ApiError Engine.Spec :=
  if n = 0 then .error ⟨400, "bad_request", "no resources selected"⟩
  else if 20000 < n then .error ⟨400, "bad_request", "too many selections in one request"⟩
  else
    match scan with
    | none => .error ⟨404, "scan_not_found", "scan job not found for this session"⟩
    | some state =>
      if state ≠ .succeeded then
        .error ⟨409, "scan_not_finished", "scan job has not finished successfully"⟩
      else .ok spec

section

variable {trim toLowerCase : String → String} {fmt : GoFormat} {wf : WireFormat}
  {identity : Api.Identity}

/-- What holds on a review page over a job. -/
structure ReviewRun.Sound (wf : WireFormat) (identity : Api.Identity) (j : Jobs.Job)
    (s : ReviewRun) : Prop where
  final : s.live.Final wf
  alone : s.live.page.Alone
  origin : ∃ ops, s.live.server.job = j.run ops
  info : ∀ account ∈ s.review.info, account = identity.accountId
  picked : ∀ sel, s.review.selected = some sel → ∃ job, s.live.page.job = some job ∧
    job.state.terminal = true ∧ Review.Picked job sel

/-- The server's job is always what operations have made of it. -/
theorem LiveJob.job_step {s s' : LiveJob} {a : LiveAct} (hs : s.step fmt wf a = some s') :
    ∃ ops, s'.server.job = s.server.job.run ops := by
  cases LiveJob.moves_of_step hs with
  | server hserver => exact Api.Stream.job_step hserver
  | _ => exact ⟨[], rfl⟩

theorem origin_step {j j₁ j₂ : Jobs.Job} (h : ∃ ops, j₁ = j.run ops) (h' : ∃ ops, j₂ = j₁.run ops) :
    ∃ ops, j₂ = j.run ops := by
  obtain ⟨ops, rfl⟩ := h
  obtain ⟨ops', rfl⟩ := h'
  exact ⟨ops ++ ops', (j.run_append ops ops').symm⟩

theorem Review.select_same (r : Review) (job : Job) : (r.select job).info = r.info := by
  unfold Review.select
  split <;> rfl

theorem Review.click_info {r r' : Review} {job : Job} {a : ReviewAct}
    (h : r.click trim toLowerCase job a = some r') : r'.info = r.info := by
  cases a with
  | search | region | toggleVisible | selectDeletable | clear | dialog | type =>
    obtain rfl := Option.some.inj h
    rfl
  | toggle f =>
    obtain ⟨-, rfl⟩ := Option.ite_some_none_eq_some.mp h
    unfold Review.toggle
    split <;> rfl
  | toggleGroup i on =>
    obtain ⟨g, -, rfl⟩ := Option.map_eq_some_iff.mp h
    rfl
  | live | catalog | session | select => cases h

namespace ReviewRun

variable {j : Jobs.Job} {s s' : ReviewRun}

/-- The steps that are clicks. -/
theorem click_of_step {a : ReviewAct} (hs : s.step trim toLowerCase fmt wf identity a = some s') :
    (∃ b live, a = .live b ∧ s.live.step fmt wf b = some live ∧ s' = { s with live := live }) ∨
    (∃ services, s' = { s with review := { s.review with services := services } }) ∨
    s' = { s with review := { s.review with info := some identity.accountId } } ∨
    (∃ job, s.live.page.job = some job ∧ s' = { s with review := s.review.select job }) ∨
    ∃ job sel review, s.live.page.job = some job ∧ s.review.selected = some sel ∧
      s.review.click trim toLowerCase job a = some review ∧ s' = { s with review := review } := by
  cases a with
  | live b =>
    obtain ⟨live, hlive, rfl⟩ := Option.map_eq_some_iff.mp hs
    exact .inl ⟨b, live, rfl, hlive, rfl⟩
  | catalog services => exact .inr (.inl ⟨services, (Option.some.inj hs).symm⟩)
  | session => exact .inr (.inr (.inl (Option.some.inj hs).symm))
  | select =>
    obtain ⟨job, hjob, rfl⟩ := Option.map_eq_some_iff.mp hs
    exact .inr (.inr (.inr (.inl ⟨job, hjob, rfl⟩)))
  | _ =>
    simp only [step] at hs
    split at hs
    · obtain ⟨review, hreview, rfl⟩ := Option.map_eq_some_iff.mp hs
      exact .inr (.inr (.inr (.inr ⟨_, _, review, ‹_›, ‹_›, hreview, rfl⟩)))
    · cases hs

/-- Nobody publishes to a finished job. -/
def Quiet (s : ReviewRun) : ReviewAct → Prop
  | .live a => s.live.Quiet a
  | _ => True

theorem Sound.step {a : ReviewAct} (h : s.Sound wf identity j)
    (hs : s.step trim toLowerCase fmt wf identity a = some s') (hquiet : s.Quiet a) :
    s'.Sound wf identity j := by
  obtain ⟨b, live, rfl, hlive, rfl⟩ | ⟨services, rfl⟩ | rfl | ⟨job, hjob, rfl⟩ |
    ⟨job, sel, review, hjob, hsel, hclick, rfl⟩ := click_of_step hs
  · refine ⟨h.final.step h.alone hlive hquiet, h.alone.step hlive,
      origin_step h.origin (LiveJob.job_step hlive), h.info, fun sel hsel => ?_⟩
    obtain ⟨job, hjob, hterm, hpicked⟩ := h.picked sel hsel
    exact ⟨job, h.final.job_step hlive hjob hterm, hterm, hpicked⟩
  · exact ⟨h.final, h.alone, h.origin, h.info, h.picked⟩
  · exact ⟨h.final, h.alone, h.origin, fun account ha => (Option.some.inj ha).symm, h.picked⟩
  · refine ⟨h.final, h.alone, h.origin, ?_, fun sel hsel => ?_⟩
    · rw [Review.select_same]
      exact h.info
    · unfold Review.select at hsel
      split at hsel
      · rename_i hfirst
        obtain rfl := Option.some.inj hsel
        refine ⟨job, hjob, hfirst.2, fun key hkey => ?_⟩
        obtain ⟨f, hf, rfl⟩ := List.mem_map.mp (List.mem_toFinset.mp hkey)
        exact ⟨f, List.mem_of_mem_filter hf, by simpa using (List.mem_filter.mp hf).2, rfl⟩
      · exact h.picked sel hsel
  · refine ⟨h.final, h.alone, h.origin, ?_, fun sel' hsel' => ?_⟩
    · rw [Review.click_info hclick]
      exact h.info
    · obtain ⟨job', hjob', hterm, hpicked⟩ := h.picked sel hsel
      obtain rfl := Option.some.inj (hjob.symm.trans hjob')
      exact ⟨job, hjob, hterm, hpicked.click hsel hclick hsel'⟩

theorem Sound.start (j : Jobs.Job) : (ReviewRun.start j).Sound wf identity j :=
  ⟨LiveJob.final_start j, LiveJob.alone_start j, ⟨[], rfl⟩,
    fun account ha => absurd ha (Option.not_mem_none account), fun sel hsel => by cases hsel⟩

end ReviewRun

end

end Broom.Web
