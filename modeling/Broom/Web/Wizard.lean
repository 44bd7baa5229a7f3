import Broom.Catalog.Build
import Broom.Core.Partition
import Broom.Web.ScanAgain

/-!
# The wizard

On two pages a user chooses the regions, the resource types and the time filter of a scan. The
choice is kept in the session storage of the tab, is made beforehand where a job is scanned
again, and starts with a common set of types. What the pages show as chosen is what is scanned.
-/

namespace Broom.Web

open Broom.Api Broom.Core Broom.Engine Broom.Jobs

/-! ## The choice -/

/-- What the wizard keeps. -/
structure WizardState where
  regions : List String := []
  resourceTypes : List String := []
  olderThanHours : Option Int := none
  deriving DecidableEq, Repr

namespace WizardState

def fields (s : WizardState) : List (String × Option Json) :=
  [("regions", some (Encoding.array .str s.regions)),
    ("resourceTypes", some (Encoding.array .str s.resourceTypes)),
    ("olderThanHours", some (s.olderThanHours.elim .null .num))]

/-- The value of the text in the session storage. -/
def json (s : WizardState) : Json := .record s.fields

/-- An array of strings, or none. -/
def strings (field : Option Json) : List String := (Schema.arr Schema.string field).getD []

/-- What the wizard starts with. -/
def load : Option Json → WizardState
  | none => {}
  | some v =>
    { regions := strings (v.get? "regions")
      resourceTypes := strings (v.get? "resourceTypes")
      olderThanHours := (v.get? "olderThanHours").bind Schema.integer }

/-- The wizard gets back what it has stored. -/
theorem load_json (s : WizardState) : load (some s.json) = s := by
  have hn : (s.fields.map Prod.fst).Nodup := by
    simp [fields]
  have hstrings (as : List String) : strings (some (Encoding.array .str as)) = as := by
    have harr : Schema.arr Schema.string (some (Encoding.array .str as)) = some (as.map id) :=
      Schema.arr_array fun _ _ => rfl
    rw [strings, harr, List.map_id, Option.getD_some]
  have hhours : Schema.integer (s.olderThanHours.elim .null .num) = s.olderThanHours := by
    cases s.olderThanHours <;> rfl
  simp only [load, json, Json.get?_record hn]
  simp [fields, List.lookup_cons, hstrings, hhours]

/-- The types that are chosen, as a set. -/
def sel (s : WizardState) : Finset String := s.resourceTypes.toFinset

end WizardState

/-! ## Regions -/

/-- The codes of the enabled regions. -/
def enabledCodes (codes : List String) : List String := codes.eraseDups.insertionSort (· ≤ ·)

/-- A click on an enabled region. -/
def toggleRegion (codes : List String) (s : WizardState) (code : String) : WizardState :=
  let sel := s.regions.toFinset
  let next := if code ∈ sel then sel.erase code else insert code sel
  { s with regions := (enabledCodes codes).filter (· ∈ next) }

/-! ## Services -/

section

variable (services : List Catalog.Service)

/-- All types, in the catalog's order. -/
def allTypes : List String := services.flatMap fun s => s.resourceTypes.map fun r => r.id

def defaultSet : List String :=
  (services.filter fun s => s.defaultSelected).flatMap fun s => s.resourceTypes.map fun r => r.id

/-- A choice is brought into the catalog's order. -/
def setSel (s : WizardState) (next : Finset String) : WizardState :=
  { s with resourceTypes := (allTypes services).filter (· ∈ next) }

def toggleType (s : WizardState) (id : String) : WizardState :=
  setSel services s (if id ∈ s.sel then s.sel.erase id else insert id s.sel)

/-- The number of pressed types on the card of a service. -/
def pressed (s : WizardState) (svc : Catalog.Service) : Nat :=
  svc.resourceTypes.countP fun r => r.id ∈ s.sel

/-- A click on the box of a service; a box that is checked or mixed is cleared. -/
def toggleService (s : WizardState) (svc : Catalog.Service) : WizardState :=
  let k := pressed s svc
  let n := svc.resourceTypes.length
  let isOn := k = n ∧ 0 < n
  let mixed := 0 < k ∧ k < n
  setSel services s (svc.resourceTypes.foldl
    (fun next r => if isOn ∨ mixed then next.erase r.id else insert r.id next) s.sel)

/-- The default set is chosen where nothing is. -/
def preselect (s : WizardState) : WizardState :=
  if s.resourceTypes.length = 0 then { s with resourceTypes := defaultSet services } else s

/-- Some chosen type is global. -/
def hasGlobal (s : WizardState) : Bool :=
  services.any fun svc => svc.resourceTypes.any fun r => decide (r.id ∈ s.sel) && r.isGlobal

/-! ## The page of the scan -/

/-- The types that the catalog marks as global. -/
def globalTypes : Finset String :=
  ((services.flatMap fun s => s.resourceTypes.filter fun r => r.isGlobal).map
    fun r => r.id).toFinset

/-- The number of listings that a scan is to make. -/
def scanTotal (job : Job) : Nat :=
  let regional := (job.spec.resourceTypes.filter fun x => x ∉ globalTypes services).length
  let global := job.spec.resourceTypes.length - regional
  regional * job.spec.regions.length + global

/-- The regions that the page names. -/
def regionsLabel (job : Job) : List String :=
  job.spec.regions ++
    if job.spec.resourceTypes.any fun x => x ∈ globalTypes services then ["global"] else []

/-- The number of types that are listed in a region. -/
def regionTypes (job : Job) (r : String) : Nat :=
  if r = "global" then (job.spec.resourceTypes.filter fun x => x ∈ globalTypes services).length
  else (job.spec.resourceTypes.filter fun x => x ∉ globalTypes services).length

def scanByRegion (job : Job) : List (String × Nat) :=
  (regionsLabel services job).map fun r => (r, regionTypes services job r)

end

/-! ## The time filter -/

/-- The box and the field of the time filter. -/
structure TimeFilter where
  isOn : Bool
  hours : String
  deriving DecidableEq, Repr

section

/-! The language's value of a text, if it is a finite number, and its text of a number. -/
variable (number : String → Option Rat) (text : Int → String)

/-- The whole hours of the time filter, half hours rounded up. -/
def TimeFilter.olderThanHours (f : TimeFilter) : Option Int :=
  (number f.hours).bind fun h => if f.isOn ∧ 0 < h then some (h + 1 / 2).floor else none

/-- The time filter that the page opens with. -/
def WizardState.timeFilter (s : WizardState) : TimeFilter where
  isOn := s.olderThanHours.isSome
  hours := text (s.olderThanHours.getD 24)

/-! ## The pages -/

inductive WizardPage
  | regions
  | services (filter : TimeFilter)
  /-- The index, which leads on at once, and the pages of a job. -/
  | other
  deriving DecidableEq, Repr

/-- The wizard while its pages are shown. -/
structure Wizard where
  state : WizardState
  page : WizardPage
  deriving DecidableEq, Repr

/-- The services page opens; without a region it leads back. -/
def openServices (catalog : Option (List Catalog.Service)) (s : WizardState) : Wizard :=
  let filter := s.timeFilter text
  -- the effects run even where the page leads back
  let chosen := catalog.elim s fun services => preselect services s
  { state := { chosen with olderThanHours := filter.olderThanHours number }
    page := if s.regions.length = 0 then .regions else .services filter }

/-- Clicks on the page of the regions. -/
inductive RegionsClick
  | toggle (code : String)
  | selectAllEnabled
  | clear

/-- A click once the regions are loaded, or not; disabled regions and buttons do nothing. -/
def WizardState.regionsClick (s : WizardState) :
    Option (List String) → RegionsClick → Option WizardState
  | some codes, .toggle code => if code ∈ codes then some (toggleRegion codes s code) else none
  | some codes, .selectAllEnabled => some { s with regions := enabledCodes codes }
  | none, .toggle _ | none, .selectAllEnabled => none
  | _, .clear => some { s with regions := [] }

/-- Clicks on the page of the services. -/
inductive ServicesClick
  | toggleType (id : String)
  | toggleService (i : Nat)
  | commonSet
  | everything
  | clear
  | timeFilter (isOn : Bool)
  | hours (value : String)

namespace Wizard

/-- The effect of the time filter. -/
def setFilter (s : WizardState) (f : TimeFilter) : Wizard where
  state := { s with olderThanHours := f.olderThanHours number }
  page := .services f

/-- A click once the catalog is loaded. -/
def cardClick (services : List Catalog.Service) (s : WizardState) (f : TimeFilter) :
    ServicesClick → Option Wizard
  | .toggleType id =>
    if id ∈ allTypes services then some ⟨toggleType services s id, .services f⟩ else none
  | .toggleService i => services[i]?.map fun svc => ⟨toggleService services s svc, .services f⟩
  | .commonSet => some ⟨{ s with resourceTypes := defaultSet services }, .services f⟩
  | .everything => some ⟨{ s with resourceTypes := allTypes services }, .services f⟩
  | .clear => some ⟨{ s with resourceTypes := [] }, .services f⟩
  | .timeFilter isOn => some (setFilter number s { f with isOn := isOn })
  | .hours value => if f.isOn then some (setFilter number s { f with hours := value }) else none

/-- Without the catalog there is only one button. -/
def servicesClick (catalog : Option (List Catalog.Service)) (s : WizardState) (f : TimeFilter)
    (click : ServicesClick) : Option Wizard :=
  match catalog, click with
  | some services, click => cardClick number services s f click
  | none, .clear => some ⟨{ s with resourceTypes := [] }, .services f⟩
  | none, _ => none

/-- What the button that starts the scan sends. -/
def start (w : Wizard) : Option CreateScanRequest :=
  match w.page with
  | .services _ =>
    if w.state.resourceTypes.length = 0 then none
    else some {
      regions := w.state.regions
      resourceTypes := w.state.resourceTypes
      olderThanHours := w.state.olderThanHours }
  | _ => none

end Wizard

/-! ## A tab -/

/-- The pages that one can go to. -/
inductive WizardRoute
  | regions
  | services
  | other
  deriving DecidableEq, Repr

/-- A tab of the browser. -/
structure WizardTab where
  /-- The entry of the session storage. -/
  stored : Option Json := none
  wizard : Option Wizard := none
  /-- The codes of the enabled regions, once they are loaded. -/
  regions : Option (List String) := none
  catalog : Option (List Catalog.Service) := none

/-- What can happen next; the storage may fail at any time. -/
inductive WizardAct
  /-- A history record seeds the wizard. -/
  | preset (entry : HistoryEntry) (kept : Bool)
  | enter (readable kept : Bool)
  | goto (route : WizardRoute) (kept : Bool)
  /-- The page is left, or the session is gone. -/
  | leave
  | logout (removed : Bool)
  | reload
  | loadRegions (codes : List String)
  | dropRegions
  | loadCatalog (kept : Bool)
  | regions (click : RegionsClick) (kept : Bool)
  | services (click : ServicesClick) (kept : Bool)
  /-- The page of a clean-up scans again. -/
  | rescan (job : Job) (kept : Bool)

/-- The choice of a history record. -/
def HistoryEntry.preset (entry : HistoryEntry) : WizardState where
  regions := entry.regions
  resourceTypes := entry.resourceTypes
  olderThanHours := olderThanHours entry.olderThan

namespace WizardTab

/-- The storage may refuse the text. -/
def keep (tab : WizardTab) (s : WizardState) (kept : Bool) : WizardTab :=
  if kept then { tab with stored := some s.json } else tab

/-- The wizard changes, and its effect stores the choice. -/
def put (tab : WizardTab) (w : Wizard) (kept : Bool) : WizardTab :=
  { tab with wizard := some w }.keep w.state kept

variable (services : List Catalog.Service)

/-- One step of a tab; the server's catalog stays the same. -/
def step (tab : WizardTab) : WizardAct → Option WizardTab
  | .preset entry kept => if tab.wizard.isNone then some (tab.keep entry.preset kept) else none
  | .enter readable kept =>
    if tab.wizard.isNone then
      some (tab.put ⟨.load (if readable then tab.stored else none), .other⟩ kept)
    else none
  | .goto .services kept =>
    tab.wizard.map fun w => tab.put (openServices number text tab.catalog w.state) kept
  | .goto .regions _ => tab.wizard.map fun w => { tab with wizard := some ⟨w.state, .regions⟩ }
  | .goto .other _ => tab.wizard.map fun w => { tab with wizard := some ⟨w.state, .other⟩ }
  | .leave => some { tab with wizard := none }
  | .logout removed =>
    some { tab with
      stored := if removed then none else tab.stored, wizard := none, regions := none }
  | .reload => some { stored := tab.stored }
  | .loadRegions codes => some { tab with regions := some codes }
  | .dropRegions => some { tab with regions := none }
  | .loadCatalog kept =>
    match tab.catalog, tab.wizard with
    | some _, _ => none
    -- an effect of the page waits for the catalog
    | none, some ⟨s, .services f⟩ =>
      some ({ tab with catalog := some services }.put ⟨preselect services s, .services f⟩ kept)
    | none, _ => some { tab with catalog := some services }
  | .regions click kept =>
    match tab.wizard with
    | some ⟨s, .regions⟩ =>
      (s.regionsClick tab.regions click).map fun s => tab.put ⟨s, .regions⟩ kept
    | _ => none
  | .services click kept =>
    match tab.wizard with
    | some ⟨s, .services f⟩ =>
      (Wizard.servicesClick number tab.catalog s f click).map fun w => tab.put w kept
    | _ => none
  | .rescan job kept =>
    match tab.wizard with
    | some ⟨s, .other⟩ => some (tab.put ⟨{ s with
        regions := job.spec.regions, resourceTypes := job.spec.resourceTypes }, .other⟩ kept)
    | _ => none

/-- What the steps of a tab are. -/
inductive Moves (tab : WizardTab) : WizardAct → WizardTab → Prop
  | preset {entry : HistoryEntry} {kept : Bool} (h : tab.wizard = none) :
    Moves tab (.preset entry kept) (tab.keep entry.preset kept)
  | enter {readable kept : Bool} : Moves tab (.enter readable kept)
      (tab.put ⟨.load (if readable then tab.stored else none), .other⟩ kept)
  | openServices {w : Wizard} {kept : Bool} (hw : tab.wizard = some w) :
    Moves tab (.goto .services kept)
      (tab.put (Web.openServices number text tab.catalog w.state) kept)
  | goto {w : Wizard} {route : WizardRoute} {page : WizardPage} {kept : Bool}
      (hw : tab.wizard = some w) (hpage : ∀ f, page ≠ .services f) :
    Moves tab (.goto route kept) { tab with wizard := some ⟨w.state, page⟩ }
  | leave : Moves tab .leave { tab with wizard := none }
  | logout {removed : Bool} : Moves tab (.logout removed) { tab with
      stored := if removed then none else tab.stored, wizard := none, regions := none }
  | reload : Moves tab .reload { stored := tab.stored }
  | loadRegions {codes : List String} :
    Moves tab (.loadRegions codes) { tab with regions := some codes }
  | dropRegions : Moves tab .dropRegions { tab with regions := none }
  | preselect {s : WizardState} {f : TimeFilter} {kept : Bool}
      (hw : tab.wizard = some ⟨s, .services f⟩) :
    Moves tab (.loadCatalog kept) ({ tab with catalog := some services }.put
      ⟨Web.preselect services s, .services f⟩ kept)
  | loadCatalog {kept : Bool} : Moves tab (.loadCatalog kept) { tab with catalog := some services }
  | regions {s s' : WizardState} {click : RegionsClick} {kept : Bool}
      (hw : tab.wizard = some ⟨s, .regions⟩) (hs : s.regionsClick tab.regions click = some s') :
    Moves tab (.regions click kept) (tab.put ⟨s', .regions⟩ kept)
  | services {s : WizardState} {f : TimeFilter} {w : Wizard} {click : ServicesClick} {kept : Bool}
      (hw : tab.wizard = some ⟨s, .services f⟩)
      (hclick : Wizard.servicesClick number tab.catalog s f click = some w) :
    Moves tab (.services click kept) (tab.put w kept)
  | rescan {s : WizardState} {job : Job} {kept : Bool} (hw : tab.wizard = some ⟨s, .other⟩) :
    Moves tab (.rescan job kept) (tab.put ⟨{ s with
      regions := job.spec.regions, resourceTypes := job.spec.resourceTypes }, .other⟩ kept)

variable {number text services}

theorem moves_of_step {tab tab' : WizardTab} {a : WizardAct}
    (hs : tab.step number text services a = some tab') :
    tab.Moves number text services a tab' := by
  cases a with
  | preset entry kept =>
    obtain ⟨hclosed, rfl⟩ := Option.ite_some_none_eq_some.mp hs
    exact .preset (Option.isNone_iff_eq_none.mp hclosed)
  | enter readable kept =>
    obtain ⟨-, rfl⟩ := Option.ite_some_none_eq_some.mp hs
    exact .enter
  | goto route kept =>
    cases route with
    | services =>
      obtain ⟨w, hw, rfl⟩ := Option.map_eq_some_iff.mp hs
      exact .openServices hw
    | regions | other =>
      obtain ⟨w, hw, rfl⟩ := Option.map_eq_some_iff.mp hs
      exact .goto hw fun f hf => by cases hf
  | leave => exact Option.some.inj hs ▸ .leave
  | logout removed => exact Option.some.inj hs ▸ .logout
  | reload => exact Option.some.inj hs ▸ .reload
  | loadRegions codes => exact Option.some.inj hs ▸ .loadRegions
  | dropRegions => exact Option.some.inj hs ▸ .dropRegions
  | loadCatalog kept =>
    simp only [step] at hs
    split at hs
    · cases hs
    · rename_i hw
      exact Option.some.inj hs ▸ .preselect hw
    · exact Option.some.inj hs ▸ .loadCatalog
  | regions click kept =>
    simp only [step] at hs
    split at hs
    · rename_i hw
      obtain ⟨s', hs', rfl⟩ := Option.map_eq_some_iff.mp hs
      exact .regions hw hs'
    · cases hs
  | services click kept =>
    simp only [step] at hs
    split at hs
    · rename_i hw
      obtain ⟨w, hclick, rfl⟩ := Option.map_eq_some_iff.mp hs
      exact .services hw hclick
    · cases hs
  | rescan job kept =>
    simp only [step] at hs
    split at hs
    · rename_i hw
      exact Option.some.inj hs ▸ .rescan hw
    · cases hs

end WizardTab

end

/-! ## What fits the server -/

section

variable {number : String → Option Rat} {text : Int → String} {cat : Api.Catalog}
  {services : List Catalog.Service}

/-- A choice that the server takes as it stands, but for the hours, and unless it is empty. -/
structure WizardState.Fits (cat : Api.Catalog) (s : WizardState) : Prop where
  regions_nodup : s.regions.Nodup
  regions : ∀ reg ∈ s.regions, regionRe reg = true
  regions_le : s.regions.length ≤ 40
  types_nodup : s.resourceTypes.Nodup
  types : ∀ t ∈ s.resourceTypes, t ∈ cat.known

/-- Codes of regions as the server knows them, not too many of them. -/
structure CodesFit (codes : List String) : Prop where
  regions : ∀ code ∈ codes, regionRe code = true
  le : codes.eraseDups.length ≤ 40

/-- The services list the known types, each once, and mark the global ones. -/
structure ServicesFit (cat : Api.Catalog) (services : List Catalog.Service) : Prop where
  nodup : (allTypes services).Nodup
  known : ∀ id, id ∈ allTypes services ↔ id ∈ cat.known
  isGlobal : ∀ svc ∈ services, ∀ r ∈ svc.resourceTypes, r.isGlobal = cat.isGlobal r.id

/-- What comes in from outside fits: jobs that are scanned again are jobs that the handlers
accepted, and the loaded regions have codes. -/
def WizardAct.Fits (cat : Api.Catalog) : WizardAct → Prop
  | .preset entry _ => ∃ spec, Repeatable cat spec ∧ entry.regions = spec.regions ∧
      entry.resourceTypes = spec.resourceTypes
  | .rescan job _ => ∃ spec, Repeatable cat spec ∧ job.spec.regions = spec.regions ∧
      job.spec.resourceTypes = spec.resourceTypes
  | .loadRegions codes => CodesFit codes
  | _ => True

namespace WizardState

theorem fits_empty : ({} : WizardState).Fits cat where
  regions_nodup := List.nodup_nil
  regions _ h := absurd h List.not_mem_nil
  regions_le := Nat.zero_le _
  types_nodup := List.nodup_nil
  types _ h := absurd h List.not_mem_nil

variable {s : WizardState}

/-- The hours are checked by the server. -/
theorem Fits.hours (h : s.Fits cat) (hours : Option Int) :
    { s with olderThanHours := hours }.Fits cat :=
  ⟨h.regions_nodup, h.regions, h.regions_le, h.types_nodup, h.types⟩

theorem Fits.repeatable {spec : Engine.Spec} (hspec : Repeatable cat spec)
    {regions types : List String} (hR : regions = spec.regions) (hT : types = spec.resourceTypes)
    (hours : Option Int) :
    (⟨regions, types, hours⟩ : WizardState).Fits cat := by
  subst hR hT
  exact ⟨hspec.regions_nodup, hspec.regions, hspec.regions_le, hspec.types_nodup, hspec.types⟩

/-- Enabled regions fit. -/
theorem Fits.codes (h : s.Fits cat) {codes regions : List String} (hcodes : CodesFit codes)
    (hsub : regions.Sublist (enabledCodes codes)) : { s with regions := regions }.Fits cat := by
  have hperm : (enabledCodes codes).Perm codes.eraseDups := List.perm_insertionSort _ _
  refine ⟨(hperm.nodup_iff.mpr (nodup_eraseDups codes)).sublist hsub, fun reg hreg => ?_, ?_,
    h.types_nodup, h.types⟩
  · exact hcodes.regions reg (List.mem_eraseDups.mp (hperm.mem_iff.mp (hsub.subset hreg)))
  · exact (hsub.length_le.trans_eq hperm.length_eq).trans hcodes.le

/-- Types of the catalog fit. -/
theorem Fits.listed (h : s.Fits cat) (hservices : ServicesFit cat services) {types : List String}
    (hsub : types.Sublist (allTypes services)) : { s with resourceTypes := types }.Fits cat :=
  ⟨h.regions_nodup, h.regions, h.regions_le, hservices.nodup.sublist hsub,
    fun t ht => (hservices.known t).mp (hsub.subset ht)⟩

theorem defaultSet_sublist : (defaultSet services).Sublist (allTypes services) :=
  List.filter_sublist.flatMap _

/-- A click on the page of the regions keeps the choice fit. -/
theorem Fits.regionsClick (h : s.Fits cat) {regions : Option (List String)}
    (hregions : ∀ codes ∈ regions, CodesFit codes) {click : RegionsClick} {s' : WizardState}
    (hs : s.regionsClick regions click = some s') : s'.Fits cat := by
  cases regions with
  | none =>
    cases click with
    | clear =>
      obtain rfl := Option.some.inj hs
      exact h.codes ⟨fun _ h => absurd h List.not_mem_nil, Nat.zero_le _⟩ (List.nil_sublist _)
    | toggle | selectAllEnabled => cases hs
  | some codes =>
    have hcodes := hregions codes rfl
    cases click with
    | toggle code =>
      obtain ⟨-, rfl⟩ := Option.ite_some_none_eq_some.mp hs
      exact h.codes hcodes List.filter_sublist
    | selectAllEnabled =>
      obtain rfl := Option.some.inj hs
      exact h.codes hcodes (List.Sublist.refl _)
    | clear =>
      obtain rfl := Option.some.inj hs
      exact h.codes hcodes (List.nil_sublist _)

theorem Fits.preselect (h : s.Fits cat) (hservices : ServicesFit cat services) :
    (preselect services s).Fits cat := by
  unfold Web.preselect
  split
  · exact h.listed hservices defaultSet_sublist
  · exact h

theorem preselect_regions (services : List Catalog.Service) (s : WizardState) :
    (Web.preselect services s).regions = s.regions := by
  unfold Web.preselect
  split <;> rfl

theorem preselect_hours (services : List Catalog.Service) (s : WizardState) :
    (Web.preselect services s).olderThanHours = s.olderThanHours := by
  unfold Web.preselect
  split <;> rfl

end WizardState

/-! ## What holds in a tab -/

/-- On the page of the services there is a region, and the hours are those of the filter. -/
structure Wizard.Sound (number : String → Option Rat) (cat : Api.Catalog) (w : Wizard) : Prop where
  state : w.state.Fits cat
  filter : ∀ f, w.page = .services f →
    w.state.regions ≠ [] ∧ w.state.olderThanHours = f.olderThanHours number

namespace Wizard

theorem Sound.of_state {s : WizardState} (h : s.Fits cat) {page : WizardPage}
    (hpage : ∀ f, page ≠ .services f) : Sound number cat ⟨s, page⟩ :=
  ⟨h, fun f hf => absurd hf (hpage f)⟩

theorem sound_openServices {s : WizardState} (h : s.Fits cat)
    {catalog : Option (List Catalog.Service)}
    (hcatalog : ∀ services ∈ catalog, ServicesFit cat services) :
    (openServices number text catalog s).Sound number cat := by
  have hregions : (catalog.elim s fun services => preselect services s).regions = s.regions := by
    cases catalog with
    | none => rfl
    | some services => exact WizardState.preselect_regions services s
  constructor
  · refine WizardState.Fits.hours ?_ _
    cases catalog with
    | none => exact h
    | some services => exact h.preselect (hcatalog services rfl)
  · intro f hf
    simp only [openServices] at hf
    split at hf
    · cases hf
    · rename_i hne
      obtain rfl := WizardPage.services.inj hf
      exact ⟨fun hnil => hne (List.length_eq_zero_iff.mpr (hregions.symm.trans hnil)), rfl⟩

/-- A click on the page of the services changes the types, or the filter and its hours. -/
theorem Sound.servicesClick {s : WizardState} {f : TimeFilter}
    (h : Sound number cat ⟨s, .services f⟩) {catalog : Option (List Catalog.Service)}
    (hcatalog : ∀ services ∈ catalog, ServicesFit cat services) {click : ServicesClick} {w : Wizard}
    (hw : servicesClick number catalog s f click = some w) : w.Sound number cat := by
  obtain ⟨hne, hhours⟩ := h.filter f rfl
  have htypes {services : List Catalog.Service} (hservices : ServicesFit cat services)
      {types : List String} (hsub : types.Sublist (allTypes services)) :
      Sound number cat ⟨{ s with resourceTypes := types }, .services f⟩ :=
    ⟨h.state.listed hservices hsub, fun f' hf' => WizardPage.services.inj hf' ▸ ⟨hne, hhours⟩⟩
  have hset (f' : TimeFilter) : (setFilter number s f').Sound number cat :=
    ⟨h.state.hours _, fun f'' hf'' => WizardPage.services.inj hf'' ▸ ⟨hne, rfl⟩⟩
  have hclear : Sound number cat ⟨{ s with resourceTypes := [] }, .services f⟩ :=
    ⟨⟨h.state.regions_nodup, h.state.regions, h.state.regions_le, List.nodup_nil,
      fun _ h => absurd h List.not_mem_nil⟩,
      fun f' hf' => WizardPage.services.inj hf' ▸ ⟨hne, hhours⟩⟩
  cases catalog with
  | none =>
    cases click with
    | clear => exact Option.some.inj hw ▸ hclear
    | _ => cases hw
  | some services =>
    have hservices := hcatalog services rfl
    cases click with
    | toggleType id =>
      obtain ⟨-, rfl⟩ := Option.ite_some_none_eq_some.mp hw
      exact htypes hservices List.filter_sublist
    | toggleService i =>
      obtain ⟨svc, -, rfl⟩ := Option.map_eq_some_iff.mp hw
      exact htypes hservices List.filter_sublist
    | commonSet => exact Option.some.inj hw ▸ htypes hservices WizardState.defaultSet_sublist
    | everything => exact Option.some.inj hw ▸ htypes hservices (List.Sublist.refl _)
    | clear => exact Option.some.inj hw ▸ hclear
    | timeFilter isOn => exact Option.some.inj hw ▸ hset _
    | hours value =>
      obtain ⟨-, rfl⟩ := Option.ite_some_none_eq_some.mp hw
      exact hset _

end Wizard

/-- What holds in a tab. -/
structure WizardTab.Sound (number : String → Option Rat) (cat : Api.Catalog)
    (services : List Catalog.Service) (tab : WizardTab) : Prop where
  stored : (WizardState.load tab.stored).Fits cat
  wizard : ∀ w ∈ tab.wizard, w.Sound number cat
  regions : ∀ codes ∈ tab.regions, CodesFit codes
  catalog : ∀ listed ∈ tab.catalog, listed = services

namespace WizardTab

theorem put_wizard (tab : WizardTab) (w : Wizard) (kept : Bool) :
    (tab.put w kept).wizard = some w := by
  cases kept <;> rfl

theorem sound_empty : ({} : WizardTab).Sound number cat services where
  stored := WizardState.fits_empty
  wizard _ h := absurd h (Option.not_mem_none _)
  regions _ h := absurd h (Option.not_mem_none _)
  catalog _ h := absurd h (Option.not_mem_none _)

variable {tab tab' : WizardTab}

theorem Sound.keep (h : tab.Sound number cat services) {s : WizardState} (hs : s.Fits cat)
    (kept : Bool) : (tab.keep s kept).Sound number cat services := by
  unfold WizardTab.keep
  split
  · refine ⟨?_, h.wizard, h.regions, h.catalog⟩
    rw [WizardState.load_json]
    exact hs
  · exact h

theorem Sound.show (h : tab.Sound number cat services) {w : Option Wizard}
    (hw : ∀ w' ∈ w, w'.Sound number cat) : { tab with wizard := w }.Sound number cat services :=
  ⟨h.stored, hw, h.regions, h.catalog⟩

theorem Sound.put (h : tab.Sound number cat services) {w : Wizard} (hw : w.Sound number cat)
    (kept : Bool) : (tab.put w kept).Sound number cat services :=
  (h.show fun _ hw' => Option.some.inj hw' ▸ hw).keep hw.state kept

theorem Sound.step (hservices : ServicesFit cat services) (h : tab.Sound number cat services)
    {a : WizardAct} (ha : a.Fits cat) (hs : tab.step number text services a = some tab') :
    tab'.Sound number cat services := by
  have hcatalog : ∀ listed ∈ tab.catalog, ServicesFit cat listed := fun listed hl =>
    h.catalog listed hl ▸ hservices
  have hloaded : { tab with catalog := some services }.Sound number cat services :=
    ⟨h.stored, h.wizard, h.regions, fun listed hl => (Option.some.inj hl).symm⟩
  have hclosed : ∀ w ∈ (none : Option Wizard), w.Sound number cat := fun w hw =>
    absurd hw (Option.not_mem_none w)
  have hdropped : ∀ codes ∈ (none : Option (List String)), CodesFit codes := fun codes hcodes =>
    absurd hcodes (Option.not_mem_none codes)
  cases moves_of_step hs with
  | @preset entry kept =>
    obtain ⟨spec, hspec, hR, hT⟩ := ha
    exact h.keep (.repeatable hspec hR hT _) kept
  | @enter readable kept =>
    refine h.put (.of_state ?_ fun f hf => by cases hf) kept
    cases readable with
    | true => exact h.stored
    | false => exact WizardState.fits_empty
  | @openServices w kept hw =>
    exact h.put (Wizard.sound_openServices (h.wizard w hw).state hcatalog) kept
  | @goto w _ page _ hw hpage =>
    exact h.show fun w' hw' => Option.some.inj hw' ▸ .of_state (h.wizard w hw).state hpage
  | leave => exact h.show hclosed
  | @logout removed =>
    refine ⟨?_, hclosed, hdropped, h.catalog⟩
    cases removed with
    | true => exact WizardState.fits_empty
    | false => exact h.stored
  | reload =>
    exact ⟨h.stored, hclosed, hdropped, fun listed hl => absurd hl (Option.not_mem_none listed)⟩
  | loadRegions =>
    exact ⟨h.stored, h.wizard, fun codes hcodes => Option.some.inj hcodes ▸ ha, h.catalog⟩
  | dropRegions => exact ⟨h.stored, h.wizard, hdropped, h.catalog⟩
  | @preselect s f kept hw =>
    have hsound := h.wizard _ hw
    refine hloaded.put ⟨hsound.state.preselect hservices, fun f' hf' => ?_⟩ kept
    rw [WizardState.preselect_regions, WizardState.preselect_hours]
    exact hsound.filter f' hf'
  | loadCatalog => exact hloaded
  | @regions s s' _ kept hw hs' =>
    have hfits := (h.wizard _ hw).state.regionsClick h.regions hs'
    exact h.put (.of_state hfits fun f hf => by cases hf) kept
  | @services s f w _ kept hw hclick =>
    exact h.put ((h.wizard _ hw).servicesClick hcatalog hclick) kept
  | @rescan s job kept hw =>
    obtain ⟨spec, hspec, hR, hT⟩ := ha
    exact h.put (.of_state (.repeatable hspec hR hT _) fun f hf => by cases hf) kept

end WizardTab

/-! ## What is shown -/

variable {s : WizardState}

/-- The cards of the services together have as many pressed types as are chosen. -/
theorem sum_pressed (hservices : ServicesFit cat services) (h : s.Fits cat) :
    (services.map (pressed s)).sum = s.resourceTypes.length := by
  have hperm : ((allTypes services).filter (· ∈ s.sel)).Perm s.resourceTypes := by
    refine (List.perm_ext_iff_of_nodup (hservices.nodup.filter _) h.types_nodup).mpr fun id => ?_
    rw [List.mem_filter, decide_eq_true_eq, WizardState.sel, List.mem_toFinset]
    exact ⟨And.right, fun hid => ⟨(hservices.known id).mpr (h.types id hid), hid⟩⟩
  rw [← hperm.length_eq, ← List.countP_eq_length_filter, allTypes, List.countP_flatMap]
  refine congrArg List.sum (List.map_congr_left fun svc _ => ?_)
  rw [pressed, Function.comp_apply, List.countP_map]
  rfl

/-- The catalog's marks are those of the server. -/
theorem mem_globalTypes (hservices : ServicesFit cat services) {id : String}
    (hid : id ∈ cat.known) : id ∈ globalTypes services ↔ cat.isGlobal id = true := by
  simp only [globalTypes, List.mem_toFinset, List.mem_map, List.mem_flatMap, List.mem_filter]
  constructor
  · rintro ⟨r, ⟨svc, hsvc, hr, hglobal⟩, rfl⟩
    rw [← hservices.isGlobal svc hsvc r hr]
    exact hglobal
  · intro hglobal
    obtain ⟨svc, hsvc, hid'⟩ := List.mem_flatMap.mp ((hservices.known id).mpr hid)
    obtain ⟨r, hr, rfl⟩ := List.mem_map.mp hid'
    exact ⟨r, ⟨svc, hsvc, hr, (hservices.isGlobal svc hsvc r hr).trans hglobal⟩, rfl⟩

/-- The page says rightly whether the scan goes beyond the regions. -/
theorem hasGlobal_eq (hservices : ServicesFit cat services) (h : s.Fits cat) :
    hasGlobal services s = s.resourceTypes.any cat.isGlobal := by
  rw [Bool.eq_iff_iff]
  simp only [hasGlobal, List.any_eq_true, Bool.and_eq_true, decide_eq_true_eq, WizardState.sel,
    List.mem_toFinset]
  constructor
  · rintro ⟨svc, hsvc, r, hr, hsel, hglobal⟩
    exact ⟨r.id, hsel, (hservices.isGlobal svc hsvc r hr).symm.trans hglobal⟩
  · rintro ⟨id, hsel, hglobal⟩
    obtain ⟨svc, hsvc, hid⟩ := List.mem_flatMap.mp ((hservices.known id).mpr (h.types id hsel))
    obtain ⟨r, hr, rfl⟩ := List.mem_map.mp hid
    exact ⟨svc, hsvc, r, hr, hsel, (hservices.isGlobal svc hsvc r hr).trans hglobal⟩

/-- The page of the scan names the regions of the worker's query. -/
theorem regionsLabel_eq (hservices : ServicesFit cat services) {spec : Engine.Spec} {job : Job}
    (hknown : ∀ t ∈ spec.resourceTypes, t ∈ cat.known) (hR : job.spec.regions = spec.regions)
    (hT : job.spec.resourceTypes = spec.resourceTypes) (now : Int) :
    regionsLabel services job = (buildQuery cat.isGlobal now spec).regions := by
  have hany : (spec.resourceTypes.any fun x => decide (x ∈ globalTypes services)) =
      spec.resourceTypes.any cat.isGlobal := by
    rw [Bool.eq_iff_iff, List.any_eq_true, List.any_eq_true]
    refine exists_congr fun t => and_congr_right fun ht => ?_
    rw [decide_eq_true_eq, mem_globalTypes hservices (hknown t ht)]
  rw [regionsLabel, hR, hT, hany, buildQuery]
  cases spec.resourceTypes.any cat.isGlobal with
  | true => rfl
  | false => exact List.append_nil _

/-- The rows of the regions add up to the number of listings. -/
theorem sum_scanByRegion {job : Job} (hR : ∀ reg ∈ job.spec.regions, regionRe reg = true) :
    ((scanByRegion services job).map Prod.snd).sum = scanTotal services job := by
  have hregional : job.spec.regions.map (regionTypes services job) =
      job.spec.regions.map fun _ =>
        (job.spec.resourceTypes.filter fun x => x ∉ globalTypes services).length := by
    refine List.map_congr_left fun reg hreg => if_neg ?_
    rintro rfl
    exact absurd (hR _ hreg) (by decide)
  have hsplit := job.spec.resourceTypes.length_eq_length_filter_add
    fun x => decide (x ∈ globalTypes services)
  rw [scanByRegion, List.map_map, Function.comp_def, regionsLabel, List.map_append,
    List.sum_append, hregional, List.map_const', List.sum_replicate_nat]
  have hglobal : ((if job.spec.resourceTypes.any fun x => x ∈ globalTypes services
      then ["global"] else []).map (regionTypes services job)).sum =
        (job.spec.resourceTypes.filter fun x => x ∈ globalTypes services).length := by
    split
    · rw [List.map_singleton, List.sum_singleton, regionTypes, if_pos rfl]
    · rename_i hnone
      rw [Bool.not_eq_true, List.any_eq_false] at hnone
      rw [List.filter_eq_nil_iff.mpr hnone]
      rfl
  rw [hglobal, scanTotal, Nat.mul_comm]
  simp only [decide_not] at hsplit ⊢
  omega

/-! ## What is scanned -/

/-- The button starts a scan of what is chosen. -/
theorem Wizard.of_start {w : Wizard} {filter : TimeFilter} (hpage : w.page = .services filter)
    {req : CreateScanRequest} (hstart : w.start = some req) :
    w.state.resourceTypes ≠ [] ∧
      req = ⟨w.state.regions, w.state.resourceTypes, w.state.olderThanHours⟩ := by
  rw [start, hpage] at hstart
  obtain ⟨hlen, hreq⟩ := Option.ite_none_left_eq_some.mp hstart
  exact ⟨fun hnil => hlen (List.length_eq_zero_iff.mpr hnil), (Option.some.inj hreq).symm⟩

/-- The scan that is asked for, if its hours are accepted. -/
theorem Wizard.Sound.spec {w : Wizard} (h : w.Sound number cat) {filter : TimeFilter}
    (hpage : w.page = .services filter) {req : CreateScanRequest} (hstart : w.start = some req)
    (hsize : cat.known.dedup.length ≤ 200) (quote : String → String) (identity : Identity) :
    req.spec quote cat identity =
      (Api.olderThan (filter.olderThanHours number)).map fun older =>
        { mode := .scan, regions := req.regions, resourceTypes := req.resourceTypes,
          excludeIAMUserName := identity.iamUserName, olderThan := older } := by
  obtain ⟨hne, hhours⟩ := h.filter filter hpage
  obtain ⟨htypes, rfl⟩ := of_start hpage hstart
  have hle : w.state.resourceTypes.length ≤ 200 := by
    have hsub : w.state.resourceTypes ⊆ cat.known.dedup := fun t ht =>
      List.mem_dedup.mpr (h.state.types t ht)
    exact (h.state.types_nodup.subperm hsub).length_le.trans hsize
  have hrepeat : Repeatable cat
      { mode := .scan, regions := w.state.regions, resourceTypes := w.state.resourceTypes } :=
    ⟨h.state.regions_nodup, hne, h.state.regions, h.state.regions_le, h.state.types_nodup,
      htypes, h.state.types, hle, fun d hd => absurd hd (Option.not_mem_none d)⟩
  have hinputs : validateScanInputs quote cat w.state.regions w.state.resourceTypes =
      .ok (w.state.regions, w.state.resourceTypes) := hrepeat.validateScanInputs
  simp only [CreateScanRequest.spec, hinputs, hhours]
  cases Api.olderThan (filter.olderThanHours number) <;> rfl

/-- The filter's hours are accepted when they round to a number from one to those of a year. -/
theorem olderThan_filter_iff (filter : TimeFilter) :
    (∃ older, Api.olderThan (filter.olderThanHours number) = .ok older) ↔
      ∀ x, filter.isOn = true → number filter.hours = some x → 0 < x →
        1 / 2 ≤ x ∧ x < 8760 + 1 / 2 := by
  have hok (h : Option Int) : (∃ older, Api.olderThan h = .ok older) ↔
      ∀ n, h = some n → 1 ≤ n ∧ n < 8761 := by
    cases h with
    | none => exact ⟨fun _ _ h => (by cases h), fun _ => ⟨none, rfl⟩⟩
    | some n =>
      simp only [Api.olderThan, Option.some.injEq, forall_eq']
      split
      · refine ⟨?_, fun h => by omega⟩
        rintro ⟨older, h⟩
        cases h
      · exact ⟨fun _ => by omega, fun _ => ⟨_, rfl⟩⟩
  rw [hok]
  have hround (x : Rat) : (1 ≤ (x + 1 / 2).floor ∧ (x + 1 / 2).floor < 8761) ↔
      1 / 2 ≤ x ∧ x < 8760 + 1 / 2 := by
    rw [← not_le, Rat.le_floor_iff, Rat.le_floor_iff]
    constructor
    · rintro ⟨hlo, hhi⟩
      push_cast at hlo hhi
      exact ⟨by linarith, by linarith⟩
    · rintro ⟨hlo, hhi⟩
      push_cast
      exact ⟨by linarith, by linarith⟩
  rw [TimeFilter.olderThanHours]
  cases number filter.hours with
  | none => exact ⟨fun _ x _ h => (by cases h), fun _ n h => (by cases h)⟩
  | some x =>
    simp only [Option.bind_some, Option.ite_none_right_eq_some, Option.some.injEq]
    constructor
    · intro h y hon hy hpos
      subst hy
      exact (hround x).mp (h _ ⟨⟨hon, hpos⟩, rfl⟩)
    · rintro h n ⟨⟨hon, hpos⟩, rfl⟩
      exact (hround x).mpr (h x hon rfl hpos)

/-- The catalog of the server fits it. -/
theorem servicesFit_build (known globals : List String) {serviceDefs : List Catalog.ServiceDef}
    (hmapped : (Catalog.mapped serviceDefs).Nodup) :
    ServicesFit ⟨known, (Catalog.build known globals serviceDefs).isGlobal⟩
      (Catalog.build known globals serviceDefs).services := by
  obtain ⟨hnodup, hknown, hglobal⟩ := Catalog.listed_spec known globals hmapped
  have hall : allTypes (Catalog.build known globals serviceDefs).services =
      (Catalog.build known globals serviceDefs).listed.map Catalog.ResourceType.id :=
    (List.map_flatMap ..).symm
  refine ⟨hall ▸ hnodup, fun id => ?_, fun svc hsvc r hr => ?_⟩
  · rw [hall, List.mem_map]
    exact hknown id
  · exact hglobal r (List.mem_flatMap.mpr ⟨svc, hsvc, hr⟩)

/-- What holds after any run of a tab. -/
theorem WizardTab.sound_of_execute (hservices : ServicesFit cat services) {acts : List WizardAct}
    {tab : WizardTab} (hfits : ∀ a ∈ acts, a.Fits cat)
    (hrun : execute (WizardTab.step number text services) {} acts = some tab) :
    tab.Sound number cat services :=
  (along_of_forall fun a ha _ => hfits a ha :
      Along (WizardTab.step number text services) (fun _ a => a.Fits cat) {} acts).invariant hrun _
    WizardTab.sound_empty fun _ _ _ hs ha h => h.step hservices ha hs

/-- The worker's query and the page of the job agree on the regions, and the rows of the page add
up, whatever has become of the job. -/
theorem scanPage_agrees (hservices : ServicesFit cat services) {spec : Engine.Spec}
    (hregions : ∀ reg ∈ spec.regions, regionRe reg = true)
    (hknown : ∀ t ∈ spec.resourceTypes, t ∈ cat.known) {id sessionId accountId : String}
    {created : Nat} {ops : List JobOp} {snap : Jobs.Snapshot}
    (hsnap : ((newJob id sessionId accountId spec created).run ops).snapshot = some snap)
    (wf : WireFormat) (skips : Bool) (now : Int) :
    regionsLabel services ((encodeSnapshot wf snap).parsed skips) =
        (buildQuery cat.isGlobal now spec).regions ∧
      ((scanByRegion services ((encodeSnapshot wf snap).parsed skips)).map Prod.snd).sum =
        scanTotal services ((encodeSnapshot wf snap).parsed skips) := by
  have hsame : ((newJob id sessionId accountId spec created).run ops).spec = spec :=
    (congrArg (fun i => i.2.2.2) (Job.identity_run _ ops) :)
  have hspec : snap.spec = spec := (snapshot_own hsnap).2.1.trans hsame
  have hR : ((encodeSnapshot wf snap).parsed skips).spec.regions = spec.regions := by
    rw [← hspec]
    cases skips <;> rfl
  have hT : ((encodeSnapshot wf snap).parsed skips).spec.resourceTypes = spec.resourceTypes := by
    rw [← hspec]
    cases skips <;> rfl
  exact ⟨regionsLabel_eq hservices hknown hR hT now,
    sum_scanByRegion fun reg hreg => hregions reg (hR ▸ hreg)⟩

end

/-- Whatever was seeded, clicked, left, reloaded and stored or not, what the wizard holds when the
scan is started is what is scanned. Once the catalog has loaded, the cards show all types that are
asked for, as many as are counted, and say whether one of them is global; the server makes the
scan of these regions and types, with the hours of the filter, unless these round to none or to
more than a year; the worker's query and the page of the scan name the same regions. -/
theorem wizard_scans (number : String → Option Rat) (text : Int → String)
    (known globals : List String) {serviceDefs : List Catalog.ServiceDef}
    (hmapped : (Catalog.mapped serviceDefs).Nodup) (hsize : known.dedup.length ≤ 200)
    (quote : String → String) (identity : Identity) :
    let built := Catalog.build known globals serviceDefs
    let cat : Api.Catalog := ⟨known, built.isGlobal⟩
    ∀ {acts : List WizardAct} {tab : WizardTab} {w : Wizard} {filter : TimeFilter}
      {req : CreateScanRequest}, (∀ a ∈ acts, a.Fits cat) →
      execute (WizardTab.step number text built.services) {} acts = some tab →
      tab.wizard = some w → w.page = .services filter → w.start = some req →
      (∀ listed ∈ tab.catalog, (∀ id ∈ req.resourceTypes, id ∈ allTypes listed) ∧
        (listed.map (pressed w.state)).sum = req.resourceTypes.length ∧
        hasGlobal listed w.state = req.resourceTypes.any cat.isGlobal) ∧
      req.spec quote cat identity = (Api.olderThan (filter.olderThanHours number)).map
        (fun older => { mode := .scan, regions := req.regions, resourceTypes := req.resourceTypes,
                        excludeIAMUserName := identity.iamUserName, olderThan := older }) ∧
      ((∃ spec, req.spec quote cat identity = .ok spec) ↔
        ∀ x, filter.isOn = true → number filter.hours = some x → 0 < x →
          1 / 2 ≤ x ∧ x < 8760 + 1 / 2) ∧
      ∀ spec, req.spec quote cat identity = .ok spec → ∀ now,
        (buildQuery cat.isGlobal now spec).regions =
          req.regions ++ (if req.resourceTypes.any cat.isGlobal then [globalRegion] else []) ∧
        ∀ id sessionId created ops snap wf skips,
          ((newJob id sessionId identity.accountId spec created).run ops).snapshot = some snap →
          let job := (encodeSnapshot wf snap).parsed skips
          regionsLabel built.services job = (buildQuery cat.isGlobal now spec).regions ∧
            ((scanByRegion built.services job).map Prod.snd).sum =
              scanTotal built.services job := by
  intro built cat acts tab w filter req hfits hrun hw hpage hstart
  have hservices : ServicesFit cat built.services := servicesFit_build known globals hmapped
  have htab := WizardTab.sound_of_execute hservices hfits hrun
  have hsound := htab.wizard w hw
  have hspec := hsound.spec hpage hstart hsize quote identity
  obtain ⟨-, rfl⟩ := Wizard.of_start hpage hstart
  refine ⟨fun listed hlisted => ?_, hspec, ?_, fun spec hok now => ?_⟩
  · obtain rfl := htab.catalog listed hlisted
    exact ⟨fun id hid => (hservices.known id).mpr (hsound.state.types id hid),
      sum_pressed hservices hsound.state, hasGlobal_eq hservices hsound.state⟩
  · rw [hspec, ← olderThan_filter_iff]
    cases Api.olderThan (filter.olderThanHours number) with
    | error err =>
      constructor
      · rintro ⟨spec, h⟩
        cases h
      · rintro ⟨older, h⟩
        cases h
    | ok older => exact ⟨fun _ => ⟨older, rfl⟩, fun _ => ⟨_, rfl⟩⟩
  · obtain ⟨hR, hT⟩ : spec.regions = w.state.regions ∧
        spec.resourceTypes = w.state.resourceTypes := by
      rw [hspec] at hok
      cases holder : Api.olderThan (filter.olderThanHours number) with
      | error err =>
        rw [holder] at hok
        cases hok
      | ok older =>
        rw [holder] at hok
        obtain rfl := Except.ok.inj hok
        exact ⟨rfl, rfl⟩
    refine ⟨?_, fun id sessionId created ops snap wf skips hsnap => ?_⟩
    · rw [buildQuery, hR, hT]
      split
      · rfl
      · exact (List.append_nil _).symm
    · exact scanPage_agrees hservices (fun reg hreg => hsound.state.regions reg (hR ▸ hreg))
        (fun t ht => hsound.state.types t (hT ▸ ht)) hsnap wf skips now

/-- The values of digits. -/
def digitsNumber (s : String) : Option Rat :=
  if s.toList.all Char.isDigit then some (Nat.ofDigitChars 10 s.toList 0 : Nat) else none

def digitsText (n : Int) : String := String.ofList (Nat.toDigits 10 n.toNat)

/-- Topics, which are chosen by default, and users, which are global. -/
def wizardTable : List Catalog.ServiceDef :=
  [⟨"messaging", .low, true, [⟨"sns-topic", "SNS topics", .other ""⟩]⟩,
    ⟨"identity", .high, false, [⟨"iam", "IAM users", .other ""⟩]⟩]

/-- A region and the users are chosen, the page is reloaded, and the time filter switched on. -/
def wizardActs : List WizardAct :=
  [.enter true true, .loadRegions ["us-east-1", "eu-west-1"], .goto .regions true,
    .regions (.toggle "eu-west-1") true, .goto .services true, .loadCatalog true,
    .services (.toggleService 1) true, .reload, .enter true true, .goto .services true,
    .loadCatalog true, .services (.timeFilter true) false]

/-- The topics and the users of one region are scanned that are older than a day. -/
theorem wizardActs_scans :
    ∃ tab w req, execute (WizardTab.step digitsNumber digitsText
        (Catalog.build ["iam", "sns-topic"] ["iam"] wizardTable).services) {} wizardActs =
          some tab ∧
      tab.wizard = some w ∧ w.start = some req ∧
      req.spec id ⟨["iam", "sns-topic"],
          (Catalog.build ["iam", "sns-topic"] ["iam"] wizardTable).isGlobal⟩ ⟨"123456789012", ""⟩ =
        .ok { mode := .scan, regions := ["eu-west-1"], resourceTypes := ["sns-topic", "iam"],
              olderThan := some (24 * hour) } := by
  obtain ⟨tab, w, req, hrun, hw, hstart, hpage, hregions, htypes⟩ : ∃ tab w req,
      execute (WizardTab.step digitsNumber digitsText
        (Catalog.build ["iam", "sns-topic"] ["iam"] wizardTable).services) {} wizardActs =
          some tab ∧ tab.wizard = some w ∧ w.start = some req ∧
        w.page = .services ⟨true, "24"⟩ ∧ req.regions = ["eu-west-1"] ∧
        req.resourceTypes = ["sns-topic", "iam"] :=
    ⟨_, _, _, rfl, rfl, rfl, rfl, rfl, rfl⟩
  have hcodes : CodesFit ["us-east-1", "eu-west-1"] := ⟨by decide, by decide⟩
  have hfits : ∀ a ∈ wizardActs, a.Fits ⟨["iam", "sns-topic"],
      (Catalog.build ["iam", "sns-topic"] ["iam"] wizardTable).isGlobal⟩ := by
    simp only [wizardActs, List.forall_mem_cons, WizardAct.Fits, hcodes, true_and]
    exact fun _ h => absurd h List.not_mem_nil
  have hspec := (wizard_scans digitsNumber digitsText ["iam", "sns-topic"] ["iam"] (by decide)
    (by decide) id ⟨"123456789012", ""⟩ hfits hrun hw hpage hstart).2.1
  refine ⟨tab, w, req, hrun, hw, hstart, hspec.trans ?_⟩
  have hhours : TimeFilter.olderThanHours digitsNumber ⟨true, "24"⟩ = some 24 := by
    decide +kernel
  rw [hhours, hregions, htypes]
  rfl

/-! ## A seeded wizard -/

/-- Nothing is chosen, and what is stored can be read and is not removed. -/
def WizardAct.Quiet : WizardAct → Prop
  | .enter readable _ => readable = true
  | .goto .. | .leave | .reload | .loadRegions _ | .dropRegions | .loadCatalog _ => True
  | .preset .. | .logout _ | .regions .. | .services .. | .rescan .. => False

section

variable {number : String → Option Rat} {text : Int → String} {services : List Catalog.Service}

/-- The storage has a choice, and the pages show it and no other. -/
structure WizardTab.Seeded (s : WizardState) (tab : WizardTab) : Prop where
  stored : WizardState.load tab.stored = s
  wizard : ∀ w ∈ tab.wizard, w.state = s

/-- The filter of a choice gives its hours back. -/
theorem timeFilter_hours {s : WizardState}
    (hread : ∀ n : Nat, 0 < n → n ≤ 8760 → number (text n) = some (n : Rat))
    (hhours : ∀ h ∈ s.olderThanHours, 0 < h ∧ h ≤ 8760) :
    (s.timeFilter text).olderThanHours number = s.olderThanHours := by
  rw [TimeFilter.olderThanHours, WizardState.timeFilter]
  cases holder : s.olderThanHours with
  | none => cases number (text (Option.getD none 24)) <;> rfl
  | some h =>
    obtain ⟨hpos, hle⟩ := hhours h holder
    obtain ⟨n, rfl⟩ := Int.eq_ofNat_of_zero_le hpos.le
    have hround : ((n : Rat) + 1 / 2).floor = (n : Int) := floor_add_half n
    have hpos' : (0 : Rat) < n := by exact_mod_cast hpos
    rw [Option.getD_some, hread n (by omega) (by omega), Option.bind_some, hround]
    exact if_pos ⟨rfl, hpos'⟩

namespace WizardTab

variable {s : WizardState} {tab tab' : WizardTab}

theorem Seeded.put (h : tab.Seeded s) {w : Wizard} (hw : w.state = s) (kept : Bool) :
    (tab.put w kept).Seeded s := by
  have hshown : ∀ w' ∈ some w, w'.state = s := fun w' hw' => Option.some.inj hw' ▸ hw
  unfold WizardTab.put WizardTab.keep
  split
  · refine ⟨?_, hshown⟩
    rw [WizardState.load_json, hw]
  · exact ⟨h.stored, hshown⟩

/-- Types are only preselected where there are none. -/
theorem preselect_of_ne (htypes : s.resourceTypes ≠ []) : preselect services s = s :=
  if_neg fun hnil => htypes (List.length_eq_zero_iff.mp hnil)

theorem openServices_seeded (htypes : s.resourceTypes ≠ []) (hregions : s.regions ≠ [])
    (hhours : (s.timeFilter text).olderThanHours number = s.olderThanHours)
    (catalog : Option (List Catalog.Service)) :
    openServices number text catalog s = ⟨s, .services (s.timeFilter text)⟩ := by
  have hchosen : (catalog.elim s fun services => preselect services s) = s := by
    cases catalog with
    | none => rfl
    | some services => exact preselect_of_ne htypes
  have hlen : s.regions.length ≠ 0 := fun h => hregions (List.length_eq_zero_iff.mp h)
  rw [openServices, hchosen, hhours]
  exact congrArg (Wizard.mk s) (if_neg hlen)

theorem Seeded.step (htypes : s.resourceTypes ≠ []) (hregions : s.regions ≠ [])
    (hhours : (s.timeFilter text).olderThanHours number = s.olderThanHours)
    (h : tab.Seeded s) {a : WizardAct} (ha : a.Quiet)
    (hs : tab.step number text services a = some tab') : tab'.Seeded s := by
  have hclosed : ∀ w ∈ (none : Option Wizard), w.state = s := fun w hw =>
    absurd hw (Option.not_mem_none w)
  cases moves_of_step hs with
  | @enter readable kept =>
    obtain rfl : readable = true := ha
    exact h.put h.stored kept
  | @openServices w kept hw =>
    rw [h.wizard w hw, openServices_seeded htypes hregions hhours]
    exact h.put rfl kept
  | @goto w _ _ _ hw =>
    exact ⟨h.stored, fun w' hw' => Option.some.inj hw' ▸ h.wizard w hw⟩
  | leave | reload => exact ⟨h.stored, hclosed⟩
  | loadRegions | dropRegions | loadCatalog => exact ⟨h.stored, h.wizard⟩
  | @preselect s' f kept hw =>
    have hloaded : { tab with catalog := some services }.Seeded s := ⟨h.stored, h.wizard⟩
    obtain rfl : s' = s := h.wizard _ hw
    rw [preselect_of_ne htypes]
    exact hloaded.put rfl kept
  | preset | logout | regions | services | rescan => exact ha.elim

end WizardTab

end

/-- A history record that seeds the wizard, where the session is gone say, is scanned again as it
was: as long as nothing is chosen, whatever is left, reloaded, loaded and stored or not, the page
of the services opens, and starts the very scan that the record asks for. -/
theorem preset_scans (number : String → Option Rat) (text : Int → String)
    (services : List Catalog.Service) {cat : Api.Catalog}
    (hread : ∀ n : Nat, 0 < n → n ≤ 8760 → number (text n) = some (n : Rat))
    {entry : HistoryEntry} {spec : Engine.Spec} (hspec : Repeatable cat spec)
    (hregions : entry.regions = spec.regions) (htypes : entry.resourceTypes = spec.resourceTypes)
    (hhours : (olderThanHours entry.olderThan).map (· * hour) = spec.olderThan)
    {tab seeded tab' : WizardTab} {acts : List WizardAct} {w : Wizard}
    (hpreset : tab.step number text services (.preset entry true) = some seeded)
    (hquiet : ∀ a ∈ acts, a.Quiet)
    (hrun : execute (WizardTab.step number text services) seeded acts = some tab')
    (hw : tab'.wizard = some w) :
    (∀ filter, w.page = .services filter → w.start = some entry.rescan) ∧
      ∀ kept, ∃ tab'' w', tab'.step number text services (.goto .services kept) = some tab'' ∧
        tab''.wizard = some w' ∧ w'.start = some entry.rescan := by
  obtain ⟨hclosed, rfl⟩ := Option.ite_some_none_eq_some.mp hpreset
  have hne : entry.preset.resourceTypes ≠ [] ∧ entry.preset.regions ≠ [] := by
    rw [HistoryEntry.preset, htypes, hregions]
    exact ⟨hspec.types_ne, hspec.regions_ne⟩
  have hfilter : (entry.preset.timeFilter text).olderThanHours number =
      entry.preset.olderThanHours := by
    refine timeFilter_hours hread fun h hh => ?_
    have hd : h * hour ∈ spec.olderThan := by
      rw [← hhours, show olderThanHours entry.olderThan = some h from hh]
      rfl
    obtain ⟨n, hpos, hle, hn⟩ := hspec.olderThan _ hd
    obtain rfl : h = n := Int.eq_of_mul_eq_mul_right (by decide) hn
    omega
  have hstart : ∀ filter, Wizard.start ⟨entry.preset, .services filter⟩ = some entry.rescan :=
    fun _ => if_neg fun hnil => hne.1 (List.length_eq_zero_iff.mp hnil)
  have hseeded : (tab.keep entry.preset true).Seeded entry.preset := by
    refine ⟨WizardState.load_json _, fun w hw => ?_⟩
    rw [WizardTab.keep, if_pos rfl, Option.isNone_iff_eq_none.mp hclosed] at hw
    cases hw
  have hend : tab'.Seeded entry.preset :=
    (along_of_forall fun a ha _ => hquiet a ha :
        Along (WizardTab.step number text services) (fun _ a => a.Quiet) _ acts).invariant hrun _
      hseeded fun _ _ _ hs ha h => h.step hne.1 hne.2 hfilter ha hs
  obtain ⟨state, page⟩ := w
  obtain rfl : state = entry.preset := hend.wizard _ hw
  refine ⟨?_, fun kept => ?_⟩
  · rintro filter rfl
    exact hstart filter
  · refine ⟨_, _, congrArg (Option.map _) hw, WizardTab.put_wizard .., ?_⟩
    rw [WizardTab.openServices_seeded hne.1 hne.2 hfilter]
    exact hstart _

theorem digitsNumber_digitsText (n : Nat) : digitsNumber (digitsText n) = some (n : Rat) := by
  have hall : (Nat.toDigits 10 n).all Char.isDigit = true :=
    List.all_eq_true.mpr fun c => Json.isDigit_of_mem_toDigits
  rw [digitsNumber, digitsText, Int.toNat_natCast, String.toList_ofList, if_pos hall,
    Nat.ofDigitChars_ten_toDigits]

/-- A scan of topics that are older than a day. -/
def topicEntry : HistoryEntry where
  id := "j"
  kind := .scan
  accountId := "123456789012"
  createdAt := ""
  finishedAt := none
  state := .job .succeeded
  regions := ["eu-west-1"]
  resourceTypes := ["sns-topic"]
  olderThan := some (Duration.format (24 * hour))
  selected := none
  summary := none
  found := none
  results := none
  errors := none
  error := none

/-- The page is reloaded before the services open. -/
theorem topicEntry_scans :
    ∃ seeded tab w, ({} : WizardTab).step digitsNumber digitsText [] (.preset topicEntry true) =
        some seeded ∧
      execute (WizardTab.step digitsNumber digitsText []) seeded
        [.enter true true, .goto .regions true, .reload, .enter true false] = some tab ∧
      tab.wizard = some w ∧
      ∃ tab' w', tab.step digitsNumber digitsText [] (.goto .services true) = some tab' ∧
        tab'.wizard = some w' ∧ w'.start = some topicEntry.rescan := by
  obtain ⟨seeded, tab, w, hpreset, hrun, hw⟩ : ∃ seeded tab w,
      ({} : WizardTab).step digitsNumber digitsText [] (.preset topicEntry true) = some seeded ∧
        execute (WizardTab.step digitsNumber digitsText []) seeded
          [.enter true true, .goto .regions true, .reload, .enter true false] = some tab ∧
        tab.wizard = some w := ⟨_, _, _, rfl, rfl, rfl⟩
  have hquiet : ∀ a ∈ [.enter true true, .goto .regions true, .reload, .enter true false],
      WizardAct.Quiet a := by
    simp [WizardAct.Quiet]
  have hspec : Repeatable ⟨["sns-topic"], fun _ => false⟩
      { mode := .scan, regions := ["eu-west-1"], resourceTypes := ["sns-topic"],
        olderThan := some (24 * hour) } :=
    ⟨by decide, by decide, by decide, by decide, by decide, by decide, by decide, by decide,
      fun d hd => ⟨24, by decide, by decide, (Option.some.inj hd).symm⟩⟩
  have hhours : (olderThanHours topicEntry.olderThan).map (· * hour) = some (24 * hour) :=
    congrArg (Option.map (· * hour)) (olderThanHours_format (by decide : 0 < 24))
  obtain ⟨tab', w', hstep, hw', hstart⟩ := (preset_scans digitsNumber digitsText []
    (fun n _ _ => digitsNumber_digitsText n) hspec rfl rfl hhours hpreset hquiet hrun hw).2 true
  exact ⟨seeded, tab, w, hpreset, hrun, hw, tab', w', hstep, hw', hstart⟩

end Broom.Web
