import Broom.Api.Nukes
import Broom.Engine.Run

/-!
# Asking for a scan

A request for a scan names regions and resource types. They are checked and freed of
repetitions, and become the spec of the scan; a scan of global types alone still gets a
region for its session.
-/

namespace Broom.Api

open Broom.Core Broom.Engine Broom.Jobs

/-- The resource types that cloud-nuke knows, and which of them are global. -/
structure Catalog where
  known : List String
  isGlobal : String → Bool

/-- Whether a known type is global. -/
def Catalog.lookup (cat : Catalog) (id : String) : Option Bool :=
  if id ∈ cat.known then some (cat.isGlobal id) else none

/-- The body of a request for a scan. -/
structure CreateScanRequest where
  regions : List String
  resourceTypes : List String
  olderThanHours : Option Int := none
  deriving DecidableEq, Repr

/-- Two lower-case letters, one or more lower-case words and a digit, with dashes between. -/
def regionRe (s : String) : Bool :=
  match s.toList.splitOn '-' with
  | country :: rest =>
    country.length = 2 && country.all Char.isLower && decide (2 ≤ rest.length) &&
      rest.dropLast.all (fun part => part ≠ [] && part.all Char.isLower) &&
      rest.getLast?.any fun part => part.length = 1 && part.all Char.isDigit
  | [] => false

/-! ## Checks -/

section

variable (quote : String → String) (cat : Catalog)

/-- Add a name that was not seen before. -/
def addNew (name : String) (out : List String) : List String :=
  if name ∈ out then out else out ++ [name]

/-- The loop over the regions. -/
def collectRegions : List String → List String → Except String (List String)
  | [], out => .ok out
  | reg :: regions, out =>
    if regionRe reg then collectRegions regions (addNew reg out)
    else .error ("invalid region " ++ quote reg)

/-- The loop over the types; it also tells whether one of them is regional. -/
def collectTypes : List String → List String × Bool → Except String (List String × Bool)
  | [], out => .ok out
  | t :: types, (out, hasRegional) =>
    match cat.lookup t with
    | none => .error ("unknown resource type " ++ quote t)
    | some isGlobal =>
      collectTypes types (addNew t out, hasRegional || !isGlobal)

/-- The regions and types to scan. -/
def validateScanInputs (regions types : List String) :
    Except String (List String × List String) := do
  if types.length = 0 then throw "select at least one resource type"
  let outR ← collectRegions quote regions []
  let (outT, hasRegional) ← collectTypes quote cat types ([], false)
  if hasRegional = true ∧ outR.length = 0 then
    throw "select at least one region for regional resource types"
  -- global types alone still need a region for the session
  let outR := if outR.length = 0 then ["us-east-1"] else outR
  if 40 < outR.length ∨ 200 < outT.length then throw "too many regions or resource types"
  return (outR, outT)

/-- An hour in nanoseconds. -/
def hour : Int := 3600 * 1000000000

/-- The time filter of a request. -/
def olderThan : Option Int → Except ApiError (Option Int)
  | none => .ok none
  | some h =>
    if h ≤ 0 ∨ 24 * 365 < h then
      .error ⟨400, "bad_request", "olderThanHours must be between 1 and 8760"⟩
    else .ok (some (h * hour))

/-- Turn a request into the spec of its scan. -/
def CreateScanRequest.spec (req : CreateScanRequest) (identity : Identity) :
    Except ApiError Engine.Spec := do
  let (regions, types) ←
    (validateScanInputs quote cat req.regions req.resourceTypes).mapError
      fun msg => ⟨400, "bad_request", msg⟩
  let older ← olderThan req.olderThanHours
  return { mode := .scan, regions := regions, resourceTypes := types,
           excludeIAMUserName := identity.iamUserName, olderThan := older }

end

/-! ## What the checks establish -/

/-- A region's name is made of dashes, lower-case letters and digits, and is not empty. -/
theorem regionRe_chars {s : String} (h : regionRe s = true) :
    s.toList ≠ [] ∧ ∀ c ∈ s.toList, c = '-' ∨ c.isLower = true ∨ c.isDigit = true := by
  unfold regionRe at h
  split at h
  · rename_i country rest hparts
    simp only [Bool.and_eq_true, decide_eq_true_eq, List.all_eq_true] at h
    obtain ⟨⟨⟨⟨hlen, hcountry⟩, hrest⟩, hwords⟩, hlast⟩ := h
    refine ⟨fun hnil => ?_, fun c hc => ?_⟩
    · rw [hnil, List.splitOn_nil] at hparts
      obtain ⟨rfl, -⟩ := List.cons.inj hparts
      exact absurd hlen (by decide)
    · refine (mem_splitOn hc).imp_right ?_
      rintro ⟨part, hpart, hcp⟩
      rw [hparts] at hpart
      rcases List.mem_cons.mp hpart with rfl | hpart
      · exact .inl (hcountry c hcp)
      · cases hl : rest.getLast? with
        | none => simp [hl] at hlast
        | some last =>
          rw [hl, Option.any_some, Bool.and_eq_true, List.all_eq_true] at hlast
          rw [← List.dropLast_append_getLast? last hl] at hpart
          rcases List.mem_append.mp hpart with hpart | hpart
          · exact .inl ((hwords part hpart).2 c hcp)
          · obtain rfl := List.mem_singleton.mp hpart
            exact .inr (hlast.2 c hcp)
  · cases h

/-- A region's name has no NUL, and the worker's validation accepts it. -/
theorem regionRe_ok {s : String} (h : regionRe s = true) : NulFree s ∧ badRegion s = false := by
  obtain ⟨hne, hchars⟩ := regionRe_chars h
  refine ⟨fun hnul => ?_, ?_⟩
  · have hnot := hchars _ hnul
    exact absurd hnot (by decide)
  · simp only [badRegion, decide_eq_false_iff_not, not_or]
    refine ⟨?_, fun hspace => ?_⟩
    · rintro rfl
      exact absurd h (by decide)
    · obtain ⟨c, hc⟩ := List.exists_mem_of_ne_nil _ hne
      have hspace := List.all_eq_true.mp hspace c hc
      have hrange : 45 ≤ c.toNat ∧ c.toNat ≤ 122 := by
        rcases hchars c hc with rfl | hlower | hdigit
        · decide
        · obtain ⟨hlow, hhigh⟩ := (Bool.and_eq_true _ _).mp hlower
          have hlow := UInt32.le_iff_toNat_le.mp (of_decide_eq_true hlow)
          have hhigh := UInt32.le_iff_toNat_le.mp (of_decide_eq_true hhigh)
          exact ⟨le_trans (by decide) hlow, hhigh⟩
        · simp only [Char.isDigit, Bool.and_eq_true, decide_eq_true_eq, ge_iff_le,
            UInt32.le_iff_toNat_le] at hdigit
          exact ⟨le_trans (by decide) hdigit.1, le_trans hdigit.2 (by decide)⟩
      simp only [isSpace, List.mem_cons, List.not_mem_nil, or_false, Bool.decide_or,
        Bool.or_eq_true, decide_eq_true_eq] at hspace
      omega

@[simp] theorem mem_addNew {name other : String} {out : List String} :
    other ∈ addNew name out ↔ other ∈ out ∨ other = name := by
  unfold addNew
  split
  · rename_i hmem
    exact ⟨.inl, fun h => h.elim id fun h => h ▸ hmem⟩
  · rw [List.mem_append, List.mem_singleton]

section

variable {quote : String → String} {cat : Catalog}

/-- The loop keeps all regions, and each has the form of one. -/
theorem collectRegions_ok {regions out out' : List String}
    (h : collectRegions quote regions out = .ok out') :
    (∀ reg, reg ∈ out' ↔ reg ∈ out ∨ reg ∈ regions) ∧ ∀ reg ∈ regions, regionRe reg = true := by
  induction regions generalizing out with
  | nil =>
    obtain rfl := Except.ok.inj h
    simp
  | cons r regions ih =>
    simp only [collectRegions] at h
    split at h
    · rename_i hre
      obtain ⟨hmem, hall⟩ := ih h
      refine ⟨fun reg => ?_, List.forall_mem_cons.mpr ⟨hre, hall⟩⟩
      rw [hmem, mem_addNew, List.mem_cons, or_assoc]
    · cases h

/-- The loop keeps all types, and each is known. -/
theorem collectTypes_ok {types : List String} {acc acc' : List String × Bool}
    (h : collectTypes quote cat types acc = .ok acc') :
    (∀ t, t ∈ acc'.1 ↔ t ∈ acc.1 ∨ t ∈ types) ∧ ∀ t ∈ types, t ∈ cat.known := by
  induction types generalizing acc with
  | nil =>
    obtain rfl := Except.ok.inj h
    simp
  | cons t types ih =>
    obtain ⟨out, hasRegional⟩ := acc
    simp only [collectTypes] at h
    split at h
    · cases h
    · rename_i isGlobal hlookup
      obtain ⟨hmem, hall⟩ := ih h
      obtain ⟨hknown, -⟩ := Option.ite_some_none_eq_some.mp hlookup
      refine ⟨fun t' => ?_, List.forall_mem_cons.mpr ⟨hknown, hall⟩⟩
      rw [hmem, mem_addNew, List.mem_cons, or_assoc]

/-- What the checks establish of the inputs of a scan. -/
theorem validateScanInputs_ok {regions types : List String} {out : List String × List String}
    (h : validateScanInputs quote cat regions types = .ok out) :
    (out.1 ≠ [] ∧ ∀ reg ∈ out.1, regionRe reg = true) ∧
      (out.2 ≠ [] ∧ ∀ t ∈ out.2, t ∈ cat.known) := by
  unfold validateScanInputs at h
  obtain ⟨hlen, h⟩ := guard_ok h
  obtain ⟨outR, hregions, h⟩ := bind_ok h
  obtain ⟨⟨outT, hasRegional⟩, htypes, h⟩ := bind_ok h
  obtain ⟨-, h⟩ := guard_ok h
  obtain ⟨-, h⟩ := guard_ok h
  obtain rfl := Except.ok.inj h
  obtain ⟨hR, hre⟩ := collectRegions_ok hregions
  obtain ⟨hT, hknown⟩ := collectTypes_ok htypes
  refine ⟨?_, fun hnil => ?_, fun t ht => hknown t (((hT t).mp ht).resolve_left List.not_mem_nil)⟩
  · dsimp only
    split
    · exact ⟨List.cons_ne_nil _ _, by decide⟩
    · rename_i hne
      exact ⟨fun hnil => hne (congrArg List.length hnil),
        fun reg hreg => hre reg (((hR reg).mp hreg).resolve_left List.not_mem_nil)⟩
  · obtain ⟨t, ht⟩ := List.exists_mem_of_ne_nil types fun hnil => hlen (congrArg List.length hnil)
    have hmem := (hT t).mpr (.inr ht)
    dsimp only at hnil hmem
    rw [hnil] at hmem
    cases hmem

/-- What the spec of an accepted scan is like. -/
structure Scannable (cat : Catalog) (spec : Engine.Spec) : Prop where
  mode : spec.mode = .scan
  regions_ne : spec.regions ≠ []
  regions : ∀ reg ∈ spec.regions, regionRe reg = true
  types_ne : spec.resourceTypes ≠ []
  types : ∀ t ∈ spec.resourceTypes, t ∈ cat.known
  olderThan : ∀ d ∈ spec.olderThan, 0 < d
  selections : spec.selections = []
  parallelism : spec.parallelism = 0

theorem CreateScanRequest.spec_ok {req : CreateScanRequest} {identity : Identity}
    {spec : Engine.Spec} (h : req.spec quote cat identity = .ok spec) : Scannable cat spec := by
  obtain ⟨⟨regions, types⟩, hinputs, h⟩ := bind_ok h
  obtain ⟨older, holder, h⟩ := bind_ok h
  obtain rfl := Except.ok.inj h
  have hvalid : validateScanInputs quote cat req.regions req.resourceTypes =
      .ok (regions, types) := by
    cases hv : validateScanInputs quote cat req.regions req.resourceTypes with
    | error msg =>
      rw [hv] at hinputs
      cases hinputs
    | ok out =>
      rw [hv] at hinputs
      obtain rfl := Except.ok.inj hinputs
      rfl
  obtain ⟨⟨hR, hre⟩, hT, hknown⟩ := validateScanInputs_ok hvalid
  refine ⟨rfl, hR, hre, hT, hknown, fun d hd => ?_, rfl, rfl⟩
  cases hhours : req.olderThanHours with
  | none =>
    rw [hhours] at holder
    obtain rfl := Except.ok.inj holder
    cases hd
  | some hours =>
    rw [hhours, Api.olderThan] at holder
    split at holder
    · cases holder
    · rename_i hrange
      obtain rfl := Except.ok.inj holder
      obtain rfl := Option.some.inj hd
      simp only [not_or, not_le, not_lt] at hrange
      exact Int.mul_pos hrange.1 (by decide)

end

end Broom.Api
