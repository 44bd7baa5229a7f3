import Broom.Api.Handover

/-!
# Asking for the same scan again

What a handler has made of a request passes the checks of a request for a scan, and comes
out of them as it was.
-/

namespace Broom.Api

open Broom.Core Broom.Engine Broom.Jobs

/-- What a request for a scan may ask for as it stands. -/
structure Repeatable (cat : Catalog) (spec : Engine.Spec) : Prop where
  regions_nodup : spec.regions.Nodup
  regions_ne : spec.regions ≠ []
  regions : ∀ reg ∈ spec.regions, regionRe reg = true
  regions_le : spec.regions.length ≤ 40
  types_nodup : spec.resourceTypes.Nodup
  types_ne : spec.resourceTypes ≠ []
  types : ∀ t ∈ spec.resourceTypes, t ∈ cat.known
  types_le : spec.resourceTypes.length ≤ 200
  olderThan : ∀ d ∈ spec.olderThan, ∃ h : Nat, 0 < h ∧ h ≤ 8760 ∧ d = h * hour

theorem nodup_addNew {name : String} {out : List String} (h : out.Nodup) :
    (addNew name out).Nodup := by
  unfold addNew
  split
  · exact h
  · rename_i hnew
    exact List.nodup_append.mpr ⟨h, List.nodup_singleton name, fun a ha b hb => by
      rintro rfl
      exact hnew (List.mem_singleton.mp hb ▸ ha)⟩

/-- A new name is added at the end. -/
theorem addNew_of_notMem {name : String} {out : List String} (h : name ∉ out) :
    addNew name out = out ++ [name] := if_neg h

variable {quote : String → String} {cat : Catalog}

theorem nodup_collectRegions {regions out out' : List String} (hout : out.Nodup)
    (h : collectRegions quote regions out = .ok out') : out'.Nodup := by
  induction regions generalizing out with
  | nil => exact Except.ok.inj h ▸ hout
  | cons r regions ih =>
    simp only [collectRegions] at h
    split at h
    · exact ih (nodup_addNew hout) h
    · cases h

theorem nodup_collectTypes {types : List String} {acc acc' : List String × Bool}
    (hacc : acc.1.Nodup) (h : collectTypes quote cat types acc = .ok acc') : acc'.1.Nodup := by
  induction types generalizing acc with
  | nil => exact Except.ok.inj h ▸ hacc
  | cons t types ih =>
    simp only [collectTypes] at h
    split at h
    · cases h
    · exact ih (nodup_addNew hacc) h

/-- Different regions are kept as they are. -/
theorem collectRegions_same {regions out : List String} (hnodup : (out ++ regions).Nodup)
    (hre : ∀ reg ∈ regions, regionRe reg = true) :
    collectRegions quote regions out = .ok (out ++ regions) := by
  induction regions generalizing out with
  | nil => rw [collectRegions, List.append_nil]
  | cons r regions ih =>
    have hnew : r ∉ out := fun hr =>
      (List.nodup_append.mp hnodup).2.2 r hr r List.mem_cons_self rfl
    rw [List.append_cons] at hnodup
    rw [collectRegions, if_pos (hre r List.mem_cons_self), addNew_of_notMem hnew,
      ih hnodup fun reg hreg => hre reg (List.mem_cons_of_mem r hreg), ← List.append_cons]

/-- Different known types are kept as they are. -/
theorem collectTypes_same {types out : List String} (hnodup : (out ++ types).Nodup)
    (hknown : ∀ t ∈ types, t ∈ cat.known) (hasRegional : Bool) :
    ∃ b, collectTypes quote cat types (out, hasRegional) = .ok (out ++ types, b) := by
  induction types generalizing out hasRegional with
  | nil => exact ⟨hasRegional, by rw [collectTypes, List.append_nil]⟩
  | cons t types ih =>
    have hnew : t ∉ out := fun ht =>
      (List.nodup_append.mp hnodup).2.2 t ht t List.mem_cons_self rfl
    rw [List.append_cons] at hnodup
    have hlookup : cat.lookup t = some (cat.isGlobal t) := if_pos (hknown t List.mem_cons_self)
    obtain ⟨b, hb⟩ := ih hnodup (fun t' ht' => hknown t' (List.mem_cons_of_mem t ht'))
      (hasRegional || !cat.isGlobal t)
    refine ⟨b, ?_⟩
    simp only [collectTypes, hlookup, addNew_of_notMem hnew, hb, ← List.append_cons]

/-- The checks keep what may be asked for as it stands. -/
theorem Repeatable.validateScanInputs {spec : Engine.Spec} (h : Repeatable cat spec) :
    validateScanInputs quote cat spec.regions spec.resourceTypes =
      .ok (spec.regions, spec.resourceTypes) := by
  have hR : collectRegions quote spec.regions [] = .ok spec.regions :=
    collectRegions_same h.regions_nodup h.regions
  have hnodup : ([] ++ spec.resourceTypes).Nodup := h.types_nodup
  obtain ⟨b, hT⟩ : ∃ b, collectTypes quote cat spec.resourceTypes ([], false) =
    .ok (spec.resourceTypes, b) := collectTypes_same hnodup h.types false
  have hRlen : spec.regions.length ≠ 0 := fun hlen => h.regions_ne (List.length_eq_zero_iff.mp hlen)
  have hTlen : spec.resourceTypes.length ≠ 0 :=
    fun hlen => h.types_ne (List.length_eq_zero_iff.mp hlen)
  have hsize : ¬ (40 < spec.regions.length ∨ 200 < spec.resourceTypes.length) :=
    not_or.mpr ⟨Nat.not_lt.mpr h.regions_le, Nat.not_lt.mpr h.types_le⟩
  simp only [Api.validateScanInputs, hTlen, if_false, hR, hT, bind, Except.bind, pure, Except.pure,
    hRlen, and_false, hsize]

/-- Asking for a scan again is accepted, with the same spec. -/
theorem Repeatable.again {spec : Engine.Spec} (h : Repeatable cat spec) {hours : Option Int}
    (hhours : hours.map (· * hour) = spec.olderThan) (identity : Identity) :
    CreateScanRequest.spec quote cat ⟨spec.regions, spec.resourceTypes, hours⟩ identity =
      .ok { mode := .scan, regions := spec.regions, resourceTypes := spec.resourceTypes,
            excludeIAMUserName := identity.iamUserName, olderThan := spec.olderThan } := by
  have hfilter : Api.olderThan hours = .ok spec.olderThan := by
    cases hours with
    | none => rw [← hhours]; rfl
    | some n =>
      obtain ⟨k, hpos, hle, hk⟩ := h.olderThan (n * hour) (by rw [← hhours]; rfl)
      have hn : n = k := Int.eq_of_mul_eq_mul_right (by decide) hk
      have hrange : ¬ (n ≤ 0 ∨ 24 * 365 < n) := by omega
      rw [Api.olderThan, if_neg hrange, ← hhours]
      rfl
  simp only [CreateScanRequest.spec, h.validateScanInputs, hfilter]
  rfl

/-! ## What the handlers make -/

/-- The spec of a scan may be asked for again. -/
theorem Repeatable.of_scan {req : CreateScanRequest} {identity : Identity} {spec : Engine.Spec}
    (h : req.spec quote cat identity = .ok spec) : Repeatable cat spec := by
  have hscannable := CreateScanRequest.spec_ok h
  obtain ⟨⟨regions, types⟩, hinputs, h⟩ := bind_ok h
  obtain ⟨older, holder, h⟩ := bind_ok h
  obtain rfl := Except.ok.inj h
  have hvalid : Api.validateScanInputs quote cat req.regions req.resourceTypes =
      .ok (regions, types) := by
    cases hv : Api.validateScanInputs quote cat req.regions req.resourceTypes with
    | error msg =>
      rw [hv] at hinputs
      cases hinputs
    | ok out =>
      rw [hv] at hinputs
      exact congrArg _ (Except.ok.inj hinputs)
  unfold Api.validateScanInputs at hvalid
  obtain ⟨-, hvalid⟩ := guard_ok hvalid
  obtain ⟨outR, hR, hvalid⟩ := bind_ok hvalid
  obtain ⟨⟨outT, hasRegional⟩, hT, hvalid⟩ := bind_ok hvalid
  obtain ⟨-, hvalid⟩ := guard_ok hvalid
  obtain ⟨hsize, hvalid⟩ := guard_ok hvalid
  obtain ⟨rfl, rfl⟩ := Prod.mk.inj (Except.ok.inj hvalid)
  obtain ⟨hRle, hTle⟩ := not_or.mp hsize
  refine ⟨?_, hscannable.regions_ne, hscannable.regions, Nat.not_lt.mp hRle,
    nodup_collectTypes List.nodup_nil hT, hscannable.types_ne, hscannable.types,
    Nat.not_lt.mp hTle, fun d hd => ?_⟩
  · dsimp only
    split
    · exact List.nodup_singleton _
    · exact nodup_collectRegions List.nodup_nil hR
  · cases hhours : req.olderThanHours with
    | none =>
      rw [hhours] at holder
      obtain rfl := Except.ok.inj holder
      cases hd
    | some n =>
      rw [hhours, Api.olderThan] at holder
      split at holder
      · cases holder
      · rename_i hrange
        obtain rfl := Except.ok.inj holder
        obtain rfl := Option.some.inj hd
        simp only [not_or, not_le, not_lt] at hrange
        refine ⟨n.toNat, by omega, by omega, ?_⟩
        rw [Int.toNat_of_nonneg (by omega)]

/-- The spec of a scan has nothing but its regions, its types, its time filter and the user. -/
theorem CreateScanRequest.spec_eq {req : CreateScanRequest} {identity : Identity}
    {spec : Engine.Spec} (h : req.spec quote cat identity = .ok spec) :
    { mode := .scan, regions := spec.regions, resourceTypes := spec.resourceTypes,
      excludeIAMUserName := identity.iamUserName, olderThan := spec.olderThan } = spec := by
  obtain ⟨⟨regions, types⟩, -, h⟩ := bind_ok h
  obtain ⟨older, -, h⟩ := bind_ok h
  obtain rfl := Except.ok.inj h
  rfl

/-- The spec of a clean-up names a part of what its scan was asked for. -/
theorem Repeatable.part {scan spec : Engine.Spec} (h : Repeatable cat scan)
    (hR : spec.regions.Sublist scan.regions) (hRne : spec.regions ≠ [])
    (hT : spec.resourceTypes.Sublist scan.resourceTypes) (hTne : spec.resourceTypes ≠ [])
    (holder : spec.olderThan = scan.olderThan) : Repeatable cat spec where
  regions_nodup := h.regions_nodup.sublist hR
  regions_ne := hRne
  regions reg hreg := h.regions reg (hR.subset hreg)
  regions_le := hR.length_le.trans h.regions_le
  types_nodup := h.types_nodup.sublist hT
  types_ne := hTne
  types t ht := h.types t (hT.subset ht)
  types_le := hT.length_le.trans h.types_le
  olderThan := holder ▸ h.olderThan

/-- What the handlers start jobs with may be asked for again. -/
theorem Accepted.repeatable {spec : Engine.Spec} {keys : Finset String}
    (h : Accepted quote cat spec keys) : Repeatable cat spec := by
  cases h with
  | scan h => exact .of_scan h
  | @nuke _ _ _ scanSpec _ id scanSession account _ created ops _ req hscan hget hfinds hok =>
    obtain ⟨hcheck, scan, hscan', -, hspec⟩ := handleCreateNuke_ok hok
    obtain rfl := Option.some.inj (hget.symm.trans hscan')
    have hsame : ((newJob id scanSession account scanSpec created).run ops).spec = scanSpec :=
      (congrArg (fun i => i.2.2.2) (Job.identity_run _ ops) :)
    have hfiled :=
      ((newJob_aggregated id scanSession account scanSpec created).run ops).filed hfinds
    obtain ⟨hsel, hfound⟩ := selections_found hfiled (fun f hf => hf.nulFree) hspec
    obtain ⟨htypes, -, hne, hR, hT, holder, -⟩ := spec_projections hspec
    rw [hsame] at htypes hne hR hT holder
    have hscanned : Repeatable cat scanSpec := .of_scan hscan
    -- one selection is enough to have a type
    obtain ⟨s, hs⟩ := List.exists_mem_of_ne_nil _ (check_selections hcheck)
    obtain ⟨f, hf, rfl⟩ := hfound s hs
    have htype : f.resourceType ∈ spec.resourceTypes :=
      (htypes _).mpr ⟨hf.type_mem, _, (hsel _).mpr hs, rfl⟩
    exact hscanned.part hR (hne hscanned.regions_ne) hT (List.ne_nil_of_mem htype) holder

end Broom.Api
