import Broom.Api.Handover

/-!
# The selection of an accepted clean-up

The handler takes each resource once, and only resources that the scan found. So the keys of
the selection tell its resources apart.
-/

namespace Broom.Api

open Broom.Core Broom.Engine Broom.Jobs

/-- Resources that their keys tell apart. -/
structure Distinct (selections : List Selection) : Prop where
  keys : (selections.map Selection.key).Nodup
  nulFree : ∀ s ∈ selections,
    NulFree s.resourceType ∧ NulFree s.region ∧ NulFree s.identifier

theorem Distinct.nodup {selections : List Selection} (h : Distinct selections) :
    selections.Nodup := .of_map _ h.keys

/-- A resource whose key is selected is selected itself. -/
theorem Distinct.mem {selections : List Selection} (h : Distinct selections) {s : Selection}
    (hkey : s.key ∈ selectionKeys selections) : s ∈ selections := by
  obtain ⟨s', hs', heq⟩ := List.mem_map.mp (List.mem_toFinset.mp hkey)
  obtain ⟨ht, hg, hi⟩ := h.nulFree s' hs'
  obtain rfl := Selection.eq_of_key_eq ht hg hi heq.symm
  exact hs'

theorem Chosen.Consistent.keys_nodup {c : Chosen} (h : c.Consistent)
    (hkeys : (c.selections.map Selection.key).Nodup) (sel : Selection) :
    ((c.add sel).selections.map Selection.key).Nodup := by
  unfold Chosen.add
  split
  · exact hkeys
  · rename_i hnew
    rw [List.map_append, List.map_singleton]
    refine List.nodup_append'.mpr ⟨hkeys, List.nodup_singleton _, fun key hold hlast => ?_⟩
    obtain rfl := List.mem_singleton.mp hlast
    exact hnew ((h.seen _).mpr (List.mem_map.mp hold))

/-- The loop over the selections takes each key once. -/
theorem choose_keys_nodup {found : PlainMap String FoundResource} {sels : List Selection}
    {c c' : Chosen} (hc : c.Consistent) (hkeys : (c.selections.map Selection.key).Nodup)
    (h : choose found sels c = .ok c') : (c'.selections.map Selection.key).Nodup := by
  induction sels generalizing c with
  | nil =>
    obtain rfl := Except.ok.inj h
    exact hkeys
  | cons sel sels ih =>
    simp only [choose] at h
    cases hf : found.lookup sel.key with
    | none =>
      rw [hf] at h
      cases h
    | some f =>
      rw [hf] at h
      cases hn : f.nukable with
      | false => simp [hn] at h
      | true =>
        simp only [hn, Bool.true_eq_false, if_false] at h
        exact ih (hc.add sel) (hc.keys_nodup hkeys sel) h

/-- The resources of an accepted spec are told apart by their keys. -/
theorem Accepted.distinct {quote : String → String} {cat : Catalog} {spec : Engine.Spec}
    {keys : Finset String} (h : Accepted quote cat spec keys) : Distinct spec.selections := by
  cases h with
  | scan h =>
    rw [(CreateScanRequest.spec_ok h).selections]
    exact ⟨List.nodup_nil, fun s hs => absurd hs List.not_mem_nil⟩
  | @nuke _ _ _ scanSpec _ id scanSession account _ created ops _ req hscan hget hfinds hok =>
    obtain ⟨-, scan, hscan', -, hspec⟩ := handleCreateNuke_ok hok
    obtain rfl := Option.some.inj (hget.symm.trans hscan')
    have hfiled :=
      ((newJob_aggregated id scanSession account scanSpec created).run ops).filed hfinds
    obtain ⟨hsel, hfound⟩ := selections_found hfiled (fun f hf => hf.nulFree) hspec
    constructor
    · unfold CreateNukeRequest.spec at hspec
      cases hc : choose (((newJob id scanSession account scanSpec created).run ops).found)
        req.selections {} with
      | error e =>
        rw [hc] at hspec
        cases hspec
      | ok c =>
        rw [hc] at hspec
        obtain rfl := Except.ok.inj hspec
        exact choose_keys_nodup consistent_empty List.nodup_nil hc
    · intro s hs
      obtain ⟨f, hf, rfl⟩ := hfound s ((hsel s).mp hs)
      exact hf.nulFree

end Broom.Api
