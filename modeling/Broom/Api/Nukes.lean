import Broom.Jobs.Job

/-!
# Asking for a clean-up

A request for a clean-up names a finished scan of its session and the resources to
delete. Every selection must be part of the scan's result and deletable; the spec that
goes to the worker carries the selections themselves.
-/

namespace Broom.Api

open Broom.Core Broom.Engine Broom.Jobs

/-- The error reply of a handler. -/
structure ApiError where
  status : Nat
  code : String
  message : String
  deriving DecidableEq, Repr

/-- Who is signed in. -/
structure Identity where
  accountId : String
  iamUserName : String := ""
  deriving DecidableEq, Repr

/-- The body of a request for a clean-up. -/
structure CreateNukeRequest where
  scanJobId : String
  confirmAccountId : String
  selections : List Selection
  deriving DecidableEq, Repr

/-- Twelve digits. -/
def accountRe (s : String) : Bool := s.toList.length = 12 ∧ s.toList.all Char.isDigit

/-! ## Checks -/

/-- The checks on the request alone. -/
def CreateNukeRequest.check (req : CreateNukeRequest) (identity : Identity) :
    Except ApiError Unit := do
  if accountRe req.confirmAccountId = false ∨ req.confirmAccountId ≠ identity.accountId then
    throw ⟨400, "account_mismatch",
      "confirmation account id does not match the signed-in account"⟩
  if req.selections.length = 0 then throw ⟨400, "bad_request", "no resources selected"⟩
  if 20000 < req.selections.length then
    throw ⟨400, "bad_request", "too many selections in one request"⟩

/-- The checks on the scan that the request names. -/
def checkScan (sessionId : String) (scan : Option Job) : Except ApiError Job :=
  match scan with
  | none => throw ⟨404, "scan_not_found", "scan job not found for this session"⟩
  | some scan => do
    if scan.sessionId ≠ sessionId ∨ scan.spec.mode ≠ .scan then
      throw ⟨404, "scan_not_found", "scan job not found for this session"⟩
    if scan.state ≠ .succeeded then
      throw ⟨409, "scan_not_finished", "scan job has not finished successfully"⟩
    return scan

/-- What the loop over the selections gathers. -/
structure Chosen where
  seen : Finset String := ∅
  regionSet : Finset String := ∅
  typeSet : Finset String := ∅
  selections : List Selection := []

/-- Take one selection; a second one with the same key is skipped. -/
def Chosen.add (c : Chosen) (sel : Selection) : Chosen :=
  if sel.key ∈ c.seen then c
  else
    { seen := insert sel.key c.seen
      selections := c.selections ++ [sel]
      typeSet := insert sel.resourceType c.typeSet
      regionSet := if sel.region ≠ "global" then insert sel.region c.regionSet
        else c.regionSet }

/-- The loop over the selections. -/
def choose (found : PlainMap String FoundResource) :
    List Selection → Chosen → Except ApiError Chosen
  | [], c => .ok c
  | sel :: sels, c =>
    match found.lookup sel.key with
    | none => .error ⟨400, "unknown_selection", sel.resourceType ++ " " ++ sel.identifier ++
        " in " ++ sel.region ++ " was not part of the scan result"⟩
    | some f =>
      if f.nukable = false then
        .error ⟨400, "not_nukable", sel.resourceType ++ " " ++ sel.identifier ++
          " cannot be deleted: " ++ f.reason⟩
      else choose found sels (c.add sel)

/-- The regions to rescan, in the scan's order; one is needed for global types too. -/
def rescanRegions (scan : Engine.Spec) (c : Chosen) : List String :=
  let regions := scan.regions.filter (· ∈ c.regionSet)
  if regions.length = 0 then scan.regions.take 1 else regions

/-- The spec of the clean-up. -/
def nukeSpec (identity : Identity) (scan : Engine.Spec) (c : Chosen) : Engine.Spec where
  mode := .nuke
  regions := rescanRegions scan c
  resourceTypes := scan.resourceTypes.filter (· ∈ c.typeSet)
  selections := c.selections
  olderThan := scan.olderThan
  excludeIAMUserName := identity.iamUserName

/-- Turn a checked request into the spec of its clean-up. -/
def CreateNukeRequest.spec (req : CreateNukeRequest) (identity : Identity) (scan : Job) :
    Except ApiError Engine.Spec :=
  (choose scan.found req.selections {}).map (nukeSpec identity scan.spec)

/-- The handler of a request for a clean-up, up to the start of its job. -/
def handleCreateNuke (sessionId : String) (identity : Identity) (get : String → Option Job)
    (req : CreateNukeRequest) : Except ApiError Engine.Spec := do
  req.check identity
  let scan ← checkScan sessionId (get req.scanJobId)
  req.spec identity scan

/-! ## What the checks establish -/

/-- A step of a computation that returned a result returned one itself. -/
theorem bind_ok {ε α β : Type} {x : Except ε α} {f : α → Except ε β} {b : β}
    (h : (x >>= f) = .ok b) : ∃ a, x = .ok a ∧ f a = .ok b := by
  cases x with
  | error e => cases h
  | ok a => exact ⟨a, rfl, h⟩

/-- A guard that did not stop a computation does not hold. -/
theorem guard_ok {ε β : Type} {p : Prop} {inst : Decidable p} {e : ε} {k : PUnit → Except ε β}
    {b : β} (h : (if p then throw e >>= k else k ⟨⟩) = .ok b) : ¬p ∧ k ⟨⟩ = .ok b := by
  by_cases hp : p
  · rw [if_pos hp] at h
    cases h
  · rw [if_neg hp] at h
    exact ⟨hp, h⟩

theorem check_ok {req : CreateNukeRequest} {identity : Identity}
    (h : req.check identity = .ok ()) : req.confirmAccountId = identity.accountId := by
  unfold CreateNukeRequest.check at h
  obtain ⟨haccount, -⟩ := guard_ok h
  exact not_not.mp (not_or.mp haccount).2

theorem check_selections {req : CreateNukeRequest} {identity : Identity}
    (h : req.check identity = .ok ()) : req.selections ≠ [] := by
  unfold CreateNukeRequest.check at h
  obtain ⟨-, h⟩ := guard_ok h
  obtain ⟨hlen, -⟩ := guard_ok h
  exact fun hnil => hlen (congrArg List.length hnil)

theorem checkScan_ok {sessionId : String} {scan : Option Job} {j : Job}
    (h : checkScan sessionId scan = .ok j) :
    scan = some j ∧ j.sessionId = sessionId ∧ j.spec.mode = .scan ∧ j.state = .succeeded := by
  cases scan with
  | none => cases h
  | some scan =>
    simp only [checkScan] at h
    by_cases hown : scan.sessionId ≠ sessionId ∨ scan.spec.mode ≠ .scan
    · rw [if_pos hown] at h
      cases h
    · rw [if_neg hown] at h
      by_cases hst : scan.state ≠ .succeeded
      · simp [hst, throw, throwThe, MonadExceptOf.throw, bind, Except.bind] at h
      · simp only [ne_eq, not_or, not_not] at hown hst
        simp [hst, pure, Except.pure] at h
        subst h
        exact ⟨rfl, hown.1, hown.2, hst⟩

theorem mem_selections_add {c : Chosen} {sel s : Selection} (h : s ∈ (c.add sel).selections) :
    s ∈ c.selections ∨ s = sel := by
  unfold Chosen.add at h
  split at h
  · exact .inl h
  · simpa using h

/-- A chosen selection is one of the request's, and the scan found it deletable. -/
theorem choose_ok {found : PlainMap String FoundResource} {sels : List Selection} {c c' : Chosen}
    (h : choose found sels c = .ok c') {s : Selection} (hs : s ∈ c'.selections) :
    s ∈ c.selections ∨
      s ∈ sels ∧ ∃ f, found.lookup s.key = some f ∧ f.nukable = true := by
  induction sels generalizing c with
  | nil =>
    obtain rfl := Except.ok.inj h
    exact .inl hs
  | cons sel sels ih =>
    simp only [choose] at h
    cases hf : found.lookup sel.key with
    | none =>
      rw [hf] at h
      cases h
    | some f =>
      rw [hf] at h
      cases hn : f.nukable with
      | false => simp [hn] at h
      | true =>
        simp only [hn, Bool.true_eq_false, if_false] at h
        rcases ih h with hmem | ⟨hmem, hfound⟩
        · rcases mem_selections_add hmem with hmem | rfl
          · exact .inl hmem
          · exact .inr ⟨List.mem_cons_self .., f, hf, hn⟩
        · exact .inr ⟨List.mem_cons_of_mem _ hmem, hfound⟩

/-- The spec of an accepted request carries only selections of the request that the scan
found deletable. -/
theorem spec_ok {req : CreateNukeRequest} {identity : Identity} {scan : Job} {spec : Engine.Spec}
    (h : req.spec identity scan = .ok spec) :
    spec.mode = .nuke ∧ ∀ s ∈ spec.selections,
      s ∈ req.selections ∧ ∃ f, scan.found.lookup s.key = some f ∧ f.nukable = true := by
  unfold CreateNukeRequest.spec at h
  cases hc : choose scan.found req.selections {} with
  | error e =>
    rw [hc] at h
    cases h
  | ok c =>
    rw [hc] at h
    obtain rfl := Except.ok.inj h
    refine ⟨rfl, fun s hs => ?_⟩
    exact (choose_ok hc hs).resolve_left (List.not_mem_nil)

/-- What the loop has gathered agrees with the selections it has taken. -/
structure Chosen.Consistent (c : Chosen) : Prop where
  seen : ∀ key, key ∈ c.seen ↔ ∃ s ∈ c.selections, s.key = key
  types : ∀ t, t ∈ c.typeSet ↔ ∃ s ∈ c.selections, s.resourceType = t
  regions : ∀ g, g ∈ c.regionSet ↔ g ≠ "global" ∧ ∃ s ∈ c.selections, s.region = g

theorem consistent_empty : ({} : Chosen).Consistent := ⟨by simp, by simp, by simp⟩

theorem Chosen.Consistent.add {c : Chosen} (h : c.Consistent) (sel : Selection) :
    (c.add sel).Consistent := by
  unfold Chosen.add
  split
  · exact h
  · refine ⟨fun key => ?_, fun t => ?_, fun g => ?_⟩
    · simp only [Finset.mem_insert, h.seen, List.mem_append, List.mem_singleton, or_and_right,
        exists_or, exists_eq_left]
      rw [or_comm, eq_comm (a := key)]
    · simp only [Finset.mem_insert, h.types, List.mem_append, List.mem_singleton, or_and_right,
        exists_or, exists_eq_left]
      rw [or_comm, eq_comm (a := t)]
    · simp only [List.mem_append, List.mem_singleton, or_and_right, exists_or, exists_eq_left]
      split
      · rename_i hne
        rw [Finset.mem_insert, h.regions]
        constructor
        · rintro (rfl | ⟨hg, hs⟩)
          · exact ⟨hne, .inr rfl⟩
          · exact ⟨hg, .inl hs⟩
        · rintro ⟨hg, hs | rfl⟩
          · exact .inr ⟨hg, hs⟩
          · exact .inl rfl
      · rename_i hglobal
        rw [h.regions]
        constructor
        · rintro ⟨hg, hs⟩
          exact ⟨hg, .inl hs⟩
        · rintro ⟨hg, hs | rfl⟩
          · exact ⟨hg, hs⟩
          · exact absurd hg hglobal

/-- The loop keeps what was taken before, and something with each selection's key. -/
theorem choose_keeps {found : PlainMap String FoundResource} {sels : List Selection}
    {c c' : Chosen} (hc : c.Consistent) (h : choose found sels c = .ok c') :
    c'.Consistent ∧ (∀ s ∈ c.selections, s ∈ c'.selections) ∧
      ∀ s ∈ sels, (∃ f, found.lookup s.key = some f ∧ f.nukable = true) ∧
        ∃ s' ∈ c'.selections, s'.key = s.key := by
  induction sels generalizing c with
  | nil =>
    obtain rfl := Except.ok.inj h
    exact ⟨hc, fun s hs => hs, by simp⟩
  | cons sel sels ih =>
    simp only [choose] at h
    cases hf : found.lookup sel.key with
    | none =>
      rw [hf] at h
      cases h
    | some f =>
      rw [hf] at h
      cases hn : f.nukable with
      | false => simp [hn] at h
      | true =>
        simp only [hn, Bool.true_eq_false, if_false] at h
        obtain ⟨hc', hmem, hall⟩ := ih (hc.add sel) h
        have hold : ∀ s ∈ c.selections, s ∈ (c.add sel).selections := by
          intro s hs
          unfold Chosen.add
          split
          · exact hs
          · exact List.mem_append_left _ hs
        have hnew : ∃ s ∈ (c.add sel).selections, s.key = sel.key := by
          unfold Chosen.add
          split
          · rename_i hseen
            exact (hc.seen _).mp hseen
          · exact ⟨sel, List.mem_append_right _ (List.mem_singleton_self _), rfl⟩
        obtain ⟨s', hs', hkey⟩ := hnew
        exact ⟨hc', fun s hs => hmem s (hold s hs),
          List.forall_mem_cons.mpr ⟨⟨⟨f, hf, hn⟩, s', hmem s' hs', hkey⟩, hall⟩⟩

/-- An accepted request has passed the checks, and names a finished scan. -/
theorem handleCreateNuke_ok {sessionId : String} {identity : Identity}
    {get : String → Option Job} {req : CreateNukeRequest} {spec : Engine.Spec}
    (h : handleCreateNuke sessionId identity get req = .ok spec) :
    req.check identity = .ok () ∧ ∃ scan, get req.scanJobId = some scan ∧
      checkScan sessionId (some scan) = .ok scan ∧ req.spec identity scan = .ok spec := by
  unfold handleCreateNuke at h
  obtain ⟨⟨⟩, hcheck, h⟩ := bind_ok h
  obtain ⟨scan, hscan, h⟩ := bind_ok h
  have hget := (checkScan_ok hscan).1
  exact ⟨hcheck, scan, hget, hget ▸ hscan, h⟩

end Broom.Api
