import Broom.Catalog.Build
import Broom.Tools.IamPolicy

/-!
# The policy documents

From the entries of the resource types the generator writes a policy for scanning, a policy
for each service of the catalog, and a table for the review. A service's policy allows the
operations of its types and no others; the policy for scanning reads and tags.
-/

namespace Broom.Tools

open Broom.Core Broom.Catalog

/-! ## Patterns -/

/-- The letters of a service in an action. -/
def serviceLetter (c : Char) : Bool := c.isLower ∨ c.isDigit ∨ c = '-'

/-- What follows the service of an action and its colon. -/
def operationOf (a : String) : Option (List Char) :=
  match a.toList.span serviceLetter with
  | (_ :: _, ':' :: op) => some op
  | _ => none

/-- The words that reading operations begin with. -/
def readWords : List String :=
  ["List", "Describe", "Get", "Head", "Search", "Lookup", "Query", "Scan", "BatchGet",
    "BatchDescribe", "GET"]

def readOnlyRe (a : String) : Bool :=
  (operationOf a).any fun op => readWords.any fun w => w.toList.isPrefixOf op

def wordLetter (c : Char) : Bool := c.isAlphanum ∨ c = '_'

/-- An operation that writes tags. -/
def tagOperation (op : List Char) : Bool :=
  op = "CreateTags".toList || op = "PutBucketTagging".toList ||
    (match "Tag".toList.isPrefixOf? op with
      | some (c :: rest) => c.isUpper && rest.all wordLetter
      | _ => false) ||
    (match "AddTags".toList.isPrefixOf? op with
      | some rest => rest.all wordLetter
      | none => false)

def tagWriteRe (a : String) : Bool := (operationOf a).any tagOperation

/-! ## Documents -/

structure Statement where
  sid : String
  effect : String := ""
  action : List String
  resource : String := ""
  deriving DecidableEq, Repr

abbrev Policy := List Statement

/-- The statements that a policy is written with. -/
def Policy.doc (p : Policy) : List Statement :=
  (p.filter fun s => s.action.length ≠ 0).map fun s => { s with effect := "Allow", resource := "*" }

/-- The actions that every run needs. -/
def baseActions : List String := ["sts:GetCallerIdentity", "ec2:DescribeRegions"]

def pascalPart : List Char → List Char
  | [] => []
  | c :: part => c.toUpper :: part

def pascal (s : String) : String := String.ofList ((s.toList.splitOn '-').flatMap pascalPart)

/-- A row of the table: the type, its service, the mark of a dry run and the actions. -/
structure Row where
  id : String
  group : String
  dry : String
  actions : List String
  deriving DecidableEq, Repr

/-- What the generator writes. -/
structure Output where
  files : PlainMap String (List Statement)
  table : List Row

inductive RunError
  | extract (err : ExtractError)
  | missing (ids : List String)
  /-- A type of the catalog has no entry. -/
  | nilPointer
  deriving DecidableEq, Repr

/-- The entries by their ids; a later one replaces an earlier one. -/
def byID (infos : List ResourceInfo) : PlainMap String ResourceInfo :=
  enter ∅ (infos.map fun r => (r.id, r))

/-- The policy for scanning. -/
def scanPolicy (infos : List ResourceInfo) : Policy :=
  let actions := infos.flatMap ResourceInfo.actions
  [{ sid := "BroomBase", action := baseActions },
    { sid := "BroomScanReadOnly", action := keys (actions.filter readOnlyRe) },
    { sid := "BroomScanOlderThanFirstSeenTags"
      action := keys (actions.filter fun a => !readOnlyRe a && tagWriteRe a) }]

def scanPath : String := "docs/iam/scan.json"

def cleanPath (svc : Service) : String := "docs/iam/clean-" ++ svc.id ++ ".json"

/-- The actions of an entry that is there. -/
def actionsOf (infos : List ResourceInfo) (rt : ResourceType) : Except RunError (List String) :=
  match (byID infos).lookup rt.id with
  | some r => .ok r.actions
  | none => .error .nilPointer

/-- The policy of a service. -/
def cleanPolicy (infos : List ResourceInfo) (svc : Service) : Except RunError Policy := do
  let set ← gather (actionsOf infos) svc.resourceTypes
  return [{ sid := "BroomBase", action := baseActions },
    { sid := "BroomClean" ++ pascal svc.id, action := keys set }]

/-- The document of a service, under its path. -/
def cleanFile (infos : List ResourceInfo) (svc : Service) :
    Except RunError (List (String × List Statement)) :=
  (cleanPolicy infos svc).map fun p => [(cleanPath svc, p.doc)]

/-- The services of the types; a later one replaces an earlier one. -/
def groupOf (services : List Service) : PlainMap String String :=
  enter ∅ (services.flatMap fun svc => svc.resourceTypes.map fun rt => (rt.id, svc.id))

def writeTable (services : List Service) (infos : List ResourceInfo) : List Row :=
  infos.map fun r =>
    { id := r.id
      group := ((groupOf services).lookup r.id).getD ""
      dry := if r.dryRunCheck then "yes" else ""
      actions := r.actions }

/-- The generator, from the entries on: the registered types and the catalog's services. -/
def run (known : List String) (services : List Service)
    (extracted : Except ExtractError (List ResourceInfo)) : Except RunError Output := do
  let infos ← extracted.mapError RunError.extract
  let missing := known.filter fun id => ((byID infos).lookup id).isNone
  if missing.length > 0 then throw (.missing missing)
  let cleans ← gather (cleanFile infos) services
  return {
    files := enter ∅ ((scanPath, (scanPolicy infos).doc) :: cleans)
    table := writeTable services infos }

/-! ## What a policy allows -/

/-- Some statement of a document allows an action, on every resource. -/
def Allows (doc : List Statement) (a : String) : Prop :=
  ∃ s ∈ doc, s.effect = "Allow" ∧ s.resource = "*" ∧ a ∈ s.action

/-- A policy is written with what its statements name. -/
theorem allows_doc {p : Policy} {a : String} : Allows p.doc a ↔ ∃ s ∈ p, a ∈ s.action := by
  constructor
  · rintro ⟨s, hs, -, -, ha⟩
    obtain ⟨s', hs', rfl⟩ := List.mem_map.mp hs
    exact ⟨s', (List.mem_filter.mp hs').1, ha⟩
  · rintro ⟨s, hs, ha⟩
    have hne : s.action.length ≠ 0 := (List.length_pos_of_mem ha).ne'
    exact ⟨_, List.mem_map_of_mem (List.mem_filter.mpr ⟨hs, decide_eq_true hne⟩), rfl, rfl, ha⟩

/-- The policy for scanning allows what every run needs, and those actions of the entries that
read or write tags. -/
theorem allows_scanPolicy {infos : List ResourceInfo} {a : String} :
    Allows (scanPolicy infos).doc a ↔ a ∈ baseActions ∨
      (∃ r ∈ infos, a ∈ r.actions) ∧ (readOnlyRe a = true ∨ tagWriteRe a = true) := by
  rw [allows_doc]
  simp only [scanPolicy, List.mem_cons, List.not_mem_nil, or_false, exists_eq_or_imp,
    exists_eq_left, mem_keys_iff, List.mem_filter, List.mem_flatMap, Bool.and_eq_true,
    Bool.not_eq_true']
  cases readOnlyRe a <;> simp

/-- The policy of a service allows what every run needs, and what its types call. -/
theorem allows_cleanPolicy {infos : List ResourceInfo} {svc : Service} {p : Policy}
    (h : cleanPolicy infos svc = .ok p) {a : String} : Allows p.doc a ↔ a ∈ baseActions ∨
      ∃ rt ∈ svc.resourceTypes, ∃ r, (byID infos).lookup rt.id = some r ∧ a ∈ r.actions := by
  rw [allows_doc]
  cases hset : gather (actionsOf infos) svc.resourceTypes with
  | error e =>
    rw [cleanPolicy, hset] at h
    cases h
  | ok set =>
    rw [cleanPolicy, hset] at h
    obtain rfl := Except.ok.inj h
    obtain ⟨hok, rfl⟩ := gather_ok_iff.mp hset
    simp only [List.mem_cons, List.not_mem_nil, or_false, exists_eq_or_imp, exists_eq_left,
      mem_keys_iff, List.mem_flatMap]
    refine or_congr_right (exists_congr fun rt => and_congr_right fun hrt => ?_)
    obtain ⟨acts, hacts⟩ := hok rt hrt
    rw [yields, hacts]
    unfold actionsOf at hacts
    split at hacts
    · rename_i r hr
      obtain rfl := Except.ok.inj hacts
      rw [hr]
      simp only [Option.some.injEq, exists_eq_left']
      rfl
    · cases hacts

/-! ## What scanning does not do -/

/-- The words that operations begin with which take something away or change it. -/
def destructiveWords : List String :=
  ["Delete", "Terminate", "Remove", "Deregister", "Disassociate", "Detach", "Disable", "Release",
    "Revoke", "Cancel", "Stop", "Schedule", "Purge", "Empty", "Update", "Modify"]

def Destructive (a : String) : Prop :=
  ∃ op, operationOf a = some op ∧ ∃ w ∈ destructiveWords, w.toList <+: op

/-- The words that an operation that writes tags begins with. -/
def tagWords : List String := ["CreateTags", "PutBucketTagging", "Tag", "AddTags"]

theorem prefix_of_tagOperation {op : List Char} (h : tagOperation op = true) :
    ∃ w ∈ tagWords, w.toList <+: op := by
  have hword {w : String} (hw : w ∈ tagWords) {rest : List Char}
      (h : w.toList.isPrefixOf? op = some rest) : ∃ w ∈ tagWords, w.toList <+: op :=
    ⟨w, hw, rest, List.isPrefixOf?_eq_some_iff_append_eq.mp h⟩
  simp only [tagOperation, Bool.or_eq_true, decide_eq_true_eq] at h
  rcases h with ((rfl | rfl) | h) | h
  · exact ⟨"CreateTags", by decide, List.prefix_rfl⟩
  · exact ⟨"PutBucketTagging", by decide, List.prefix_rfl⟩
  · split at h
    · exact hword (w := "Tag") (by decide) ‹_›
    · cases h
  · split at h
    · exact hword (w := "AddTags") (by decide) ‹_›
    · cases h

/-- An action that reads or writes tags is not destructive. -/
theorem not_destructive {a : String} (h : readOnlyRe a = true ∨ tagWriteRe a = true) :
    ¬ Destructive a := by
  rintro ⟨op, hop, w, hw, hprefix⟩
  obtain ⟨v, hv, hprefix'⟩ : ∃ v ∈ readWords ++ tagWords, v.toList <+: op := by
    rcases h with h | h
    · rw [readOnlyRe, hop] at h
      obtain ⟨v, hv, hprefix'⟩ := List.any_eq_true.mp h
      exact ⟨v, List.mem_append_left _ hv, List.isPrefixOf_iff_prefix.mp hprefix'⟩
    · rw [tagWriteRe, hop] at h
      obtain ⟨v, hv, hprefix'⟩ := prefix_of_tagOperation h
      exact ⟨v, List.mem_append_right _ hv, hprefix'⟩
  -- no word of one kind begins with one of the other
  have hapart : ∀ v ∈ readWords ++ tagWords, ∀ w ∈ destructiveWords,
      ¬ v.toList <+: w.toList ∧ ¬ w.toList <+: v.toList := by decide
  obtain ⟨hvw, hwv⟩ := hapart v hv w hw
  exact (List.prefix_or_prefix_of_prefix hprefix' hprefix).elim hvw hwv

/-! ## The run -/

/-- The generator stops where a registered type has no entry; else it writes all policies. -/
theorem run_ok {known : List String} {services : List Service} {infos : List ResourceInfo} :
    run known services (.ok infos) =
      if (known.filter fun id => ((byID infos).lookup id).isNone).length > 0 then
        .error (.missing (known.filter fun id => ((byID infos).lookup id).isNone))
      else (gather (cleanFile infos) services).map fun cleans =>
        { files := enter ∅ ((scanPath, (scanPolicy infos).doc) :: cleans)
          table := writeTable services infos } := by
  unfold run
  split <;> rename_i hmissing
  · simp [Except.mapError, bind, Except.bind, hmissing, throw, throwThe, MonadExceptOf.throw]
  · simp only [Except.mapError, bind, Except.bind, hmissing, if_false]
    cases gather (cleanFile infos) services <;> rfl

/-- An id has an entry, if some entry has the id. -/
theorem byID_isSome_iff {infos : List ResourceInfo} {id : String} :
    ((byID infos).lookup id).isSome ↔ ∃ r ∈ infos, r.id = id := by
  rw [byID, isSome_lookup_enter, List.map_map, List.mem_map]
  rfl

/-- Entries with distinct ids are found by their ids. -/
theorem lookup_byID_iff {infos : List ResourceInfo} (h : (infos.map ResourceInfo.id).Nodup)
    {id : String} {r : ResourceInfo} :
    (byID infos).lookup id = some r ↔ r ∈ infos ∧ r.id = id := by
  have honce : ∀ p ∈ infos.map fun r => (r.id, r), ∀ q ∈ infos.map fun r => (r.id, r),
      p.1 = id → q.1 = id → p = q := by
    intro p hp q hq hpid hqid
    obtain ⟨r, hr, rfl⟩ := List.mem_map.mp hp
    obtain ⟨r', hr', rfl⟩ := List.mem_map.mp hq
    obtain rfl := List.inj_on_of_nodup_map h hr hr' (hpid.trans hqid.symm)
    rfl
  rw [byID, lookup_enter_iff honce, List.mem_map]
  constructor
  · rintro ⟨r', hr', heq⟩
    obtain ⟨rfl, rfl⟩ := Prod.mk.inj heq
    exact ⟨hr', rfl⟩
  · rintro ⟨hr, rfl⟩
    exact ⟨r, hr, rfl⟩

/-- If every type of a service has an entry, the service has a policy. -/
theorem exists_cleanPolicy {infos : List ResourceInfo} {svc : Service}
    (h : ∀ rt ∈ svc.resourceTypes, ∃ r ∈ infos, r.id = rt.id) :
    ∃ p, cleanPolicy infos svc = .ok p := by
  have hok : ∀ rt ∈ svc.resourceTypes, ∃ acts, actionsOf infos rt = .ok acts := fun rt hrt => by
    obtain ⟨r, hr⟩ := Option.isSome_iff_exists.mp (byID_isSome_iff.mpr (h rt hrt))
    exact ⟨r.actions, by rw [actionsOf, hr]⟩
  exact ⟨_, by rw [cleanPolicy, gather_eq hok]; rfl⟩

theorem cleanPath_inj {svc svc' : Service} (h : cleanPath svc = cleanPath svc') :
    svc.id = svc'.id := by
  have hl := congrArg String.toList h
  simp only [cleanPath, String.toList_append] at hl
  exact String.toList_inj.mp (List.append_cancel_left (List.append_cancel_right hl))

theorem cleanPath_ne_scanPath (svc : Service) : cleanPath svc ≠ scanPath := by
  intro h
  have hl := congrArg (fun s : String => s.toList.take 10) h
  simp [cleanPath, scanPath] at hl

/-- The document of a service that has a policy. -/
theorem mem_yields_cleanFile {infos : List ResourceInfo} {svc : Service}
    {q : String × List Statement} : q ∈ yields (cleanFile infos) svc ↔
      ∃ p, cleanPolicy infos svc = .ok p ∧ q = (cleanPath svc, p.doc) := by
  unfold yields cleanFile
  cases cleanPolicy infos svc with
  | error e => simp [Except.map, Except.toOption]
  | ok p => simp [Except.map, Except.toOption]

/-- No two documents have one path. -/
theorem files_once {infos : List ResourceInfo} {services : List Service}
    (hids : (services.map Service.id).Nodup) (doc : List Statement)
    {q q' : String × List Statement}
    (hq : q ∈ (scanPath, doc) :: services.flatMap (yields (cleanFile infos)))
    (hq' : q' ∈ (scanPath, doc) :: services.flatMap (yields (cleanFile infos)))
    (hpath : q.1 = q'.1) : q = q' := by
  have hclean {q : String × List Statement}
      (hq : q ∈ services.flatMap (yields (cleanFile infos))) :
      ∃ svc ∈ services, ∃ p, cleanPolicy infos svc = .ok p ∧ q = (cleanPath svc, p.doc) := by
    obtain ⟨svc, hsvc, hq⟩ := List.mem_flatMap.mp hq
    exact ⟨svc, hsvc, mem_yields_cleanFile.mp hq⟩
  rcases List.mem_cons.mp hq with rfl | hq
  · rcases List.mem_cons.mp hq' with rfl | hq'
    · rfl
    · obtain ⟨svc, -, p, -, rfl⟩ := hclean hq'
      exact absurd hpath.symm (cleanPath_ne_scanPath svc)
  · obtain ⟨svc, hsvc, p, hp, rfl⟩ := hclean hq
    rcases List.mem_cons.mp hq' with rfl | hq'
    · exact absurd hpath (cleanPath_ne_scanPath svc)
    · obtain ⟨svc', hsvc', p', hp', rfl⟩ := hclean hq'
      obtain rfl := List.inj_on_of_nodup_map hids hsvc hsvc' (cleanPath_inj hpath)
      obtain rfl := Except.ok.inj (hp.symm.trans hp')
      rfl

/-! ## The catalog -/

section

variable (known globals : List String) {serviceDefs : List ServiceDef}

/-- The services of the catalog have distinct ids if those of the table have. -/
theorem services_ids_nodup (h : (mapped serviceDefs).Nodup)
    (hids : (serviceDefs.map ServiceDef.id ++ ["other"]).Nodup) :
    ((build known globals serviceDefs).services.map Service.id).Nodup := by
  obtain ⟨rest, byType, hbuild, -⟩ := build_spec known globals h
  refine hids.sublist ?_
  rw [hbuild, List.map_append]
  refine List.Sublist.append ?_ ?_
  · have hmap : serviceDefs.map ServiceDef.id = (serviceDefs.map
        (service (known.contains ·) (globals.contains ·))).map Service.id := by
      rw [List.map_map]
      rfl
    rw [hmap]
    exact List.filter_sublist.map _
  · split
    · exact List.Sublist.refl _
    · exact List.nil_sublist _

end

/-! ## The policies of a package -/

/-- A registered type's client has an operation that takes an action. -/
def Package.Needs (pkg : Package) (id a : String) : Prop :=
  ∃ r ∈ pkg.registrations, r.id = id ∧ ∃ d, r.client = some d ∧
    ∃ m acts, pkg.HasMethod d m ∧ actionsFor m = .ok acts ∧ a ∈ acts

/-- No id is read that is not registered. -/
def Package.ReadsRegistered (pkg : Package) : Prop :=
  ∀ files, files.Perm pkg.files → ¬ Rejected files → ∀ p ∈ readable files,
    ∃ r ∈ pkg.registrations, r.id = p.2.id

/-- What was written is what the types of a package need, service by service. -/
structure Output.Fits (out : Output) (pkg : Package) (known : List String)
    (services : List Service) : Prop where
  /-- A service's policy allows what its types need, and nothing else. -/
  clean : ∀ svc ∈ services, ∃ doc, out.files.lookup (cleanPath svc) = some doc ∧
    ∀ a, Allows doc a ↔ a ∈ baseActions ∨ ∃ rt ∈ svc.resourceTypes, pkg.Needs rt.id a
  /-- The policy for scanning allows what some type needs to read or to write tags. -/
  scan : ∃ doc, out.files.lookup scanPath = some doc ∧
    (∀ a, Allows doc a ↔ a ∈ baseActions ∨
      (∃ id, pkg.Needs id a) ∧ (readOnlyRe a = true ∨ tagWriteRe a = true)) ∧
    ∀ a, Allows doc a → ¬ Destructive a
  /-- Every type that the library knows is in the table, under a service with a policy. -/
  table : ∀ id ∈ known, ∃ row ∈ out.table, row.id = id ∧
    (∀ a, a ∈ row.actions ↔ pkg.Needs id a) ∧
    ∃ svc ∈ services, row.group = svc.id ∧ ∃ rt ∈ svc.resourceTypes, rt.id = id

section

variable {pkg : Package} {infos infos' : List ResourceInfo}

/-- Entries are those of registered types. -/
theorem exists_registered (hread : pkg.ReadsRegistered) (h : pkg.Extracts infos)
    {r : ResourceInfo} (hr : r ∈ infos) : ∃ reg ∈ pkg.registrations, reg.id = r.id := by
  obtain ⟨files, hfiles, haccepted, hperm, -⟩ := returned_of_extracts h
  obtain ⟨p, hp, rfl⟩ := List.mem_map.mp (hperm.mem_iff.mp hr)
  exact hread files hfiles (accepted_iff_not_rejected.mp haccepted) p hp

/-- The entries hold what the types need. -/
theorem mem_actions_iff (hpkg : pkg.Mappable) (hread : pkg.ReadsRegistered)
    (h : pkg.Extracts infos) {r : ResourceInfo} (hr : r ∈ infos) {a : String} :
    a ∈ r.actions ↔ pkg.Needs r.id a := by
  obtain ⟨reg, hreg, hid⟩ := exists_registered hread h hr
  obtain ⟨d, hd, -⟩ := hpkg.explicit reg hreg
  rw [hpkg.complete.actions infos h reg hreg d hd r hr hid.symm a]
  constructor
  · rintro ⟨m, acts, hm⟩
    exact ⟨reg, hreg, hid, d, hd, m, acts, hm⟩
  · rintro ⟨reg', hreg', hid', d', hd', m, acts, hm⟩
    have hclient := hpkg.unambiguous reg hreg reg' hreg' (hid.trans hid'.symm)
    obtain rfl := Option.some.inj (hd.symm.trans (hclient.trans hd'))
    exact ⟨m, acts, hm⟩

/-- The entries are those of the registered types. -/
theorem exists_entry_iff (hpkg : pkg.Mappable) (hread : pkg.ReadsRegistered)
    (h : pkg.Extracts infos) {id : String} :
    (∃ r ∈ infos, r.id = id) ↔ ∃ r ∈ pkg.registrations, r.id = id := by
  constructor
  · rintro ⟨r, hr, rfl⟩
    exact exists_registered hread h hr
  · rintro ⟨reg, hreg, rfl⟩
    have hone := hpkg.complete.one infos h reg hreg
    obtain ⟨r, hr⟩ := List.exists_mem_of_length_pos (hone.symm ▸ Nat.one_pos)
    obtain ⟨hmem, hid⟩ := List.mem_filter.mp hr
    exact ⟨r, hmem, of_decide_eq_true hid⟩

/-- No two entries have one id. -/
theorem nodup_ids (hpkg : pkg.Mappable) (hread : pkg.ReadsRegistered) (h : pkg.Extracts infos) :
    (infos.map ResourceInfo.id).Nodup := by
  refine List.nodup_iff_count_le_one.mpr fun id => ?_
  by_cases hid : id ∈ infos.map ResourceInfo.id
  · obtain ⟨r, hr, rfl⟩ := List.mem_map.mp hid
    obtain ⟨reg, hreg, hid⟩ := exists_registered hread h hr
    have hone := hpkg.complete.one infos h reg hreg
    rw [hid] at hone
    rw [List.count, List.countP_map, List.countP_eq_length_filter]
    exact hone.le
  · rw [List.count_eq_zero_of_not_mem hid]
    exact Nat.zero_le 1

/-- The entries do not depend on the orders of the files. -/
theorem extracts_unique (hpkg : pkg.Mappable) (hread : pkg.ReadsRegistered)
    (h : pkg.Extracts infos) (h' : pkg.Extracts infos') : infos = infos' := by
  have hsub {infos infos' : List ResourceInfo} (h : pkg.Extracts infos)
      (h' : pkg.Extracts infos') : ∀ r ∈ infos, r ∈ infos' := fun r hr => by
    obtain ⟨reg, hreg, hid⟩ := exists_registered hread h hr
    obtain ⟨r', hr', hid'⟩ := (exists_entry_iff hpkg hread h').mpr ⟨reg, hreg, hid⟩
    rwa [hpkg.complete.same infos infos' h h' reg hreg r hr r' hr' hid.symm (hid'.trans hid.symm)]
  have hnodup := nodup_ids hpkg hread h'
  have hperm : infos.Perm infos' :=
    (List.perm_ext_iff_of_nodup (nodup_ids hpkg hread h).of_map hnodup.of_map).mpr fun r =>
      ⟨hsub h h' r, hsub h' h r⟩
  obtain ⟨-, -, -, -, hsorted⟩ := returned_of_extracts h
  obtain ⟨-, -, -, -, hsorted'⟩ := returned_of_extracts h'
  exact hperm.eq_of_pairwise (fun a b ha hb hab hba => List.inj_on_of_nodup_map hnodup
    (hperm.mem_iff.mp ha) hb (le_antisymm hab hba)) hsorted hsorted'

/-- A needed action stands in some entry. -/
theorem exists_needs_iff (hpkg : pkg.Mappable) (hread : pkg.ReadsRegistered)
    (h : pkg.Extracts infos) {a : String} :
    (∃ r ∈ infos, a ∈ r.actions) ↔ ∃ id, pkg.Needs id a := by
  constructor
  · rintro ⟨r, hr, ha⟩
    exact ⟨r.id, (mem_actions_iff hpkg hread h hr).mp ha⟩
  · rintro ⟨id, hneeds⟩
    have ⟨reg, hreg, hid, _⟩ := hneeds
    obtain ⟨r, hr, rfl⟩ := (exists_entry_iff hpkg hread h).mpr ⟨reg, hreg, hid⟩
    exact ⟨r, hr, (mem_actions_iff hpkg hread h hr).mpr hneeds⟩

variable {known : List String} {services : List Service} {out : Output}

/-- If no entry is missing, every known type has one. -/
theorem entries_of_not_missing
    (h : ¬ (known.filter fun id => ((byID infos).lookup id).isNone).length > 0) {id : String}
    (hid : id ∈ known) : ∃ r ∈ infos, r.id = id := by
  rw [gt_iff_lt, Nat.not_lt, Nat.le_zero, List.length_eq_zero_iff, List.filter_eq_nil_iff] at h
  exact byID_isSome_iff.mp (by simpa [Option.isSome_iff_ne_none] using h id hid)

/-- Then every service of known types has a policy. -/
theorem policies_of_not_missing
    (h : ¬ (known.filter fun id => ((byID infos).lookup id).isNone).length > 0)
    (hlisted : ∀ svc ∈ services, ∀ rt ∈ svc.resourceTypes, rt.id ∈ known) {svc : Service}
    (hsvc : svc ∈ services) : ∃ p, cleanPolicy infos svc = .ok p :=
  exists_cleanPolicy fun rt hrt => entries_of_not_missing h (hlisted svc hsvc rt hrt)

theorem files_of_not_missing
    (h : ¬ (known.filter fun id => ((byID infos).lookup id).isNone).length > 0)
    (hlisted : ∀ svc ∈ services, ∀ rt ∈ svc.resourceTypes, rt.id ∈ known) {svc : Service}
    (hsvc : svc ∈ services) : ∃ q, cleanFile infos svc = .ok q := by
  obtain ⟨p, hp⟩ := policies_of_not_missing h hlisted hsvc
  exact ⟨_, by rw [cleanFile, hp]; rfl⟩

/-- What a run has written that found all entries. -/
theorem run_files (hlisted : ∀ svc ∈ services, ∀ rt ∈ svc.resourceTypes, rt.id ∈ known)
    (hids : (services.map Service.id).Nodup) (hout : run known services (.ok infos) = .ok out) :
    (∀ id ∈ known, ∃ r ∈ infos, r.id = id) ∧ out.table = writeTable services infos ∧
      out.files.lookup scanPath = some (scanPolicy infos).doc ∧
      ∀ svc ∈ services, ∃ p, cleanPolicy infos svc = .ok p ∧
        out.files.lookup (cleanPath svc) = some p.doc := by
  rw [run_ok] at hout
  split at hout
  · cases hout
  · rename_i hmissing
    rw [gather_eq fun svc hsvc => files_of_not_missing hmissing hlisted hsvc] at hout
    obtain rfl := Except.ok.inj hout
    refine ⟨fun id hid => entries_of_not_missing hmissing hid, rfl, ?_, fun svc hsvc => ?_⟩
    · exact (lookup_enter_iff fun q hq q' hq' hk hk' =>
        files_once hids _ hq hq' (hk.trans hk'.symm)).mpr (List.mem_cons_self ..)
    · obtain ⟨p, hp⟩ := policies_of_not_missing hmissing hlisted hsvc
      refine ⟨p, hp, (lookup_enter_iff fun q hq q' hq' hk hk' =>
        files_once hids _ hq hq' (hk.trans hk'.symm)).mpr (List.mem_cons_of_mem _ ?_)⟩
      exact List.mem_flatMap.mpr ⟨svc, hsvc, mem_yields_cleanFile.mpr ⟨p, hp, rfl⟩⟩

/-- What is written of a package's entries fits the package. -/
theorem fits_of_run (hpkg : pkg.Mappable) (hread : pkg.ReadsRegistered) (h : pkg.Extracts infos)
    (hlisted : ∀ id, (∃ svc ∈ services, ∃ rt ∈ svc.resourceTypes, rt.id = id) ↔ id ∈ known)
    (hids : (services.map Service.id).Nodup) (hout : run known services (.ok infos) = .ok out) :
    out.Fits pkg known services := by
  obtain ⟨hall, htable, hscan, hclean⟩ :=
    run_files (fun svc hsvc rt hrt => (hlisted rt.id).mp ⟨svc, hsvc, rt, hrt, rfl⟩) hids hout
  have hentries := nodup_ids hpkg hread h
  refine ⟨fun svc hsvc => ?_, ⟨_, hscan, fun a => ?_, fun a ha => ?_⟩, fun id hid => ?_⟩
  · obtain ⟨p, hp, hfile⟩ := hclean svc hsvc
    refine ⟨_, hfile, fun a => ?_⟩
    rw [allows_cleanPolicy hp]
    refine or_congr_right (exists_congr fun rt => and_congr_right fun hrt => ?_)
    simp only [lookup_byID_iff hentries]
    constructor
    · rintro ⟨r, ⟨hr, hid⟩, ha⟩
      exact hid ▸ (mem_actions_iff hpkg hread h hr).mp ha
    · intro hneeds
      obtain ⟨r, hr, hid⟩ := hall rt.id ((hlisted rt.id).mp ⟨svc, hsvc, rt, hrt, rfl⟩)
      exact ⟨r, ⟨hr, hid⟩, (mem_actions_iff hpkg hread h hr).mpr (hid ▸ hneeds)⟩
  · rw [allows_scanPolicy, exists_needs_iff hpkg hread h]
  · rcases allows_scanPolicy.mp ha with hbase | ⟨-, hkind⟩
    · have hread : ∀ a ∈ baseActions, readOnlyRe a = true := by decide
      exact not_destructive (.inl (hread a hbase))
    · exact not_destructive hkind
  · obtain ⟨r, hr, rfl⟩ := hall id hid
    obtain ⟨svc, hsvc, rt, hrt, hrid⟩ := (hlisted r.id).mpr hid
    obtain ⟨group, hgroup⟩ : ∃ group, (groupOf services).lookup r.id = some group := by
      refine Option.isSome_iff_exists.mp (isSome_lookup_enter.mpr (List.mem_map.mpr ?_))
      exact ⟨(rt.id, svc.id), List.mem_flatMap.mpr ⟨svc, hsvc, List.mem_map_of_mem hrt⟩, hrid⟩
    obtain ⟨svc', hsvc', hpair⟩ := List.mem_flatMap.mp (mem_of_lookup_enter hgroup)
    obtain ⟨rt', hrt', heq⟩ := List.mem_map.mp hpair
    rw [htable]
    refine ⟨_, List.mem_map_of_mem hr, rfl, fun a => mem_actions_iff hpkg hread h hr, svc', hsvc',
      ?_, rt', hrt', congrArg Prod.fst heq⟩
    rw [hgroup, Option.getD_some]
    exact (congrArg Prod.snd heq).symm

/-- The generator complains about the known types that are not registered. -/
theorem missing_of_run (hpkg : pkg.Mappable) (hread : pkg.ReadsRegistered)
    (h : pkg.Extracts infos)
    (hlisted : ∀ svc ∈ services, ∀ rt ∈ svc.resourceTypes, rt.id ∈ known) {err : RunError}
    (hout : run known services (.ok infos) = .error err) :
    ∃ ids, err = .missing ids ∧ ids ≠ [] ∧
      ∀ id, id ∈ ids ↔ id ∈ known ∧ ∀ r ∈ pkg.registrations, r.id ≠ id := by
  rw [run_ok] at hout
  split at hout
  · rename_i hmissing
    obtain rfl := Except.error.inj hout
    refine ⟨_, rfl, List.length_pos_iff.mp hmissing, fun id => ?_⟩
    have hnone : ((byID infos).lookup id).isNone ↔ ¬ ∃ r ∈ pkg.registrations, r.id = id := by
      rw [← exists_entry_iff hpkg hread h, ← byID_isSome_iff, ← Option.not_isSome,
        Bool.not_eq_true', Bool.not_eq_true]
    rw [List.mem_filter, hnone]
    push Not
    rfl
  · rename_i hmissing
    rw [gather_eq fun svc hsvc => files_of_not_missing hmissing hlisted hsvc] at hout
    cases hout

/-- For every package whose registrations can be read and mapped and in which nothing else is
read, every catalog with distinct types and services, and every orders of the files in which
the generator finds the entries, what it writes fits the package and is the same; where it
fails after that, it names the known types that are not registered. -/
theorem policies_fit (hpkg : pkg.Mappable) (hread : pkg.ReadsRegistered)
    (known globals : List String) {serviceDefs : List ServiceDef}
    (hmapped : (mapped serviceDefs).Nodup)
    (hids : (serviceDefs.map ServiceDef.id ++ ["other"]).Nodup)
    {first second : List (String × GoFile)} (hfirst : first.Perm pkg.files)
    (hsecond : second.Perm pkg.files) (hok : extract first second = .ok infos) :
    let services := (build known globals serviceDefs).services
    (∀ out, run known services (extract first second) = .ok out → out.Fits pkg known services) ∧
      (∀ err, run known services (extract first second) = .error err →
        ∃ ids, err = .missing ids ∧ ids ≠ [] ∧
          ∀ id, id ∈ ids ↔ id ∈ known ∧ ∀ r ∈ pkg.registrations, r.id ≠ id) ∧
      ∀ first' second' infos', first'.Perm pkg.files → second'.Perm pkg.files →
        extract first' second' = .ok infos' →
        run known services (extract first' second') =
          run known services (extract first second) := by
  intro services
  have hextracts : pkg.Extracts infos := ⟨first, second, hfirst, hsecond, hok⟩
  have hlisted (id : String) : (∃ svc ∈ services, ∃ rt ∈ svc.resourceTypes, rt.id = id) ↔
      id ∈ known := by
    rw [← (listed_spec known globals hmapped).2.1 id, Built.listed]
    simp only [List.mem_flatMap]
    tauto
  rw [hok]
  refine ⟨fun out hout => ?_, fun err herr => ?_,
    fun first' second' infos' hfirst' hsecond' hok' => ?_⟩
  · exact fits_of_run hpkg hread hextracts hlisted (services_ids_nodup known globals hmapped hids)
      hout
  · exact missing_of_run hpkg hread hextracts
      (fun svc hsvc rt hrt => (hlisted rt.id).mp ⟨svc, hsvc, rt, hrt, rfl⟩) herr
  · rw [hok', extracts_unique hpkg hread ⟨first', second', hfirst', hsecond', hok'⟩ hextracts]

end

/-! ## A package of one resource -/

/-- The parameters of an operation on topics. -/
private def topicParams (input : String) : List Node :=
  [.selector (.ident "context") "Context", .star (.selector (.ident "sns") input)]

/-- A client interface for topics, and the constructor that names it. -/
def topicFiles : List (String × GoFile) :=
  [("sns.go", {
    imports := [⟨"\"github.com/aws/aws-sdk-go-v2/service/sns\"", none⟩]
    decls := [
      .gen false [.interface "SNSTopicAPI" [.method "ListTopics" (topicParams "ListTopicsInput"),
        .method "TagResource" (topicParams "TagResourceInput"),
        .method "DeleteTopic" (topicParams "DeleteTopicInput")]],
      .func [.compositeLit
        (some (.index (.selector (.ident "resource") "Resource") (.ident "SNSTopicAPI")))
        [.keyValue (.ident "ResourceTypeName") (.string "snstopic")]]] })]

def topicPackage : Package where
  files := topicFiles
  value _ := literal
  client _ := interfaceNamed topicFiles
  embedded _ := interfaceNamed topicFiles

private theorem topicRegistrations : ∃ d, topicPackage.registrations = [⟨"snstopic", some d⟩] ∧
    d.Explicit ∧ (lastInterfaces topicFiles).lookup "SNSTopicAPI" = some d := by
  refine ⟨_, rfl, fun e he => ?_, rfl⟩
  rcases List.mem_cons.mp he with rfl | he
  · exact ⟨_, _, _, _, rfl⟩
  · rcases List.mem_cons.mp he with rfl | he
    · exact ⟨_, _, _, _, rfl⟩
    · obtain rfl := List.mem_singleton.mp he
      exact ⟨_, _, _, _, rfl⟩

/-- The one registration is read, in the only order of the one file. -/
private theorem topicReadable {files : List (String × GoFile)}
    (h : files.Perm topicPackage.files) : files = topicFiles ∧
      ∃ v, readable files = [(v, ⟨"snstopic", "SNSTopicAPI"⟩)] := by
  obtain rfl : files = topicFiles := List.perm_singleton.mp h
  exact ⟨rfl, _, rfl⟩

theorem topicPackage_mappable : topicPackage.Mappable := by
  obtain ⟨d, hregistrations, hexplicit, hlookup⟩ := topicRegistrations
  refine ⟨?_, ?_, ?_, ?_⟩ <;> rw [hregistrations]
  · exact List.forall_mem_singleton.mpr ⟨d, rfl, hexplicit⟩
  · exact List.forall_mem_singleton.mpr (List.forall_mem_singleton.mpr fun _ => rfl)
  · obtain ⟨-, v, hv⟩ := topicReadable (.refl topicFiles)
    refine List.forall_mem_singleton.mpr ⟨place (v, ⟨"snstopic", "SNSTopicAPI"⟩),
      fun files hfiles _ => ?_⟩
    obtain ⟨rfl, -⟩ := topicReadable hfiles
    rw [hv]
    rfl
  · refine List.forall_mem_singleton.mpr fun d' hd' files hfiles _ p hp _ d'' hd'' a => ?_
    obtain ⟨rfl, v, hv⟩ := topicReadable hfiles
    rw [hv] at hp
    obtain rfl := List.mem_singleton.mp hp
    obtain rfl := Option.some.inj hd'
    obtain rfl := Option.some.inj (hlookup.symm.trans hd'')
    rfl

theorem topicPackage_reads : topicPackage.ReadsRegistered := by
  intro files hfiles _ p hp
  obtain ⟨d, hregistrations, -⟩ := topicRegistrations
  obtain ⟨-, v, hv⟩ := topicReadable hfiles
  rw [hv] at hp
  obtain rfl := List.mem_singleton.mp hp
  exact ⟨⟨"snstopic", some d⟩, hregistrations ▸ List.mem_singleton_self _, rfl⟩

/-- Topics are the only type of the only service. -/
def topicTable : List ServiceDef :=
  [⟨"messaging", .low, true, [⟨"snstopic", "SNS topics", .other ""⟩]⟩]

/-- Topics may be listed and tagged when scanning, and deleted when cleaning. -/
theorem topicPolicies_fit : ∃ out,
    run ["snstopic"] (build ["snstopic"] [] topicTable).services (extract topicFiles topicFiles) =
      .ok out ∧
    out.Fits topicPackage ["snstopic"] (build ["snstopic"] [] topicTable).services := by
  obtain ⟨infos, hinfos⟩ : ∃ infos, extract topicFiles topicFiles = .ok infos := ⟨_, rfl⟩
  obtain ⟨out, hout⟩ : ∃ out, run ["snstopic"] (build ["snstopic"] [] topicTable).services
    (extract topicFiles topicFiles) = .ok out := ⟨_, rfl⟩
  exact ⟨out, hout, (policies_fit topicPackage_mappable topicPackage_reads ["snstopic"] []
    (by decide) (by decide) (.refl _) (.refl _) hinfos).1 out hout⟩

end Broom.Tools
