import Mathlib.Data.List.Nodup
import Mathlib.Data.List.Sort
import Mathlib.Data.String.Basic
import Broom.Core.OrderedMap

/-!
# The catalog

The resource types of the deletion library, grouped into services by a hand-maintained
table. A first pass goes through the table and leaves out what the library does not know,
a second pass through the library's list and collects what the table leaves out. The map
of the records by their id is also the mark that a type has its place.
-/

namespace Broom.Catalog

open Broom.Core

/-- A coarse hint for the page; the empty name is Go's zero value. -/
inductive Risk
  | low
  | medium
  | high
  | other (name : String)
  deriving DecidableEq, Repr

/-- One resource type of the library. -/
structure ResourceType where
  id : String
  label : String
  /-- Lives in the global pseudo-region. -/
  isGlobal : Bool
  risk : Risk
  deriving DecidableEq, Repr

/-- A group of resource types. -/
structure Service where
  id : String
  risk : Risk
  defaultSelected : Bool
  resourceTypes : List ResourceType
  deriving DecidableEq, Repr

/-- A type in the table; an empty risk is the service's. -/
structure TypeDef where
  id : String
  label : String
  risk : Risk := .other ""
  deriving DecidableEq, Repr

/-- A service in the table. -/
structure ServiceDef where
  id : String
  risk : Risk
  selected : Bool
  types : List TypeDef
  deriving DecidableEq, Repr

/-- The package's variables after the build. -/
structure Built where
  services : List Service
  byType : PlainMap String ResourceType
  globalSet : String → Bool

/-- The ids of the table. -/
def mapped (serviceDefs : List ServiceDef) : List String :=
  serviceDefs.flatMap fun d => d.types.map fun t => t.id

/-- The record of a type in the table. -/
def record (globalSet : String → Bool) (d : ServiceDef) (t : TypeDef) : ResourceType where
  id := t.id
  label := t.label
  isGlobal := globalSet t.id
  risk := if t.risk = .other "" then d.risk else t.risk

/-- The record of a type the table leaves out. -/
def otherRecord (globalSet : String → Bool) (id : String) : ResourceType where
  id := id
  label := id
  isGlobal := globalSet id
  risk := .medium

/-- One turn of the loop over a service's types: the types placed in it so far and the map. -/
def placeType (knownSet globalSet : String → Bool) (d : ServiceDef)
    (acc : List ResourceType × PlainMap String ResourceType) (t : TypeDef) :
    List ResourceType × PlainMap String ResourceType :=
  if knownSet t.id then
    (acc.1 ++ [record globalSet d t], acc.2.insert t.id (record globalSet d t))
  else acc

/-- One turn of the loop over the table: the services so far and the map. -/
def placeService (knownSet globalSet : String → Bool)
    (acc : List Service × PlainMap String ResourceType) (d : ServiceDef) :
    List Service × PlainMap String ResourceType :=
  let placed := d.types.foldl (placeType knownSet globalSet d) ([], acc.2)
  if placed.1.length > 0 then
    (acc.1 ++ [{ id := d.id, risk := d.risk, defaultSelected := d.selected,
                 resourceTypes := placed.1 }], placed.2)
  else (acc.1, placed.2)

/-- One turn of the loop over the library's types: the types of `other` and the map. -/
def placeOther (globalSet : String → Bool)
    (acc : List ResourceType × PlainMap String ResourceType) (id : String) :
    List ResourceType × PlainMap String ResourceType :=
  if (acc.2.lookup id).isSome then acc
  else (acc.1 ++ [otherRecord globalSet id], acc.2.insert id (otherRecord globalSet id))

/-- The service of the types that the table leaves out. -/
def otherService (types : List ResourceType) : Service where
  id := "other"
  risk := .medium
  defaultSelected := false
  resourceTypes := types.insertionSort fun x y => x.id ≤ y.id

/-- Build the catalog from the types that the library knows, the global ones, and the
table. -/
def build (known globals : List String) (serviceDefs : List ServiceDef) : Built :=
  let knownSet id := known.contains id
  let globalSet id := globals.contains id
  let grouped := serviceDefs.foldl (placeService knownSet globalSet) ([], ∅)
  let rest := known.foldl (placeOther globalSet) ([], grouped.2)
  { services := if rest.1.length > 0 then grouped.1 ++ [otherService rest.1] else grouped.1
    byType := rest.2
    globalSet := globalSet }

/-- The resource type of an id. -/
def Built.lookup (c : Built) (id : String) : Option ResourceType := c.byType.lookup id

/-- Whether a resource type lives in the global pseudo-region. -/
def Built.isGlobal (c : Built) (id : String) : Bool := c.globalSet id

/-- All listed records, service by service. -/
def Built.listed (c : Built) : List ResourceType := c.services.flatMap fun s => s.resourceTypes

/-! ## Placed records -/

/-- The map holds exactly the placed records, each under its own id. -/
structure Placed (types : List ResourceType) (byType : PlainMap String ResourceType) : Prop where
  nodup : (types.map fun rt => rt.id).Nodup
  lookup_iff : ∀ id rt, byType.lookup id = some rt ↔ rt ∈ types ∧ rt.id = id

theorem placed_nil : Placed [] ∅ where
  nodup := List.nodup_nil
  lookup_iff := by simp

variable {types : List ResourceType} {byType : PlainMap String ResourceType}

/-- An id has an entry as soon as a record with it is placed. -/
theorem Placed.isSome_iff (h : Placed types byType) (id : String) :
    (byType.lookup id).isSome ↔ id ∈ types.map fun rt => rt.id := by
  rw [Option.isSome_iff_exists, List.mem_map]
  exact exists_congr fun rt => h.lookup_iff id rt

/-- A record with a new id is placed. -/
theorem Placed.insert (h : Placed types byType) (rt : ResourceType)
    (hnew : rt.id ∉ types.map fun rt => rt.id) :
    Placed (types ++ [rt]) (byType.insert rt.id rt) where
  nodup := by
    rw [List.map_append, List.map_singleton, List.nodup_append]
    refine ⟨h.nodup, List.nodup_singleton _, ?_⟩
    intro id hid id' hid' he
    rw [List.mem_singleton.mp hid'] at he
    exact hnew (he ▸ hid)
  lookup_iff := by
    intro id rt'
    rw [List.mem_append, List.mem_singleton]
    by_cases hid : id = rt.id
    · subst hid
      rw [AList.lookup_insert, Option.some.injEq]
      constructor
      · rintro rfl
        exact ⟨.inr rfl, rfl⟩
      · rintro ⟨hmem | rfl, he⟩
        · exact absurd (List.mem_map.mpr ⟨rt', hmem, he⟩) hnew
        · rfl
    · rw [AList.lookup_insert_ne hid, h.lookup_iff]
      constructor
      · rintro ⟨hmem, he⟩
        exact ⟨.inl hmem, he⟩
      · rintro ⟨hmem | rfl, he⟩
        · exact ⟨hmem, he⟩
        · exact absurd he.symm hid

/-! ## The first pass -/

section table

variable (knownSet globalSet : String → Bool)

/-- The records of a service of the table that the library knows. -/
def records (d : ServiceDef) : List ResourceType :=
  (d.types.filter fun t => knownSet t.id).map (record globalSet d)

/-- A service of the table with its records. -/
def service (d : ServiceDef) : Service where
  id := d.id
  risk := d.risk
  defaultSelected := d.selected
  resourceTypes := records knownSet globalSet d

/-- The services of the table with a record. -/
def services (serviceDefs : List ServiceDef) : List Service :=
  (serviceDefs.map (service knownSet globalSet)).filter fun s => s.resourceTypes.length > 0

variable {knownSet globalSet}

theorem services_cons (d : ServiceDef) (ds : List ServiceDef) :
    services knownSet globalSet (d :: ds) =
      (if (records knownSet globalSet d).length > 0 then [service knownSet globalSet d] else []) ++
        services knownSet globalSet ds := by
  rw [services, services, List.map_cons, List.filter_cons]
  by_cases h : (records knownSet globalSet d).length > 0
  · rw [if_pos (by simpa [service] using h), if_pos h]
    rfl
  · rw [if_neg (by simpa [service] using h), if_neg h]
    rfl

/-- The services of the table hold the records of the table. -/
theorem flatMap_services (ds : List ServiceDef) :
    ((services knownSet globalSet ds).flatMap fun s => s.resourceTypes) =
      ds.flatMap (records knownSet globalSet) := by
  induction ds with
  | nil => rfl
  | cons d ds ih =>
    rw [services_cons, List.flatMap_append, ih, List.flatMap_cons]
    congr 1
    split
    · rw [List.flatMap_singleton, service]
    · exact (List.length_eq_zero_iff.mp (by omega)).symm

theorem mem_services {ds : List ServiceDef} {s : Service} :
    s ∈ services knownSet globalSet ds ↔
      (∃ d ∈ ds, service knownSet globalSet d = s) ∧ s.resourceTypes.length > 0 := by
  simp only [services, List.mem_filter, List.mem_map, decide_eq_true_eq]

theorem mem_records {d : ServiceDef} {rt : ResourceType} :
    rt ∈ records knownSet globalSet d ↔
      ∃ t ∈ d.types, knownSet t.id ∧ record globalSet d t = rt := by
  simp only [records, List.mem_map, List.mem_filter, and_assoc]

/-- A type that the library knows has its record in its service. -/
theorem record_mem_records {d : ServiceDef} {t : TypeDef} (ht : t ∈ d.types)
    (hk : knownSet t.id) : record globalSet d t ∈ records knownSet globalSet d :=
  mem_records.mpr ⟨t, ht, hk, rfl⟩

/-- The table has records of exactly the ids that it names and the library knows. -/
theorem mem_map_records_iff {ds : List ServiceDef} {id : String} :
    id ∈ (ds.flatMap (records knownSet globalSet)).map (fun rt => rt.id) ↔
      knownSet id ∧ id ∈ mapped ds := by
  constructor
  · intro hid
    obtain ⟨rt, hrt, rfl⟩ := List.mem_map.mp hid
    obtain ⟨d, hd, hrt⟩ := List.mem_flatMap.mp hrt
    obtain ⟨t, ht, hk, rfl⟩ := mem_records.mp hrt
    exact ⟨hk, List.mem_flatMap.mpr ⟨d, hd, List.mem_map.mpr ⟨t, ht, rfl⟩⟩⟩
  · rintro ⟨hk, hid⟩
    obtain ⟨d, hd, hid⟩ := List.mem_flatMap.mp hid
    obtain ⟨t, ht, rfl⟩ := List.mem_map.mp hid
    exact List.mem_map.mpr ⟨_, List.mem_flatMap.mpr ⟨d, hd, record_mem_records ht hk⟩, rfl⟩

/-- The ids of a service's records are among the ids of its types, in their order. -/
theorem map_records_sublist (d : ServiceDef) :
    List.Sublist ((records knownSet globalSet d).map fun rt => rt.id)
      (d.types.map fun t => t.id) := by
  have hids : (records knownSet globalSet d).map (fun rt => rt.id) =
      (d.types.filter fun t => knownSet t.id).map fun t => t.id := by
    rw [records, List.map_map]
    rfl
  rw [hids]
  exact List.filter_sublist.map _

variable (knownSet globalSet)

/-- The loop over a service's types appends its records and places them. -/
theorem foldl_placeType (d : ServiceDef) (ts : List TypeDef) (acc : List ResourceType)
    (h : Placed types byType)
    (hnodup : (types.map (fun rt => rt.id) ++ ts.map fun t => t.id).Nodup) :
    ∃ byType', ts.foldl (placeType knownSet globalSet d) (acc, byType) =
        (acc ++ (ts.filter fun t => knownSet t.id).map (record globalSet d), byType') ∧
      Placed (types ++ (ts.filter fun t => knownSet t.id).map (record globalSet d)) byType' := by
  induction ts generalizing acc types byType with
  | nil => exact ⟨byType, by simp, by simpa using h⟩
  | cons t ts ih =>
    have hsub : List.Sublist (types.map (fun rt => rt.id) ++ ts.map fun t => t.id)
        (types.map (fun rt => rt.id) ++ (t :: ts).map fun t => t.id) :=
      (List.sublist_cons_self ..).append_left _
    rw [List.foldl_cons, placeType]
    by_cases hk : knownSet t.id
    · have hnew : t.id ∉ types.map fun rt => rt.id := by
        intro hmem
        exact (List.nodup_append.mp hnodup).2.2 _ hmem t.id (List.mem_cons_self ..) rfl
      have hnodup' : ((types ++ [record globalSet d t]).map (fun rt => rt.id) ++
          ts.map fun t => t.id).Nodup := by
        simpa [record] using hnodup
      obtain ⟨byType', heq, hplaced⟩ :=
        ih (acc ++ [record globalSet d t]) (h.insert (record globalSet d t) hnew) hnodup'
      refine ⟨byType', ?_, ?_⟩
      · simp only [record] at heq
        rw [if_pos hk]
        simpa [hk, record] using heq
      · simpa [hk] using hplaced
    · obtain ⟨byType', heq, hplaced⟩ := ih acc h (hnodup.sublist hsub)
      refine ⟨byType', ?_, ?_⟩
      · rw [if_neg hk]
        simpa [hk] using heq
      · simpa [hk] using hplaced

/-- The loop over the table appends its services and places their records. -/
theorem foldl_placeService (ds : List ServiceDef) (acc : List Service)
    (h : Placed types byType)
    (hnodup : (types.map (fun rt => rt.id) ++ mapped ds).Nodup) :
    ∃ byType', ds.foldl (placeService knownSet globalSet) (acc, byType) =
        (acc ++ services knownSet globalSet ds, byType') ∧
      Placed (types ++ ds.flatMap (records knownSet globalSet)) byType' := by
  induction ds generalizing acc types byType with
  | nil => exact ⟨byType, by simp [services], by simpa using h⟩
  | cons d ds ih =>
    have hmapped : mapped (d :: ds) = (d.types.map fun t => t.id) ++ mapped ds := List.flatMap_cons
    rw [hmapped] at hnodup
    have hfirst : (types.map (fun rt => rt.id) ++ d.types.map fun t => t.id).Nodup :=
      hnodup.sublist ((List.sublist_append_left ..).append_left _)
    have hrest : ((types ++ records knownSet globalSet d).map (fun rt => rt.id) ++
        mapped ds).Nodup := by
      refine hnodup.sublist ?_
      rw [List.map_append, List.append_assoc]
      exact ((map_records_sublist d).append_right _).append_left _
    obtain ⟨byType₁, heq₁, hplaced₁⟩ : ∃ byType₁,
        d.types.foldl (placeType knownSet globalSet d) ([], byType) =
          (records knownSet globalSet d, byType₁) ∧
        Placed (types ++ records knownSet globalSet d) byType₁ :=
      foldl_placeType knownSet globalSet d d.types [] h hfirst
    have hone : placeService knownSet globalSet (acc, byType) d = (acc ++
        (if (records knownSet globalSet d).length > 0 then [service knownSet globalSet d] else []),
        byType₁) := by
      simp only [placeService, heq₁]
      by_cases hlen : (records knownSet globalSet d).length > 0
      · rw [if_pos hlen, if_pos hlen]
        rfl
      · rw [if_neg hlen, if_neg hlen, List.append_nil]
    obtain ⟨byType', heq, hplaced⟩ := ih _ hplaced₁ hrest
    refine ⟨byType', ?_, ?_⟩
    · rw [List.foldl_cons, hone, heq, services_cons, List.append_assoc]
    · rw [List.flatMap_cons, ← List.append_assoc]
      exact hplaced

/-! ## The second pass -/

/-- The loop over the library's types collects records of ids without one, and leaves no id
without a record. -/
theorem foldl_placeOther (ids : List String) (acc : List ResourceType)
    (h : Placed (types ++ acc) byType) :
    ∃ rest byType', ids.foldl (placeOther globalSet) (acc, byType) = (rest, byType') ∧
      Placed (types ++ rest) byType' ∧ (∀ rt ∈ acc, rt ∈ rest) ∧
      (∀ rt ∈ rest, rt ∈ acc ∨ rt.id ∈ ids ∧ rt = otherRecord globalSet rt.id ∧
        rt.id ∉ types.map fun rt => rt.id) ∧
      ∀ id ∈ ids, id ∈ (types ++ rest).map fun rt => rt.id := by
  induction ids generalizing acc byType with
  | nil => exact ⟨acc, byType, rfl, h, fun _ => id, fun _ => .inl, by simp⟩
  | cons id ids ih =>
    rw [List.foldl_cons, placeOther]
    by_cases hplace : (byType.lookup id).isSome
    · -- the id has its place already
      rw [if_pos hplace]
      obtain ⟨rest, byType', heq, hplaced, hkeep, hrest, hall⟩ := ih acc h
      refine ⟨rest, byType', heq, hplaced, hkeep, ?_, ?_⟩
      · intro rt hrt
        exact (hrest rt hrt).imp_right fun ⟨hid, h⟩ => ⟨List.mem_cons_of_mem _ hid, h⟩
      · intro id' hid'
        rcases List.mem_cons.mp hid' with rfl | hid'
        · obtain ⟨rt, hrt, rfl⟩ := List.mem_map.mp ((h.isSome_iff _).mp hplace)
          refine List.mem_map_of_mem ?_
          rcases List.mem_append.mp hrt with hrt | hrt
          · exact List.mem_append_left _ hrt
          · exact List.mem_append_right _ (hkeep rt hrt)
        · exact hall id' hid'
    · -- the id gets its place at the end
      rw [if_neg hplace]
      have hnew : id ∉ (types ++ acc).map fun rt => rt.id := fun hmem =>
        hplace ((h.isSome_iff id).mpr hmem)
      have hins := h.insert (otherRecord globalSet id) hnew
      rw [List.append_assoc] at hins
      obtain ⟨rest, byType', heq, hplaced, hkeep, hrest, hall⟩ :=
        ih (acc ++ [otherRecord globalSet id]) hins
      refine ⟨rest, byType', heq, hplaced, ?_, ?_, ?_⟩
      · exact fun rt hrt => hkeep rt (List.mem_append_left _ hrt)
      · intro rt hrt
        rcases hrest rt hrt with hacc | ⟨hid, h⟩
        · rcases List.mem_append.mp hacc with hacc | hacc
          · exact .inl hacc
          · obtain rfl := List.mem_singleton.mp hacc
            refine .inr ⟨List.mem_cons_self .., rfl, fun hmem => hnew ?_⟩
            rw [List.map_append]
            exact List.mem_append_left _ hmem
        · exact .inr ⟨List.mem_cons_of_mem _ hid, h⟩
      · intro id' hid'
        rcases List.mem_cons.mp hid' with rfl | hid'
        · have hmem : otherRecord globalSet id' ∈ types ++ rest :=
            List.mem_append_right _ (hkeep _ (List.mem_append_right _ (List.mem_singleton_self _)))
          exact List.mem_map.mpr ⟨_, hmem, rfl⟩
        · exact hall id' hid'

end table

instance : IsTrans ResourceType fun x y => x.id ≤ y.id := ⟨fun _ _ _ => le_trans⟩

instance : Std.Total fun x y : ResourceType => x.id ≤ y.id := ⟨fun x y => le_total x.id y.id⟩

theorem mem_otherService {rest : List ResourceType} {rt : ResourceType} :
    rt ∈ (otherService rest).resourceTypes ↔ rt ∈ rest :=
  (List.perm_insertionSort (fun x y : ResourceType => x.id ≤ y.id) rest).mem_iff

/-- Records with different ids are listed in the strict order of their ids. -/
theorem pairwise_otherService {rest : List ResourceType}
    (h : (rest.map fun rt => rt.id).Nodup) :
    (otherService rest).resourceTypes.Pairwise fun x y => x.id < y.id := by
  have hle := List.pairwise_insertionSort (fun x y : ResourceType => x.id ≤ y.id) rest
  have hperm := List.perm_insertionSort (fun x y : ResourceType => x.id ≤ y.id) rest
  have hne := List.pairwise_map.mp ((hperm.map fun rt => rt.id).nodup_iff.mpr h)
  exact (hle.and hne).imp fun h => lt_of_le_of_ne h.1 h.2

/-- What the build leaves behind: the services of the table, the rest under `other`, and
the map of all records. -/
theorem build_spec (known globals : List String) {serviceDefs : List ServiceDef}
    (h : (mapped serviceDefs).Nodup) :
    ∃ rest byType, build known globals serviceDefs =
        { services := services (known.contains ·) (globals.contains ·) serviceDefs ++
            if rest.length > 0 then [otherService rest] else []
          byType := byType
          globalSet := (globals.contains ·) } ∧
      Placed (serviceDefs.flatMap (records (known.contains ·) (globals.contains ·)) ++ rest)
        byType ∧
      (∀ rt ∈ rest, rt.id ∈ known ∧ rt = otherRecord (globals.contains ·) rt.id) ∧
      ∀ id ∈ known, id ∈ (serviceDefs.flatMap
        (records (known.contains ·) (globals.contains ·)) ++ rest).map fun rt => rt.id := by
  obtain ⟨byType₁, hgrouped, hplaced₁⟩ := foldl_placeService (known.contains ·)
    (globals.contains ·) serviceDefs [] placed_nil (by simpa using h)
  rw [List.nil_append] at hgrouped hplaced₁
  have hstart : Placed (serviceDefs.flatMap
      (records (known.contains ·) (globals.contains ·)) ++ []) byType₁ := by
    rw [List.append_nil]
    exact hplaced₁
  obtain ⟨rest, byType, hrest, hplaced, -, hfrom, hall⟩ :=
    foldl_placeOther (globals.contains ·) known [] hstart
  refine ⟨rest, byType, ?_, hplaced, ?_, hall⟩
  · simp only [build, hgrouped, hrest]
    congr 1
    split
    · rfl
    · rw [List.append_nil]
  · intro rt hrt
    rcases hfrom rt hrt with hnil | ⟨hid, heq, -⟩
    · cases hnil
    · exact ⟨hid, heq⟩

/-! ## Coverage -/

/-- The catalog shows every type of the library once, and shows it as it is looked up. -/
structure Covers (known globals : List String) (serviceDefs : List ServiceDef) (c : Built) :
    Prop where
  /-- Over all services together, a known id occurs once. -/
  once : ∀ id ∈ known, (c.listed.map fun rt => rt.id).count id = 1
  onlyKnown : ∀ rt ∈ c.listed, rt.id ∈ known
  nonempty : ∀ s ∈ c.services, s.resourceTypes ≠ []
  /-- A known type of the table is in its service, with the risk it inherits or overrides. -/
  fromTable : ∀ d ∈ serviceDefs, ∀ t ∈ d.types, t.id ∈ known → ∃ s ∈ c.services,
    s.id = d.id ∧ s.risk = d.risk ∧ s.defaultSelected = d.selected ∧
    { id := t.id, label := t.label, isGlobal := decide (t.id ∈ globals),
      risk := if t.risk = .other "" then d.risk else t.risk } ∈ s.resourceTypes
  /-- The known types that the table leaves out are in `other`, in the order of their ids. -/
  others : ∀ id ∈ known, id ∉ mapped serviceDefs → ∃ s ∈ c.services,
    s.id = "other" ∧ s.risk = .medium ∧ s.defaultSelected = false ∧
    (s.resourceTypes.Pairwise fun x y => x.id < y.id) ∧
    (∀ rt ∈ s.resourceTypes, rt.id ∉ mapped serviceDefs) ∧
    { id := id, label := id, isGlobal := decide (id ∈ globals), risk := .medium } ∈
      s.resourceTypes
  lookup_isSome : ∀ id, (c.lookup id).isSome ↔ id ∈ known
  lookup_listed : ∀ rt ∈ c.listed, c.lookup rt.id = some rt

/-- Up to the order in `other`, the catalog lists what was placed. -/
theorem listed_perm (k g : String → Bool) (serviceDefs : List ServiceDef)
    (rest : List ResourceType) (byType : PlainMap String ResourceType) :
    List.Perm
      (Built.listed { services := services k g serviceDefs ++
                        if rest.length > 0 then [otherService rest] else []
                      byType := byType
                      globalSet := g })
      (serviceDefs.flatMap (records k g) ++ rest) := by
  rw [Built.listed, List.flatMap_append, flatMap_services]
  refine List.Perm.append_left _ ?_
  split
  · rw [List.flatMap_singleton]
    exact List.perm_insertionSort _ rest
  · obtain rfl : rest = [] := List.length_eq_zero_iff.mp (by omega)
    exact List.Perm.refl _

/-- The catalog lists the types that the library knows, each once, and marks the global ones. -/
theorem listed_spec (known globals : List String) {serviceDefs : List ServiceDef}
    (h : (mapped serviceDefs).Nodup) :
    ((build known globals serviceDefs).listed.map ResourceType.id).Nodup ∧
      (∀ id, (∃ rt ∈ (build known globals serviceDefs).listed, rt.id = id) ↔ id ∈ known) ∧
      ∀ rt ∈ (build known globals serviceDefs).listed,
        rt.isGlobal = (build known globals serviceDefs).isGlobal rt.id := by
  obtain ⟨rest, byType, hbuild, hplaced, hrest, hall⟩ := build_spec known globals h
  have hperm := listed_perm (known.contains ·) (globals.contains ·) serviceDefs rest byType
  rw [← hbuild] at hperm
  refine ⟨(hperm.map _).nodup_iff.mpr hplaced.nodup, fun id => ⟨?_, fun hid => ?_⟩,
    fun rt hrt => ?_⟩
  · rintro ⟨rt, hrt, rfl⟩
    rcases List.mem_append.mp (hperm.mem_iff.mp hrt) with htable | hother
    · exact List.contains_iff_mem.mp (mem_map_records_iff.mp (List.mem_map_of_mem htable)).1
    · exact (hrest rt hother).1
  · obtain ⟨rt, hrt, heq⟩ := List.mem_map.mp (hall id hid)
    exact ⟨rt, hperm.mem_iff.mpr hrt, heq⟩
  · rw [hbuild]
    rcases List.mem_append.mp (hperm.mem_iff.mp hrt) with htable | hother
    · obtain ⟨d, -, hrt⟩ := List.mem_flatMap.mp htable
      obtain ⟨t, -, -, rfl⟩ := mem_records.mp hrt
      rfl
    · rw [(hrest rt hother).2]
      rfl

/-- No listed service is empty. -/
theorem types_ne_nil {k g : String → Bool} {serviceDefs : List ServiceDef}
    {rest : List ResourceType} {s : Service}
    (hs : s ∈ services k g serviceDefs ++ if rest.length > 0 then [otherService rest] else []) :
    s.resourceTypes ≠ [] := by
  intro hnil
  rcases List.mem_append.mp hs with hs | hs
  · have hpos := (mem_services.mp hs).2
    simp [hnil] at hpos
  · split at hs
    · obtain rfl := List.mem_singleton.mp hs
      obtain ⟨rt, hrt⟩ := List.exists_mem_of_length_pos ‹rest.length > 0›
      have hmem := mem_otherService.mpr hrt
      rw [hnil] at hmem
      cases hmem
    · cases hs

/-- For every list of known types, every set of global ones, and every table without a
repeated id, the build places each known type exactly once and in the right place. -/
theorem build_covers (known globals : List String) (serviceDefs : List ServiceDef)
    (h : (mapped serviceDefs).Nodup) :
    Covers known globals serviceDefs (build known globals serviceDefs) := by
  obtain ⟨rest, byType, hbuild, hplaced, hrest, hall⟩ := build_spec known globals h
  have hperm := listed_perm (known.contains ·) (globals.contains ·) serviceDefs rest byType
  have hids := hperm.map fun rt => rt.id
  have hrecord (id : String) : id ∈ (serviceDefs.flatMap
        (records (known.contains ·) (globals.contains ·))).map (fun rt => rt.id) ↔
      id ∈ known ∧ id ∈ mapped serviceDefs := by
    rw [mem_map_records_iff, List.contains_iff_mem]
  have hknown : ∀ rt ∈ serviceDefs.flatMap (records (known.contains ·) (globals.contains ·)) ++
      rest, rt.id ∈ known := by
    intro rt hrt
    rcases List.mem_append.mp hrt with hrt | hrt
    · exact ((hrecord rt.id).mp (List.mem_map_of_mem hrt)).1
    · exact (hrest rt hrt).1
  have hnodup := hplaced.nodup
  rw [List.map_append, List.nodup_append] at hnodup
  obtain ⟨-, hnodup, hapart⟩ := hnodup
  rw [hbuild]
  constructor
  case once =>
    intro id hid
    exact List.count_eq_one_of_mem (hids.nodup_iff.mpr hplaced.nodup)
      (hids.mem_iff.mpr (hall id hid))
  case onlyKnown => exact fun rt hrt => hknown rt (hperm.mem_iff.mp hrt)
  case nonempty => exact fun s hs => types_ne_nil hs
  case fromTable =>
    intro d hd t ht hk
    have hmem : record (globals.contains ·) d t ∈
        records (known.contains ·) (globals.contains ·) d :=
      record_mem_records ht (List.contains_iff_mem.mpr hk)
    refine ⟨_, List.mem_append_left _ (mem_services.mpr ⟨⟨d, hd, rfl⟩, ?_⟩), rfl, rfl, rfl, ?_⟩
    · exact List.length_pos_of_mem hmem
    · simpa [record, service] using hmem
  case others =>
    intro id hid hunmapped
    obtain ⟨rt, hrt, rfl⟩ := List.mem_map.mp (hall id hid)
    have hmem : rt ∈ rest := (List.mem_append.mp hrt).resolve_left fun h =>
      hunmapped ((hrecord rt.id).mp (List.mem_map_of_mem h)).2
    have hlen : rest.length > 0 := List.length_pos_of_mem hmem
    refine ⟨otherService rest, List.mem_append_right _ (by simp [hlen]), rfl, rfl, rfl,
      pairwise_otherService hnodup, ?_, mem_otherService.mpr ?_⟩
    · -- an id of the table would have a second record
      intro rt' hrt' hmap
      have hrest' := mem_otherService.mp hrt'
      exact hapart rt'.id ((hrecord rt'.id).mpr ⟨(hrest rt' hrest').1, hmap⟩) rt'.id
        (List.mem_map_of_mem hrest') rfl
    · have heq := (hrest rt hmem).2
      rw [otherRecord, List.contains_eq_mem] at heq
      exact heq ▸ hmem
  case lookup_isSome =>
    intro id
    rw [Built.lookup, hplaced.isSome_iff]
    refine ⟨fun hid => ?_, hall id⟩
    obtain ⟨rt, hrt, rfl⟩ := List.mem_map.mp hid
    exact hknown rt hrt
  case lookup_listed =>
    intro rt hrt
    exact (hplaced.lookup_iff _ _).mpr ⟨hperm.mem_iff.mp hrt, rfl⟩

/-- A table with an unknown type and an overriding risk. -/
private def smallTable : List ServiceDef :=
  [⟨"ec2", .low, true, [⟨"ec2", "EC2 instances", .other ""⟩, ⟨"gone", "Gone", .low⟩]⟩,
    ⟨"iam", .high, false, [⟨"iam-user", "IAM users", .medium⟩]⟩]

/-- A library that repeats a type, and knows two that the table leaves out. -/
theorem build_covers_smallTable :
    Covers ["sns", "iam-user", "sns", "ec2", "acm"] ["iam-user"] smallTable
      (build ["sns", "iam-user", "sns", "ec2", "acm"] ["iam-user"] smallTable) ∧
    (build ["sns", "iam-user", "sns", "ec2", "acm"] ["iam-user"] smallTable).services.map
        (fun s => (s.id, s.resourceTypes.map fun rt => rt.id)) =
      [("ec2", ["ec2"]), ("iam", ["iam-user"]), ("other", ["acm", "sns"])] :=
  ⟨build_covers _ _ _ (by decide), by decide⟩

end Broom.Catalog
