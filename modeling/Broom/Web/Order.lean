import Mathlib.Data.String.Basic
import Broom.Core.Ranking
import Broom.Core.Timestamp
import Broom.Core.Transition
import Broom.Web.Tracker

/-!
# The order of the history

The history is kept sorted by the text of its timestamps, and is meant to be sorted by the
instants they stand for. A save puts the new entry where the comparison of texts puts it,
and drops what exceeds the bound from the end. The list keeps its shape as long as this
comparison agrees with the instants, for every new entry and every other one in the list.
-/

namespace Broom.Web

open Broom.Core

/-- What the comparison of strings in a locale promises. -/
structure Collates (rt : Runtime) : Prop where
  swap : ∀ x y, rt.localeCompare y x = (rt.localeCompare x y).swap
  trans : ∀ x y z, rt.localeCompare x y ≠ .gt → rt.localeCompare y z ≠ .gt →
    rt.localeCompare x z ≠ .gt

/-- The instant of an entry's creation. -/
def HistoryEntry.created (e : HistoryEntry) : Int := (rfc3339 e.createdAt).getD 0

/-- Distinct entries, at most fifty, the newest first. -/
structure HistoryShape (all : List HistoryEntry) : Prop where
  distinct : (all.map fun e => e.id).Nodup
  bounded : all.length ≤ maxHistory
  newestFirst : all.Pairwise fun x y => y.created ≤ x.created

section

variable (rt : Runtime)

/-- The entries that a save chooses from. -/
def candidates (all : List HistoryEntry) (entry : HistoryEntry) : List HistoryEntry :=
  entry :: all.filter fun e => e.id ≠ entry.id

/-- A save of one entry too many drops an entry that no other is older than. -/
def EvictsOldest (all : List HistoryEntry) : HistoryOp → Prop
  | .save entry => maxHistory < (candidates all entry).length →
      ∃ evicted, (candidates all entry).Perm (saveHistory rt all entry ++ [evicted]) ∧
        ∀ x ∈ saveHistory rt all entry, evicted.created ≤ x.created
  | .get _ | .markLost _ | .delete _ | .clear | .list => True

/-- One operation in a tab, with the browser's clock. -/
def historyStep (all : List HistoryEntry) (a : Int × HistoryOp) : Option (List HistoryEntry) :=
  some (a.2.apply rt a.1 all)

/-- The list has its shape after the operation, and what is evicted is the oldest. -/
def KeepsShape (all : List HistoryEntry) (a : Int × HistoryOp) : Prop :=
  HistoryShape (a.2.apply rt a.1 all) ∧ EvictsOldest rt all a.2

/-- The comparison of the new entry's timestamp with another one agrees with the instants. -/
def Agrees (new other : HistoryEntry) : Prop :=
  if newestFirst rt new.createdAt other.createdAt then other.created ≤ new.created
  else new.created ≤ other.created

/-- What is saved compares by instant with every other entry. -/
def ComparedByInstant (all : List HistoryEntry) : Int × HistoryOp → Prop
  | (_, .save entry) => ∀ x ∈ all, x.id ≠ entry.id → Agrees rt entry x
  | (_, .get _) | (_, .markLost _) | (_, .delete _) | (_, .clear) | (_, .list) => True

/-- Whether an entry may stand before another one by the text of the timestamps. -/
def before (x y : HistoryEntry) : Prop := newestFirst rt x.createdAt y.createdAt = true

instance : DecidableRel (before rt) := fun x y =>
  inferInstanceAs (Decidable (newestFirst rt x.createdAt y.createdAt = true))

end

variable {rt : Runtime}

theorem before_iff {x y : HistoryEntry} :
    before rt x y ↔ rt.localeCompare y.createdAt x.createdAt ≠ .gt := by
  simp [before, newestFirst]

theorem Collates.isTrans (h : Collates rt) : IsTrans HistoryEntry (before rt) := by
  constructor
  intro x y z hxy hyz
  rw [before_iff] at hxy hyz ⊢
  exact h.trans _ _ _ hyz hxy

theorem Collates.total (h : Collates rt) : Std.Total (before rt) := by
  constructor
  intro x y
  rw [before_iff, before_iff, h.swap y.createdAt x.createdAt]
  cases rt.localeCompare y.createdAt x.createdAt <;> decide

/-! ## One operation -/

/-- The list between two operations: its shape, and the order of the texts. -/
structure Ordered (rt : Runtime) (all : List HistoryEntry) : Prop where
  shape : HistoryShape all
  byText : all.Pairwise (before rt)

theorem ordered_nil : Ordered rt [] := by
  refine ⟨⟨List.nodup_nil, Nat.zero_le _, List.Pairwise.nil⟩, List.Pairwise.nil⟩

/-- A part of the list is ordered as the list is. -/
theorem Ordered.sublist {all part : List HistoryEntry} (h : Ordered rt all)
    (hs : part.Sublist all) : Ordered rt part where
  shape := ⟨h.shape.distinct.sublist (hs.map _), hs.length_le.trans h.shape.bounded,
    h.shape.newestFirst.sublist hs⟩
  byText := h.byText.sublist hs

/-- A change that leaves ids and timestamps alone keeps the order. -/
theorem Ordered.map {all : List HistoryEntry} {f : HistoryEntry → HistoryEntry}
    (h : Ordered rt all) (hid : ∀ e, (f e).id = e.id)
    (hcreated : ∀ e, (f e).createdAt = e.createdAt) : Ordered rt (all.map f) where
  shape := by
    refine ⟨?_, by simpa using h.shape.bounded, ?_⟩
    · rw [List.map_map]
      exact (List.map_congr_left fun e _ => hid e : all.map _ = _) ▸ h.shape.distinct
    · refine List.pairwise_map.mpr (h.shape.newestFirst.imp fun {x y} hxy => ?_)
      rwa [HistoryEntry.created, HistoryEntry.created, hcreated, hcreated]
  byText := by
    refine List.pairwise_map.mpr (h.byText.imp fun {x y} hxy => ?_)
    rwa [before, hcreated, hcreated]

/-- Writing keeps the first fifty. -/
theorem Ordered.write {all : List HistoryEntry} (h : Ordered rt all) :
    Ordered rt (Web.write all) := h.sublist (List.take_sublist ..)

/-- The operations other than saves keep the order. -/
theorem Ordered.apply {all : List HistoryEntry} (h : Ordered rt all) (now : Int) {op : HistoryOp}
    (hop : ∀ entry, op ≠ .save entry) : Ordered rt (op.apply rt now all) := by
  cases op with
  | save entry => exact absurd rfl (hop entry)
  | get id => exact h
  | list => exact h
  | clear => exact ordered_nil
  | delete id => exact (h.sublist List.filter_sublist).write
  | markLost alive =>
    simp only [HistoryOp.apply, markLostHistory]
    split
    · refine (h.map (fun e => ?_) fun e => ?_).write <;> split <;> rfl
    · exact h

/-- A save inserts the new entry into the others by the text of its timestamp. -/
theorem saveHistory_eq (hrt : Collates rt) {all : List HistoryEntry} (h : Ordered rt all)
    (entry : HistoryEntry) :
    saveHistory rt all entry =
      ((all.filter fun e => e.id ≠ entry.id).orderedInsert (before rt) entry).take maxHistory := by
  have htrans := hrt.isTrans
  have htotal := hrt.total
  have hrest : (all.filter fun e => e.id ≠ entry.id).insertionSort (before rt) =
      all.filter fun e => e.id ≠ entry.id :=
    List.Pairwise.insertionSort_eq (h.byText.sublist List.filter_sublist)
  have hsort : saveHistory rt all entry =
      ((entry :: all.filter fun e => e.id ≠ entry.id).insertionSort (before rt)).take
        maxHistory := rfl
  rw [hsort, List.insertionSort_cons, hrest]

/-- A save keeps the shape and evicts the oldest exactly when the timestamps of the new entry
and of every other one compare as their instants do. -/
theorem keepsShape_save_iff (hrt : Collates rt) {all : List HistoryEntry} (h : Ordered rt all)
    (now : Int) (entry : HistoryEntry) :
    KeepsShape rt all (now, .save entry) ↔ ComparedByInstant rt all (now, .save entry) := by
  have htrans := hrt.isTrans
  have hrest : Ordered rt (all.filter fun e => e.id ≠ entry.id) := h.sublist List.filter_sublist
  have hplaces := pairwise_orderedInsert_iff entry hrest.byText hrest.shape.newestFirst
  have hsave := saveHistory_eq hrt h entry
  have hperm := List.perm_orderedInsert (before rt) entry (all.filter fun e => e.id ≠ entry.id)
  rw [← candidates] at hperm
  generalize (all.filter fun e => e.id ≠ entry.id).orderedInsert (before rt) entry = sorted
    at hplaces hsave hperm
  have hlen : sorted.length ≤ maxHistory + 1 := by
    rw [hperm.length_eq, candidates, List.length_cons]
    exact Nat.succ_le_succ hrest.shape.bounded
  have hnodup : ((sorted.take maxHistory).map fun e => e.id).Nodup := by
    refine List.Nodup.sublist ((List.take_sublist ..).map _) ?_
    rw [(hperm.map _).nodup_iff, candidates, List.map_cons, List.nodup_cons]
    refine ⟨fun hmem => ?_, hrest.shape.distinct⟩
    obtain ⟨e, he, hid⟩ := List.mem_map.mp hmem
    exact absurd hid (by simpa using (List.mem_filter.mp he).2)
  -- the shape after the save is the order of the kept part, and what it evicts comes last
  have hkeeps : KeepsShape rt all (now, .save entry) ↔
      sorted.Pairwise fun x y => y.created ≤ x.created := by
    rw [pairwise_iff_take hlen, KeepsShape]
    simp only [HistoryOp.apply, EvictsOldest]
    rw [hsave, hperm.length_eq]
    constructor
    · rintro ⟨hshape, hevicts⟩
      refine ⟨hshape.newestFirst, fun hmany => ?_⟩
      obtain ⟨e, he, holdest⟩ := hevicts hmany
      exact ⟨e, hperm.trans he, holdest⟩
    · rintro ⟨hnewest, hevicts⟩
      refine ⟨⟨hnodup, List.length_take_le .., hnewest⟩, fun hmany => ?_⟩
      obtain ⟨e, he, holdest⟩ := hevicts hmany
      exact ⟨e, hperm.symm.trans he, holdest⟩
  rw [hkeeps, hplaces]
  simp only [ComparedByInstant, List.mem_filter, decide_eq_true_eq, and_imp]
  exact Iff.rfl

/-- An operation that keeps the shape keeps the list ordered. -/
theorem Ordered.step (hrt : Collates rt) {all : List HistoryEntry} (h : Ordered rt all)
    {a : Int × HistoryOp} (ha : KeepsShape rt all a) : Ordered rt (a.2.apply rt a.1 all) := by
  by_cases hsave : ∃ entry, a.2 = .save entry
  · obtain ⟨entry, hentry⟩ := hsave
    refine ⟨ha.1, ?_⟩
    have htrans := hrt.isTrans
    have htotal := hrt.total
    rw [hentry, HistoryOp.apply, saveHistory_eq hrt h]
    exact ((h.byText.sublist List.filter_sublist).orderedInsert _ _).sublist
      (List.take_sublist ..)
  · exact h.apply a.1 fun entry hentry => hsave ⟨entry, hentry⟩

/-- Only saves compare, and only saves evict. -/
theorem not_save {all : List HistoryEntry} {op : HistoryOp} (now : Int)
    (hop : ∀ entry, op ≠ .save entry) :
    EvictsOldest rt all op ∧ ComparedByInstant rt all (now, op) := by
  cases op with
  | save entry => exact absurd rfl (hop entry)
  | get | list | clear | delete | markLost => exact ⟨trivial, trivial⟩

/-- An operation keeps the shape exactly when what it saves compares by instant. -/
theorem keepsShape_iff (hrt : Collates rt) {all : List HistoryEntry} (h : Ordered rt all)
    (a : Int × HistoryOp) : KeepsShape rt all a ↔ ComparedByInstant rt all a := by
  obtain ⟨now, op⟩ := a
  by_cases hsave : ∃ entry, op = .save entry
  · obtain ⟨entry, rfl⟩ := hsave
    exact keepsShape_save_iff hrt h now entry
  · have hop : ∀ entry, op ≠ .save entry := fun entry hentry => hsave ⟨entry, hentry⟩
    obtain ⟨hevicts, hcompared⟩ := @not_save rt all op now hop
    exact iff_of_true ⟨(h.apply now hop).shape, hevicts⟩ hcompared

/-! ## Runs -/

/-- Over a whole run the list keeps its shape, and every eviction takes the oldest, exactly
when every save compares by instant with what is stored. -/
theorem history_shape_iff (hrt : Collates rt) (ops : List (Int × HistoryOp)) :
    Along (historyStep rt) (KeepsShape rt) [] ops ↔
      Along (historyStep rt) (ComparedByInstant rt) [] ops := by
  have hgen : ∀ all, Ordered rt all → (Along (historyStep rt) (KeepsShape rt) all ops ↔
      Along (historyStep rt) (ComparedByInstant rt) all ops) := by
    induction ops with
    | nil => exact fun _ _ => Iff.rfl
    | cons a ops ih =>
      intro all h
      have ha := keepsShape_iff hrt h a
      constructor
      · rintro ⟨hkeeps, hrest⟩
        exact ⟨ha.mp hkeeps, fun s' hs => (Option.some.inj hs) ▸
          (ih _ (h.step hrt hkeeps)).mp (hrest _ rfl)⟩
      · rintro ⟨hcompared, hrest⟩
        exact ⟨ha.mpr hcompared, fun s' hs => (Option.some.inj hs) ▸
          (ih _ (h.step hrt (ha.mpr hcompared))).mpr (hrest _ rfl)⟩
  exact hgen [] ordered_nil

/-- Strings compared by code points. -/
private def byCodePoint : Runtime where
  localeCompare := compare
  getTime text := (rfc3339 text).map (· / 1000000)

private theorem collates_byCodePoint : Collates byCodePoint where
  swap x y := (Std.OrientedCmp.eq_swap : compare y x = (compare x y).swap)
  trans x y z hxy hyz := by
    have htrans : (compare x y).isLE → (compare y z).isLE → (compare x z).isLE :=
      Std.TransCmp.isLE_trans
    exact Ordering.isLE_iff_ne_gt.mp
      (htrans (Ordering.isLE_iff_ne_gt.mpr hxy) (Ordering.isLE_iff_ne_gt.mpr hyz))

private def scanAt (id createdAt : String) : HistoryEntry where
  id := id
  kind := .scan
  accountId := "123456789012"
  createdAt := createdAt
  finishedAt := none
  state := .job .running
  regions := ["us-east-1"]
  resourceTypes := ["sqs"]
  olderThan := none
  selected := none
  summary := none
  found := none
  results := none
  errors := none
  error := none

/-- Two scans a second apart, in the same zone. -/
theorem history_shape_seconds :
    Along (historyStep byCodePoint) (KeepsShape byCodePoint) []
      [(0, .save (scanAt "a" "2026-01-01T00:00:00.5Z")),
        (0, .save (scanAt "b" "2026-01-01T00:00:01.5Z"))] := by
  refine (history_shape_iff collates_byCodePoint _).mpr ⟨fun _ => nofun, fun s' hs => ?_⟩
  obtain rfl := Option.some.inj hs
  refine ⟨fun x hx _ => ?_, fun _ _ => trivial⟩
  have hlist : saveHistory byCodePoint [] (scanAt "a" "2026-01-01T00:00:00.5Z") =
      [scanAt "a" "2026-01-01T00:00:00.5Z"] := rfl
  rw [HistoryOp.apply, hlist] at hx
  obtain rfl := List.mem_singleton.mp hx
  rw [Agrees, if_pos (by decide)]
  decide

/-- A scan half a second after another one is sorted behind it. -/
theorem history_shape_fraction :
    ¬ Along (historyStep byCodePoint) (KeepsShape byCodePoint) []
      [(0, .save (scanAt "a" "2026-01-01T00:00:00Z")),
        (0, .save (scanAt "b" "2026-01-01T00:00:00.5Z"))] := by
  rintro ⟨-, h⟩
  have hlist : saveHistory byCodePoint
      (saveHistory byCodePoint [] (scanAt "a" "2026-01-01T00:00:00Z"))
      (scanAt "b" "2026-01-01T00:00:00.5Z") =
      [scanAt "a" "2026-01-01T00:00:00Z", scanAt "b" "2026-01-01T00:00:00.5Z"] := rfl
  have hnewest := (h _ rfl).1.1.newestFirst
  rw [HistoryOp.apply, HistoryOp.apply, hlist] at hnewest
  have hle := (List.pairwise_cons.mp hnewest).1 _ (List.mem_singleton_self _)
  exact absurd hle (by decide)

end Broom.Web
