import Broom.Core.Word

/-!
# Worker input and worker events

The job specification a worker reads, the flattened events it writes back, and
the canonical key of a resource: its type, region and identifier with a NUL
between neighbours. Strings are sequences of code points, so the NUL byte of the
key is the code point zero. Times are clock readings, with zero for Go's zero
time.
-/

namespace Broom.Engine

open Broom.Core

/-- Selects what the worker does. The wire carries a string, so other names occur
before validation; the empty one is Go's zero value. -/
inductive Mode
  | scan
  | nuke
  | other (name : String)
  deriving DecidableEq, Repr

/-- One resource the user confirmed for deletion. -/
structure Selection where
  resourceType : String
  region : String
  identifier : String
  deriving DecidableEq, Repr

/-- The canonical key for a type, a region and an identifier. -/
def selectionKey (resourceType region identifier : String) : String :=
  resourceType ++ "\x00" ++ region ++ "\x00" ++ identifier

/-- The canonical map key for a selection. -/
def Selection.key (s : Selection) : String := selectionKey s.resourceType s.region s.identifier

/-- Cut a key at its first two NULs; a key with fewer is taken whole as the type. -/
def splitKey (key : String) : String × String × String :=
  match cutTwice '\x00' key.toList with
  | some (a, b, c) => (String.ofList a, String.ofList b, String.ofList c)
  | none => (key, "", "")

/-- The worker input. Credentials are not part of it. -/
structure Spec where
  mode : Mode
  /-- Regional regions only; the global pseudo-region is added by the worker. -/
  regions : List String
  resourceTypes : List String
  /-- Restricts the run to resources older than this many nanoseconds. -/
  olderThan : Option Int := none
  excludeIAMUserName : String := ""
  selections : List Selection := []
  parallelism : Int := 0
  deriving DecidableEq, Repr

/-- The kinds of events. -/
inductive EventType
  | phase
  | scanProgress
  | resourceFound
  | generalError
  | nukeProgress
  | resourceDeleted
  | summary
  | fatal
  | log
  deriving DecidableEq, Repr

/-- The final tally of a run. -/
structure Summary where
  mode : Mode := .other ""
  found : Nat := 0
  nukable : Nat := 0
  notNukable : Nat := 0
  generalErrors : Nat := 0
  deleted : Nat := 0
  warned : Nat := 0
  failed : Nat := 0
  alreadyGone : Nat := 0
  notSelected : Nat := 0
  deriving DecidableEq, Repr

/-- One line from worker to server and on to the browser. Unused fields keep Go's
zero value, which the wire format omits. -/
structure Event where
  type : EventType
  seq : Nat := 0
  atTime : Nat := 0
  phase : String := ""
  message : String := ""
  resourceType : String := ""
  region : String := ""
  identifier : String := ""
  nukable : Option Bool := none
  reason : String := ""
  success : Option Bool := none
  warning : Bool := false
  error : String := ""
  note : String := ""
  batchSize : Nat := 0
  summary : Option Summary := none
  deriving DecidableEq, Repr

/-- The key of the resource an event is about. -/
def Event.key (ev : Event) : String := selectionKey ev.resourceType ev.region ev.identifier

/-! ## Keys -/

/-- A name without the separator of keys. -/
def NulFree (s : String) : Prop := '\x00' ∉ s.toList

instance (s : String) : Decidable (NulFree s) := inferInstanceAs (Decidable (_ ∉ _))

/-- A key is the join of its three names at NULs. -/
theorem toList_selectionKey (t g i : String) :
    (selectionKey t g i).toList = joinThree '\x00' t.toList g.toList i.toList := by
  have hsep : "\x00".toList = ['\x00'] := by decide
  simp [selectionKey, joinThree, String.toList_append, hsep, List.append_assoc]

/-- Splitting a key and joining it again gives the key back. -/
theorem selectionKey_splitKey {key : String} (h : 2 ≤ key.toList.count '\x00') :
    selectionKey (splitKey key).1 (splitKey key).2.1 (splitKey key).2.2 = key := by
  obtain ⟨a, b, c, hcut⟩ := exists_cutTwice h
  apply String.toList_inj.mp
  simp only [splitKey, hcut, toList_selectionKey, String.toList_ofList]
  exact joinThree_of_cutTwice hcut

/-- Every key of a triple has the two NULs that splitting looks for. -/
theorem two_le_count_selectionKey (t g i : String) :
    2 ≤ (selectionKey t g i).toList.count '\x00' := by
  rw [toList_selectionKey, count_joinThree]
  omega

/-- The key of the three parts of a triple's key is that key. -/
@[simp] theorem selectionKey_splitKey_selectionKey (t g i : String) :
    selectionKey (splitKey (selectionKey t g i)).1 (splitKey (selectionKey t g i)).2.1
      (splitKey (selectionKey t g i)).2.2 = selectionKey t g i :=
  selectionKey_splitKey (two_le_count_selectionKey t g i)

/-- Splitting recovers a triple whose type and region are NUL-free. -/
theorem splitKey_selectionKey {t g : String} (i : String) (ht : NulFree t) (hg : NulFree g) :
    splitKey (selectionKey t g i) = (t, g, i) := by
  simp only [splitKey, toList_selectionKey, cutTwice_joinThree _ ht hg, String.ofList_toList]

/-- Keys are unambiguous between triples with NUL-free types and regions. -/
theorem selectionKey_inj {t g i t' g' i' : String} (ht : NulFree t) (hg : NulFree g)
    (ht' : NulFree t') (hg' : NulFree g') (h : selectionKey t g i = selectionKey t' g' i') :
    t = t' ∧ g = g' ∧ i = i' := by
  have hl := congrArg String.toList h
  rw [toList_selectionKey, toList_selectionKey] at hl
  obtain ⟨hte, hge, hie⟩ := joinThree_inj ht hg ht' hg' hl
  exact ⟨String.toList_inj.mp hte, String.toList_inj.mp hge, String.toList_inj.mp hie⟩

/-- No triple, whatever NULs it carries, shares its key with a different NUL-free one. -/
theorem Selection.eq_of_key_eq {s : Selection} {t g i : String} (ht : NulFree t)
    (hg : NulFree g) (hi : NulFree i) (h : s.key = selectionKey t g i) :
    s = ⟨t, g, i⟩ := by
  have hl := congrArg String.toList h
  rw [Selection.key, toList_selectionKey, toList_selectionKey] at hl
  obtain ⟨hst, hsg, _⟩ := not_mem_of_joinThree_eq ht hg hi hl
  obtain ⟨hte, hge, hie⟩ := selectionKey_inj hst hsg ht hg h
  cases s
  simp_all

end Broom.Engine
