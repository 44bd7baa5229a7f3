import Broom.Core.Program
import Broom.Web.Tracker

/-!
# The history when storage fails

The operations of the history as they stand over the browser's database, any transaction
of which may be rejected. A read that is rejected counts as an empty history, and the
write after it replaces the whole value.
-/

namespace Broom.Web.Storage

open Broom.Core

/-! ## Transactions -/

/-- A transaction on the stored value. -/
inductive StorageOp
  | get
  | set (all : List HistoryEntry)
  | del

/-- A rejection tells nothing. Nothing may be stored yet. -/
abbrev StorageOp.Ans : StorageOp → Type
  | .get => Except Unit (Option (List HistoryEntry))
  | .set _ | .del => Except Unit Unit

abbrev StorageM := Prog StorageOp StorageOp.Ans

/-- One transaction. -/
def transact (op : StorageOp) : StorageM op.Ans := Prog.perform op

/-- Which transactions are rejected. -/
structure Faults where
  get : Bool
  set : Bool
  del : Bool

/-- What the database answers. -/
def Faults.answer (f : Faults) (stored : Option (List HistoryEntry)) : (op : StorageOp) → op.Ans
  | .get => if f.get then .error () else .ok stored
  | .set _ => if f.set then .error () else .ok ()
  | .del => if f.del then .error () else .ok ()

/-- What is stored after a transaction; a rejected one changes nothing. -/
def Faults.commit (f : Faults) (stored : Option (List HistoryEntry)) :
    Act StorageOp.Ans → Option (Option (List HistoryEntry))
  | ⟨.get, _⟩ => some stored
  | ⟨.set all, _⟩ => some (if f.set then stored else some all)
  | ⟨.del, _⟩ => some (if f.del then stored else none)

/-- Run an operation: its result, and what is stored after it. -/
def Faults.run {α : Type} (f : Faults) (stored : Option (List HistoryEntry)) (p : StorageM α) :
    Option (α × Option (List HistoryEntry)) :=
  Prog.atomic f.answer f.commit stored p

/-! ## Operations -/

section operations

variable (rt : Runtime)

/-- The stored entries; there are none if they cannot be read. -/
def read : StorageM (List HistoryEntry) := do
  match ← transact .get with
  | .ok stored => return stored.getD []
  | .error _ => return []

def write (all : List HistoryEntry) : StorageM Unit := do
  -- a rejection is ignored
  let _ ← transact (.set (all.take maxHistory))
  return ()

def listHistory : StorageM (List HistoryEntry) := read

def getHistory (id : String) : StorageM (Option HistoryEntry) := do
  let all ← read
  return all.find? fun e => e.id = id

/-- Insert or replace the entry with the same id, newest first. -/
def saveHistory (entry : HistoryEntry) : StorageM Unit := do
  let all ← read
  let rest := all.filter fun e => e.id ≠ entry.id
  write ((entry :: rest).insertionSort fun x y => newestFirst rt x.createdAt y.createdAt)

/-- Mark as lost what the server no longer lists, and return it. -/
def markLostHistory (alive : List String) (now graceMs : Int) : StorageM (List HistoryEntry) := do
  let all ← read
  let lost := (all.filter (isLost rt alive now graceMs)).map fun e => { e with state := .lost }
  let next := all.map fun e =>
    if isLost rt alive now graceMs e then { e with state := .lost } else e
  if lost.length > 0 then write next
  return lost

def deleteHistory (id : String) : StorageM Unit := do
  let all ← read
  write (all.filter fun e => e.id ≠ id)

def clearHistory : StorageM Unit := do
  let _ ← transact .del
  return ()

end operations

/-! ## What is stored afterwards -/

section runs

variable {f : Faults} {stored : Option (List HistoryEntry)} {α β : Type}

theorem run_bind {p : StorageM α} {g : α → StorageM β} :
    f.run stored (p >>= g) = (f.run stored p).bind fun (a, stored') => f.run stored' (g a) :=
  Prog.atomic_bind

@[simp] theorem run_pure {a : α} : f.run stored (pure a) = some (a, stored) := rfl

/-- The entries that an operation gets to see. -/
def Faults.seen (f : Faults) (stored : Option (List HistoryEntry)) : List HistoryEntry :=
  if f.get then [] else stored.getD []

/-- What is stored after a write. -/
def Faults.written (f : Faults) (stored : Option (List HistoryEntry)) (all : List HistoryEntry) :
    Option (List HistoryEntry) :=
  if f.set then stored else some (all.take maxHistory)

@[simp] theorem run_read : f.run stored read = some (f.seen stored, stored) := by
  obtain ⟨get, set, del⟩ := f
  cases get <;> rfl

@[simp] theorem run_write {all : List HistoryEntry} :
    f.run stored (write all) = some ((), f.written stored all) := rfl

theorem run_saveHistory (rt : Runtime) (entry : HistoryEntry) :
    f.run stored (saveHistory rt entry) = some ((), f.written stored
      ((entry :: (f.seen stored).filter fun e => e.id ≠ entry.id).insertionSort fun x y =>
        newestFirst rt x.createdAt y.createdAt)) := by
  rw [saveHistory, run_bind, run_read]
  rfl

theorem run_deleteHistory (id : String) :
    f.run stored (deleteHistory id) =
      some ((), f.written stored ((f.seen stored).filter fun e => e.id ≠ id)) := by
  rw [deleteHistory, run_bind, run_read]
  rfl

/-- An operation that finds nothing lost stores nothing. -/
theorem run_markLostHistory (rt : Runtime) (alive : List String) (now graceMs : Int) :
    ∃ lost, f.run stored (markLostHistory rt alive now graceMs) = some (lost,
      if (f.seen stored).any (isLost rt alive now graceMs) then
        f.written stored ((f.seen stored).map fun e =>
          if isLost rt alive now graceMs e then { e with state := .lost } else e)
      else stored) := by
  rw [markLostHistory, run_bind, run_read]
  refine ⟨((f.seen stored).filter (isLost rt alive now graceMs)).map fun e =>
    { e with state := .lost }, ?_⟩
  have hany : 0 < (((f.seen stored).filter (isLost rt alive now graceMs)).map fun e =>
      { e with state := .lost }).length ↔
        (f.seen stored).any (isLost rt alive now graceMs) = true := by
    rw [List.length_map, List.length_filter_pos_iff, List.any_eq_true]
  simp only [Option.bind_some]
  by_cases hlost : (f.seen stored).any (isLost rt alive now graceMs) = true
  · rw [if_pos (hany.mpr hlost), if_pos hlost]
    rfl
  · rw [if_neg (mt hany.mp hlost), if_neg hlost]
    rfl

end runs

/-! ## With one tab and no failures -/

/-- The program of an operation; the time is that after the read. -/
def program (rt : Runtime) (now : Int) : HistoryOp → StorageM Unit
  | .get id => do
    let _ ← getHistory id
    return ()
  | .save entry => saveHistory rt entry
  | .markLost alive => do
    let _ ← markLostHistory rt alive now 60000
    return ()
  | .delete id => deleteHistory id
  | .clear => clearHistory
  | .list => do
    let _ ← listHistory
    return ()

/-- If nothing is rejected, an operation changes the stored list as a whole. -/
theorem run_program (rt : Runtime) (now : Int) (stored : Option (List HistoryEntry))
    (op : HistoryOp) :
    ∃ stored', (Faults.mk false false false).run stored (program rt now op) = some ((), stored') ∧
      stored'.getD [] = op.apply rt now (stored.getD []) := by
  cases op with
  | get id => exact ⟨stored, rfl, rfl⟩
  | list => exact ⟨stored, rfl, rfl⟩
  | clear => exact ⟨none, rfl, rfl⟩
  | save entry => exact ⟨_, run_saveHistory rt entry, rfl⟩
  | delete id => exact ⟨_, run_deleteHistory id, rfl⟩
  | markLost alive =>
    obtain ⟨lost, hrun⟩ := @run_markLostHistory ⟨false, false, false⟩ stored rt alive now 60000
    refine ⟨_, by rw [program, run_bind, hrun]; rfl, ?_⟩
    have hseen : (Faults.mk false false false).seen stored = stored.getD [] := rfl
    rw [HistoryOp.apply, Web.markLostHistory, hseen]
    by_cases hlost : (stored.getD []).any (isLost rt alive now 60000) = true
    · rw [if_pos hlost, if_pos hlost]
      rfl
    · rw [if_neg hlost, if_neg hlost]

/-- A rejected write leaves everything as it was. -/
theorem run_program_of_rejected_set (rt : Runtime) (now : Int)
    (stored : Option (List HistoryEntry)) {f : Faults} (hset : f.set = true) {op : HistoryOp}
    (hclear : op ≠ .clear) : f.run stored (program rt now op) = some ((), stored) := by
  have hwritten (all : List HistoryEntry) : f.written stored all = stored := if_pos hset
  cases op with
  | get id => rw [program, getHistory, run_bind, run_bind, run_read]; rfl
  | list => rw [program, listHistory, run_bind, run_read]; rfl
  | clear => exact absurd rfl hclear
  | save entry => rw [program, run_saveHistory, hwritten]
  | delete id => rw [program, run_deleteHistory, hwritten]
  | markLost alive =>
    obtain ⟨lost, hrun⟩ := @run_markLostHistory f stored rt alive now 60000
    rw [hwritten, ite_self] at hrun
    rw [program, run_bind, hrun]
    rfl

/-! ## Rejected reads -/

/-- The operation ends, and every stored entry that it does not name is still stored,
unchanged. -/
def Faults.Keeps {α : Type} (f : Faults) (stored : Option (List HistoryEntry)) (p : StorageM α)
    (named : List String) : Prop :=
  ∃ a stored', f.run stored p = some (a, stored') ∧
    ∀ e ∈ stored.getD [], e.id ∉ named → e ∈ stored'.getD []

section rejected

variable {stored : Option (List HistoryEntry)} {set del : Bool}

/-- After a rejected read a write replaces everything that is stored. -/
theorem keeps_iff_of_write {p : StorageM Unit} {id : String} {all : List HistoryEntry}
    (hrun : (Faults.mk true set del).run stored p =
      some ((), (Faults.mk true set del).written stored all))
    (hall : ∀ e ∈ all, e.id = id) :
    (Faults.mk true set del).Keeps stored p [id] ↔
      set = true ∨ ∀ e ∈ stored.getD [], e.id = id := by
  simp only [Faults.Keeps, List.mem_singleton]
  constructor
  · rintro ⟨a, stored', hrun', hkeeps⟩
    obtain ⟨-, rfl⟩ := Prod.mk.inj (Option.some.inj (hrun.symm.trans hrun'))
    cases set with
    | true => exact .inl rfl
    | false =>
      refine .inr fun e he => ?_
      by_contra hid
      have hmem : e ∈ all.take maxHistory := hkeeps e he hid
      exact hid (hall e (List.mem_of_mem_take hmem))
  · intro h
    refine ⟨(), _, hrun, fun e he hid => ?_⟩
    rcases h with rfl | h
    · exact he
    · exact absurd (h e he) hid

end rejected

/-- When the read is rejected: saving and deleting keep the other entries if and only if there
are none, or the write is rejected too, and marking what is lost always keeps them. -/
theorem rejected_read_keeps_iff (rt : Runtime) (stored : Option (List HistoryEntry))
    (set del : Bool) :
    let f : Faults := ⟨true, set, del⟩
    (∀ entry, f.Keeps stored (saveHistory rt entry) [entry.id] ↔
        set = true ∨ ∀ e ∈ stored.getD [], e.id = entry.id) ∧
      (∀ id, f.Keeps stored (deleteHistory id) [id] ↔
        set = true ∨ ∀ e ∈ stored.getD [], e.id = id) ∧
      ∀ alive now graceMs, f.Keeps stored (markLostHistory rt alive now graceMs) [] := by
  intro f
  refine ⟨fun entry => ?_, fun id => ?_, fun alive now graceMs => ?_⟩
  · exact keeps_iff_of_write (run_saveHistory rt entry) (by simp [Faults.seen])
  · exact keeps_iff_of_write (run_deleteHistory id) (by simp [Faults.seen])
  · obtain ⟨lost, hrun⟩ := @run_markLostHistory f stored rt alive now graceMs
    exact ⟨lost, stored, hrun, fun e he _ => he⟩

/-- A record of a finished scan. -/
private def scanRecord (id : String) : HistoryEntry where
  id := id
  kind := .scan
  accountId := "123456789012"
  createdAt := "2024-01-01T00:00:00Z"
  finishedAt := some "2024-01-01T00:01:00Z"
  state := .job .succeeded
  regions := ["us-east-1"]
  resourceTypes := ["sqs"]
  olderThan := none
  selected := none
  summary := none
  found := some []
  results := some []
  errors := some []
  error := none

/-- While a run is recorded the read is rejected: the earlier record is gone. -/
theorem record_destroyed :
    ¬ (Faults.mk true false false).Keeps (some [scanRecord "a"])
      (saveHistory ⟨compare, fun _ => none⟩ (scanRecord "b")) [(scanRecord "b").id] := by
  rintro ⟨a, stored', hrun, hkeeps⟩
  obtain ⟨-, rfl⟩ := Prod.mk.inj (Option.some.inj hrun)
  have hmem : scanRecord "a" ∈ [scanRecord "b"] :=
    hkeeps (scanRecord "a") (List.mem_singleton_self _) (by decide)
  have hid : "a" = "b" := congrArg HistoryEntry.id (List.mem_singleton.mp hmem)
  exact absurd hid (by decide)

end Broom.Web.Storage
