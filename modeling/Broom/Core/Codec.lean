import Broom.Core.Json

/-!
# Records in JSON

How Go's `encoding/json` maps the fields of a record: an absent field and a null both
leave the zero value, and a field may be left out when it has that value. A codec of a type
writes its values and reads back the valid ones, so a record is read back if each of its
fields is.
-/

namespace Broom.Core

namespace Json

/-! ## Fields -/

/-- The value of a field; of several with one name the last counts. -/
def get? (v : Json) (name : String) : Option Json :=
  match v with
  | obj fields => (fields.reverse.find? fun f => f.1 = name).map Prod.snd
  | _ => none

/-- A record whose absent fields are left out. -/
def record (fields : List (String × Option Json)) : Json :=
  obj (fields.filterMap fun f => f.2.map (f.1, ·))

private theorem find?_filterMap_eq_none {fields : List (String × Option Json)} {name : String}
    (h : name ∉ fields.map Prod.fst) :
    (fields.filterMap fun f => f.2.map (f.1, ·)).reverse.find? (fun f => f.1 = name) = none := by
  rw [List.find?_eq_none]
  intro f hf
  obtain ⟨⟨n, o⟩, hmem, hf⟩ := List.mem_filterMap.mp (List.mem_reverse.mp hf)
  obtain ⟨v, -, rfl⟩ := Option.map_eq_some_iff.mp hf
  rw [decide_eq_true_eq]
  rintro rfl
  exact h (List.mem_map_of_mem hmem)

/-- A record has the fields it was made of, if their names differ. -/
theorem get?_record {fields : List (String × Option Json)} (hn : (fields.map Prod.fst).Nodup)
    (name : String) : (record fields).get? name = (fields.lookup name).join := by
  induction fields with
  | nil => rfl
  | cons f fields ih =>
    obtain ⟨n, p⟩ := f
    obtain ⟨hnot, hrest⟩ := List.nodup_cons.mp hn
    have hcons : (record ((n, p) :: fields)).get? name =
        ((record fields).get? name).or (if n = name then p else none) := by
      cases p with
      | none => simp [record, get?]
      | some v =>
        cases hfind : (fields.filterMap fun f => f.2.map (f.1, ·)).reverse.find?
          (fun f => f.1 = name) <;>
        by_cases hname : n = name <;> simp [record, get?, List.find?_append, hname, hfind]
    rw [hcons]
    by_cases hname : n = name
    · subst hname
      have hnone : (record fields).get? n = none := by
        rw [record, get?, find?_filterMap_eq_none hnot]
        rfl
      simp [hnone]
    · rw [ih hrest, if_neg hname, Option.or_none, List.lookup_cons,
        beq_eq_false_iff_ne.mpr (Ne.symm hname)]

/-- The value is a record. -/
def isObj : Json → Bool
  | obj _ => true
  | _ => false

@[simp] theorem isObj_record (fields : List (String × Option Json)) :
    (record fields).isObj = true := rfl

end Json

/-! ## Codecs -/

/-- How values of a type are written and read. -/
structure Codec (α : Type) where
  zero : α
  put : α → Json
  /-- Read a value that is not null. -/
  take : Json → Option α
  Valid : α → Prop
  take_put : ∀ a, Valid a → put a ≠ .null → take (put a) = some a
  eq_zero : ∀ a, put a = .null → a = zero

namespace Codec

variable {α : Type} (c : Codec α)

/-- Read a field. -/
def read : Option Json → Option α
  | none | some .null => some c.zero
  | some v => c.take v

/-- Write a field, unless it has the zero value. -/
def omitZero [DecidableEq α] (a : α) : Option Json := if a = c.zero then none else some (c.put a)

/-- Read a field that may be a nil pointer. -/
def readPointer : Option Json → Option (Option α)
  | none | some .null => some none
  | some v => (c.take v).map some

theorem read_some {v : Json} (hv : v ≠ .null) : c.read (some v) = c.take v := by
  cases v <;> first | rfl | exact absurd rfl hv

@[simp] theorem read_put {a : α} (h : c.Valid a) : c.read (some (c.put a)) = some a := by
  by_cases hnull : c.put a = .null
  · rw [hnull, c.eq_zero a hnull]
    rfl
  · rw [c.read_some hnull, c.take_put a h hnull]

@[simp] theorem read_omitZero [DecidableEq α] {a : α} (h : c.Valid a) :
    c.read (c.omitZero a) = some a := by
  unfold omitZero
  split
  · rename_i hzero
    rw [hzero]
    rfl
  · exact c.read_put h

@[simp] theorem readPointer_map {o : Option α} (h : ∀ a ∈ o, c.Valid a ∧ c.put a ≠ .null) :
    c.readPointer (o.map c.put) = some o := by
  cases o with
  | none => rfl
  | some a =>
    obtain ⟨hvalid, hnull⟩ := h a rfl
    have hsome : c.readPointer (some (c.put a)) = (c.take (c.put a)).map some := by
      cases hput : c.put a <;> first | rfl | exact absurd hput hnull
    rw [Option.map_some, hsome, c.take_put a hvalid hnull]
    rfl

/-- Records, which are never null. -/
def struct {α : Type} (zero : α) (fields : α → List (String × Option Json))
    (take : Json → Option α) (Valid : α → Prop)
    (h : ∀ a, Valid a → take (.record (fields a)) = some a) : Codec α where
  zero := zero
  put a := .record (fields a)
  take v := if v.isObj then take v else none
  Valid := Valid
  take_put a ha _ := by rw [Json.isObj_record, if_pos rfl, h a ha]
  eq_zero _ h := nomatch h

/-! ## Basic types -/

def string : Codec String where
  zero := ""
  put := .str
  take | .str s => some s
       | _ => none
  Valid _ := True
  take_put _ _ _ := rfl
  eq_zero _ h := nomatch h

def bool : Codec Bool where
  zero := false
  put := .bool
  take | .bool b => some b
       | _ => none
  Valid _ := True
  take_put _ _ _ := rfl
  eq_zero _ h := nomatch h

def int : Codec Int where
  zero := 0
  put := .num
  take | .num n => some n
       | _ => none
  Valid _ := True
  take_put _ _ _ := rfl
  eq_zero _ h := nomatch h

/-- Counts, which are integers that are not negative. -/
def nat : Codec Nat where
  zero := 0
  put n := .num n
  take | .num n => if 0 ≤ n then some n.toNat else none
       | _ => none
  Valid _ := True
  take_put n _ _ := by simp
  eq_zero _ h := nomatch h

/-- Slices; the empty one is nil, and null on the wire. -/
def list : Codec (List α) where
  zero := []
  put | [] => .null
      | as => .arr (as.map c.put)
  take | .arr items => items.mapM fun v => c.read (some v)
       | _ => none
  Valid as := ∀ a ∈ as, c.Valid a
  take_put as h hnull := by
    cases as with
    | nil => exact absurd rfl hnull
    | cons a as =>
      have hall (as : List α) (h : ∀ a ∈ as, c.Valid a) :
          (as.map c.put).mapM (fun v => c.read (some v)) = some as := by
        induction as with
        | nil => rfl
        | cons a as ih =>
          rw [List.map_cons, List.mapM_cons, c.read_put (h a (List.mem_cons_self ..)),
            ih fun a' ha' => h a' (List.mem_cons_of_mem _ ha')]
          rfl
      exact hall (a :: as) h
  eq_zero as h := by
    cases as with
    | nil => rfl
    | cons a as => cases h

@[simp] theorem string_valid (s : String) : string.Valid s := trivial

@[simp] theorem string_put_ne_null (s : String) : string.put s ≠ .null := nofun

@[simp] theorem bool_valid (b : Bool) : bool.Valid b := trivial

@[simp] theorem bool_put_ne_null (b : Bool) : bool.put b ≠ .null := nofun

@[simp] theorem int_valid (n : Int) : int.Valid n := trivial

@[simp] theorem nat_valid (n : Nat) : nat.Valid n := trivial

@[simp] theorem list_valid (as : List α) : c.list.Valid as ↔ ∀ a ∈ as, c.Valid a := Iff.rfl

end Codec

end Broom.Core
