import Broom.Core.Encoding
import Broom.Engine.Spec

/-!
# Keys byte by byte

The server holds a string as bytes, which need not be valid UTF-8, and the browser as
UTF-16 code units. The keys of both sides are written down here over their own units,
with the loop that looks for the first two NUL bytes. The loop cuts where the abstract cut
does, so the laws of joining and cutting three words hold for every sequence of bytes. On
texts all three descriptions of a key are one.
-/

namespace Broom.Engine

open Broom.Core

namespace Bytes

/-- The canonical key for a type, a region and an identifier, in bytes. -/
def selectionKey (resourceType region identifier : List UInt8) : List UInt8 :=
  resourceType ++ [0] ++ region ++ [0] ++ identifier

/-- The loop of `splitKey` over the bytes from index `i` on: the indices of the first two
NULs, negative while they are not found. -/
def scanNuls : List UInt8 → Nat → Int → Int → Int × Int
  | [], _, first, second => (first, second)
  | b :: key, i, first, second =>
    if b = 0 then
      if first < 0 then scanNuls key (i + 1) i second
      else (first, i)
    else scanNuls key (i + 1) first second

/-- The type, the region and the identifier of a key. -/
def splitKey (key : List UInt8) : List UInt8 × List UInt8 × List UInt8 :=
  let found := scanNuls key 0 (-1) (-1)
  if found.1 < 0 ∨ found.2 < 0 then (key, [], [])
  else
    let first := found.1.toNat
    let second := found.2.toNat
    (key.take first, (key.take second).drop (first + 1), key.drop (second + 1))

/-- With the first NUL known, the loop stops at the next one. -/
theorem scanNuls_of_found (key : List UInt8) (i first : Nat) :
    scanNuls key i first (-1) =
      ((first : Int),
        ((cutFirst 0 key).map fun p => ((i + p.1.length : Nat) : Int)).getD (-1)) := by
  induction key generalizing i with
  | nil => rfl
  | cons b key ih =>
    by_cases hb : b = 0
    · have hfirst : ¬ (first : Int) < 0 := by omega
      simp [scanNuls, cutFirst, hb, hfirst]
    · rw [scanNuls, if_neg hb, ih, cutFirst, if_neg hb, Option.map_map]
      cases cutFirst 0 key with
      | none => rfl
      | some p => simp only [Option.map_some, Option.getD_some, Function.comp_apply,
          List.length_cons, Nat.add_assoc, Nat.add_comm 1]

/-- Before the first NUL, the loop passes on and continues behind it. -/
theorem scanNuls_start (key : List UInt8) (i : Nat) :
    scanNuls key i (-1) (-1) = ((cutFirst 0 key).map fun p =>
      scanNuls p.2 (i + p.1.length + 1) ((i + p.1.length : Nat) : Int) (-1)).getD (-1, -1) := by
  induction key generalizing i with
  | nil => rfl
  | cons b key ih =>
    by_cases hb : b = 0
    · simp [scanNuls, cutFirst, hb]
    · rw [scanNuls, if_neg hb, ih, cutFirst, if_neg hb, Option.map_map]
      cases cutFirst 0 key with
      | none => rfl
      | some p => simp only [Option.map_some, Option.getD_some, Function.comp_apply,
          List.length_cons, Nat.add_assoc, Nat.add_comm 1]

theorem selectionKey_eq_joinThree (t g i : List UInt8) :
    selectionKey t g i = joinThree 0 t g i := by
  simp [selectionKey, joinThree]

/-- The indices that the loop finds cut the key at its first two NULs. -/
theorem splitKey_eq (key : List UInt8) : splitKey key = (cutTwice 0 key).getD (key, [], []) := by
  cases hfirst : cutFirst 0 key with
  | none =>
    have hscan : scanNuls key 0 (-1) (-1) = (-1, -1) := by rw [scanNuls_start, hfirst]; rfl
    simp [splitKey, hscan, cutTwice, hfirst]
  | some p =>
    obtain ⟨a, r⟩ := p
    have hkey := eq_append_of_cutFirst hfirst
    have hscan : scanNuls key 0 (-1) (-1) = ((a.length : Int), ((cutFirst 0 r).map fun p =>
        ((a.length + 1 + p.1.length : Nat) : Int)).getD (-1)) := by
      rw [scanNuls_start, hfirst, Option.map_some, Option.getD_some, scanNuls_of_found]
      simp only [Nat.zero_add]
    cases hsecond : cutFirst 0 r with
    | none => simp [splitKey, hscan, cutTwice, hfirst, hsecond]
    | some q =>
      obtain ⟨b, c⟩ := q
      have hr := eq_append_of_cutFirst hsecond
      rw [hsecond, Option.map_some, Option.getD_some] at hscan
      have hnot : ¬ ((a.length : Int) < 0 ∨ ((a.length + 1 + b.length : Nat) : Int) < 0) := by
        omega
      have hcut : cutTwice 0 key = some (a, b, c) := by
        rw [cutTwice, hfirst, Option.bind_some, hsecond, Option.map_some]
      -- the slices of the key are the words on both sides of the two NULs
      have htwo : key = (a ++ [0] ++ b) ++ 0 :: c := by rw [hkey, hr]; simp
      have hlen : (a ++ [0] ++ b).length = a.length + 1 + b.length := by simp; omega
      have htake : key.take (a.length + 1 + b.length) = a ++ [0] ++ b := by
        rw [htwo, ← hlen, List.take_left]
      have hdrop : key.drop (a.length + 1 + b.length + 1) = c := by
        rw [htwo, ← hlen, ← List.drop_drop, List.drop_left]
        rfl
      have hmiddle : (a ++ [0] ++ b).drop (a.length + 1) = b := by
        rw [show a.length + 1 = (a ++ [(0 : UInt8)]).length by simp, List.drop_left]
      rw [hcut, Option.getD_some, splitKey]
      simp only [hscan, if_neg hnot, Int.toNat_natCast]
      rw [htake, hdrop, hmiddle, hkey, List.take_left]

/-- On texts the loop over bytes cuts where the code points are cut. -/
theorem splitKey_utf8 (key : String) :
    splitKey (Json.utf8 key.toList) = (Json.utf8 (Engine.splitKey key).1.toList,
      Json.utf8 (Engine.splitKey key).2.1.toList, Json.utf8 (Engine.splitKey key).2.2.toList) := by
  rw [splitKey_eq, Json.utf8, cutTwice_flatMap marks_utf8, Engine.splitKey]
  cases cutTwice '\x00' key.toList with
  | none => rfl
  | some p => simp [Json.utf8]

/-- The key of the UTF-8 bytes of a triple is the bytes of its key. -/
theorem selectionKey_utf8 (t g i : String) :
    selectionKey (Json.utf8 t.toList) (Json.utf8 g.toList) (Json.utf8 i.toList) =
      Json.utf8 (Engine.selectionKey t g i).toList := by
  rw [selectionKey_eq_joinThree, toList_selectionKey, Json.utf8, Json.utf8, Json.utf8, Json.utf8,
    flatMap_joinThree marks_utf8]

end Bytes

namespace CodeUnits

/-- The browser's key for a type, a region and an identifier, in UTF-16 code units. -/
def selectionKey (resourceType region identifier : List UInt16) : List UInt16 :=
  resourceType ++ [0x0000] ++ region ++ [0x0000] ++ identifier

/-- The key of the code units of a triple is the code units of its key. -/
theorem selectionKey_utf16 (t g i : String) :
    selectionKey (utf16 t.toList) (utf16 g.toList) (utf16 i.toList) =
      utf16 (Engine.selectionKey t g i).toList := by
  rw [toList_selectionKey, utf16, utf16, utf16, utf16, flatMap_joinThree marks_utf16]
  simp [selectionKey, joinThree]

end CodeUnits

/-! ## Unambiguous keys -/

/-- Splitting a key gives back every triple whose type and region hold no NUL, joining gives
back every key with two NULs, no triple shares its key with a different NUL-free one, and
server and browser write the same text for the same triple. -/
theorem keys_unambiguous (t g i key t' g' i' : List UInt8)
    (resourceType region identifier : String) :
    (0 ∉ t → 0 ∉ g → Bytes.splitKey (Bytes.selectionKey t g i) = (t, g, i)) ∧
      (2 ≤ key.count 0 → Bytes.selectionKey (Bytes.splitKey key).1 (Bytes.splitKey key).2.1
        (Bytes.splitKey key).2.2 = key) ∧
      (0 ∉ t → 0 ∉ g → 0 ∉ i → Bytes.selectionKey t' g' i' = Bytes.selectionKey t g i →
        (t', g', i') = (t, g, i)) ∧
      Json.utf8Decode (Bytes.selectionKey (Json.utf8 resourceType.toList)
          (Json.utf8 region.toList) (Json.utf8 identifier.toList)) =
        some (Engine.selectionKey resourceType region identifier).toList ∧
      utf16Decode (CodeUnits.selectionKey (utf16 resourceType.toList)
          (utf16 region.toList) (utf16 identifier.toList)) =
        some (Engine.selectionKey resourceType region identifier).toList := by
  refine ⟨?_, ?_, ?_, ?_, ?_⟩
  · intro ht hg
    rw [Bytes.splitKey_eq, Bytes.selectionKey_eq_joinThree, cutTwice_joinThree i ht hg,
      Option.getD_some]
  · intro hkey
    obtain ⟨a, b, c, hcut⟩ := exists_cutTwice hkey
    rw [Bytes.splitKey_eq, hcut, Option.getD_some, Bytes.selectionKey_eq_joinThree]
    exact joinThree_of_cutTwice hcut
  · intro ht hg hi h
    rw [Bytes.selectionKey_eq_joinThree, Bytes.selectionKey_eq_joinThree] at h
    obtain ⟨ht', hg', _⟩ := not_mem_of_joinThree_eq ht hg hi h
    obtain ⟨rfl, rfl, rfl⟩ := joinThree_inj ht' hg' ht hg h
    rfl
  · rw [Bytes.selectionKey_utf8, Json.utf8Decode_utf8]
  · rw [CodeUnits.selectionKey_utf16, utf16Decode_utf16]

/-- An identifier with a NUL, a key of bare NULs, and a type with a NUL. -/
theorem keys_unambiguous_nul :
    Bytes.splitKey (Bytes.selectionKey [115] [101] [0, 105]) = ([115], [101], [0, 105]) ∧
      Bytes.selectionKey (Bytes.splitKey [0, 0]).1 (Bytes.splitKey [0, 0]).2.1
        (Bytes.splitKey [0, 0]).2.2 = [0, 0] ∧
      Bytes.selectionKey [115, 0] [101] [105] ≠ Bytes.selectionKey [115] [101] [105] := by
  have h := keys_unambiguous [115] [101] [0, 105] [0, 0] [] [] [] "s" "e" "i"
  have hother := keys_unambiguous [115] [101] [105] [] [115, 0] [101] [105] "s" "e" "i"
  refine ⟨h.1 (by decide) (by decide), h.2.1 (by decide), fun he => ?_⟩
  exact absurd (hother.2.2.1 (by decide) (by decide) (by decide) he) (by decide)

end Broom.Engine
