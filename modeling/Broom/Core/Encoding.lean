import Broom.Core.Json
import Broom.Core.Word

/-!
# Encodings and separators

A text is written letter by letter in smaller units. Where one unit stands for the
separator and occurs in the code of no other letter, cutting the units and cutting the
text come to the same. UTF-8 and UTF-16 both keep the code point zero apart in this way,
so a text with NULs for separators can be cut in either encoding.
-/

namespace Broom.Core

section encoding

variable {α β : Type*} [DecidableEq α] [DecidableEq β] {code : α → List β} {sep : α} {mark : β}

/-- One unit is the separator's code and occurs in no other. -/
structure Marks (code : α → List β) (sep : α) (mark : β) : Prop where
  code_sep : code sep = [mark]
  not_mem_code : ∀ a, a ≠ sep → mark ∉ code a

/-- Cutting at the mark passes over units without it. -/
theorem cutFirst_append_left {a : List α} (w : List α) (ha : sep ∉ a) :
    cutFirst sep (a ++ w) = (cutFirst sep w).map fun p => (a ++ p.1, p.2) := by
  induction a with
  | nil => simp
  | cons x a ih =>
    rw [List.mem_cons, not_or] at ha
    rw [List.cons_append, cutFirst, if_neg (Ne.symm ha.1), ih ha.2, Option.map_map]
    rfl

/-- A cut of the text is a cut of its units. -/
theorem cutFirst_flatMap (hm : Marks code sep mark) (w : List α) :
    cutFirst mark (w.flatMap code) =
      (cutFirst sep w).map fun p => (p.1.flatMap code, p.2.flatMap code) := by
  induction w with
  | nil => rfl
  | cons a w ih =>
    by_cases ha : a = sep
    · simp [ha, hm.code_sep, cutFirst]
    · rw [List.flatMap_cons, cutFirst_append_left _ (hm.not_mem_code a ha), ih, cutFirst,
        if_neg ha, Option.map_map, Option.map_map]
      rfl

/-- Two cuts of the text are two cuts of its units. -/
theorem cutTwice_flatMap (hm : Marks code sep mark) (w : List α) :
    cutTwice mark (w.flatMap code) = (cutTwice sep w).map fun p =>
      (p.1.flatMap code, p.2.1.flatMap code, p.2.2.flatMap code) := by
  simp only [cutTwice, cutFirst_flatMap hm]
  cases cutFirst sep w with
  | none => rfl
  | some p =>
    simp only [Option.map_some, Option.bind_some, cutFirst_flatMap hm, Option.map_map]
    rfl

omit [DecidableEq α] [DecidableEq β] in
/-- The units of a join are the join of the units. -/
theorem flatMap_joinThree (hm : Marks code sep mark) (a b c : List α) :
    (joinThree sep a b c).flatMap code =
      joinThree mark (a.flatMap code) (b.flatMap code) (c.flatMap code) := by
  simp only [joinThree, List.flatMap_append, List.flatMap_cons, hm.code_sep]
  rfl

end encoding

/-! ## UTF-8 and UTF-16 -/

/-- NUL is its own byte and no byte of another character. -/
theorem marks_utf8 : Marks String.utf8EncodeChar '\x00' 0 where
  code_sep := by decide
  not_mem_code := by
    intro c hc hmem
    rcases Json.byte_of_mem_utf8EncodeChar hmem with h | h
    · exact hc (Char.toNat_inj.mp (show c.toNat = 0 from h.symm))
    · exact absurd h (by decide)

/-- The UTF-16 code units of a character: itself, or a high and a low surrogate. -/
def utf16EncodeChar (c : Char) : List UInt16 :=
  if c.toNat < 0x10000 then [UInt16.ofNat c.toNat]
  else [UInt16.ofNat (0xD800 + (c.toNat - 0x10000) / 0x400),
    UInt16.ofNat (0xDC00 + (c.toNat - 0x10000) % 0x400)]

/-- The UTF-16 code units of some characters. -/
def utf16 (cs : List Char) : List UInt16 := cs.flatMap utf16EncodeChar

theorem toNat_le (c : Char) : c.toNat ≤ 0x10FFFF := by
  rcases c.valid with h | h
  · exact (show c.toNat < 0xD800 from h).le.trans (by decide)
  · exact Nat.lt_succ_iff.mp h.2

/-- The characters of some code units, if every surrogate has its partner. -/
def utf16Decode : List UInt16 → Option (List Char)
  | [] => some []
  | u :: units =>
    if u.toNat.isValidChar then (utf16Decode units).map (Char.ofNat u.toNat :: ·)
    else match units with
      | [] => none
      | v :: units =>
        if u.toNat < 0xDC00 ∧ 0xDC00 ≤ v.toNat ∧ v.toNat < 0xE000 then
          (utf16Decode units).map
            (Char.ofNat (0x10000 + (u.toNat - 0xD800) * 0x400 + (v.toNat - 0xDC00)) :: ·)
        else none

private theorem utf16Decode_append (c : Char) (units : List UInt16) :
    utf16Decode (utf16EncodeChar c ++ units) = (utf16Decode units).map (c :: ·) := by
  have hle := toNat_le c
  have hvalid : c.toNat.isValidChar := c.valid
  unfold utf16EncodeChar
  split
  · have hu : (UInt16.ofNat c.toNat).toNat = c.toNat := by
      rw [UInt16.toNat_ofNat', Nat.mod_eq_of_lt ‹_›]
    rw [List.singleton_append, utf16Decode.eq_def]
    simp only [hu]
    rw [if_pos hvalid, Char.ofNat_toNat]
  · -- the two halves of the code point above the first plane
    have hdiv := Nat.div_add_mod (c.toNat - 0x10000) 0x400
    have hmod := Nat.mod_lt (c.toNat - 0x10000) (show 0 < 0x400 by decide)
    have hu : (UInt16.ofNat (0xD800 + (c.toNat - 0x10000) / 0x400)).toNat =
        0xD800 + (c.toNat - 0x10000) / 0x400 := by
      rw [UInt16.toNat_ofNat', Nat.mod_eq_of_lt (by omega)]
    have hv : (UInt16.ofNat (0xDC00 + (c.toNat - 0x10000) % 0x400)).toNat =
        0xDC00 + (c.toNat - 0x10000) % 0x400 := by
      rw [UInt16.toNat_ofNat', Nat.mod_eq_of_lt (by omega)]
    have hhigh : ¬ (0xD800 + (c.toNat - 0x10000) / 0x400).isValidChar := by
      simp only [Nat.isValidChar]
      omega
    have hback : 0x10000 + (0xD800 + (c.toNat - 0x10000) / 0x400 - 0xD800) * 0x400 +
        (0xDC00 + (c.toNat - 0x10000) % 0x400 - 0xDC00) = c.toNat := by
      omega
    rw [List.cons_append, List.singleton_append, utf16Decode.eq_def]
    simp only [hu, hv]
    rw [if_neg hhigh, if_pos (by omega), hback, Char.ofNat_toNat]

@[simp] theorem utf16Decode_utf16 (cs : List Char) : utf16Decode (utf16 cs) = some cs := by
  induction cs with
  | nil => rfl
  | cons c cs ih =>
    have hcons : utf16 (c :: cs) = utf16EncodeChar c ++ utf16 cs := List.flatMap_cons
    rw [hcons, utf16Decode_append, ih, Option.map_some]

/-- NUL is its own code unit and no code unit of another character. -/
theorem marks_utf16 : Marks utf16EncodeChar '\x00' 0 where
  code_sep := by decide
  not_mem_code := by
    intro c hc hmem
    have hle := toNat_le c
    have hne : c.toNat ≠ 0 := fun h => hc (Char.toNat_inj.mp h)
    have hunit {n : Nat} (hn : 0 < n) (hlt : n < 65536) : (0 : UInt16) ≠ UInt16.ofNat n := by
      intro h
      have h := congrArg UInt16.toNat h
      rw [UInt16.toNat_ofNat', Nat.mod_eq_of_lt hlt] at h
      exact hn.ne h
    unfold utf16EncodeChar at hmem
    split at hmem
    · exact hunit (Nat.pos_of_ne_zero hne) ‹_› (List.mem_singleton.mp hmem)
    · rcases List.mem_cons.mp hmem with h | h
      · exact hunit (by omega) (by omega) h
      · exact hunit (by omega) (by omega) (List.mem_singleton.mp h)

end Broom.Core
