import Mathlib.Data.List.Basic

/-!
# Anchored literals as regular expressions

The part of a regular expression language that quoting makes use of: literal letters,
punctuation behind a backslash, and the anchors at the beginning and the end of the text.
A pattern is compiled into the atoms it is made of; an expression matches a text if it
matches somewhere in it. Quoting a text and putting it between the anchors gives the
expression that matches this text alone.
-/

namespace Broom.Core

/-- One atom of an expression. -/
inductive Atom
  | lit (c : Char)
  | beginText
  | endText
  deriving DecidableEq, Repr

/-- A compiled expression: its atoms one after the other. -/
abbrev Regexp := List Atom

namespace Regexp

/-- The letters with a meaning of their own. -/
def special : List Char :=
  ['\\', '.', '+', '*', '?', '(', ')', '|', '[', ']', '\x7b', '\x7d', '^', '$']

/-- A backslash before each letter with a meaning of its own. -/
def quoteMeta (s : List Char) : List Char :=
  s.flatMap fun c => if c ∈ special then ['\\', c] else [c]

/-- Punctuation stands for itself behind a backslash. -/
def escapable (c : Char) : Bool := c.toNat < 128 ∧ !c.isAlphanum

/-- The atoms of a pattern; none where it leaves the language of this library. -/
def compile : List Char → Option Regexp
  | [] => some []
  | c :: p =>
    if c = '\\' then
      match p with
      | [] => none
      | e :: p => if escapable e then (compile p).map (.lit e :: ·) else none
    else if c = '^' then (compile p).map (.beginText :: ·)
    else if c = '$' then (compile p).map (.endText :: ·)
    else if c ∈ special then none
    else (compile p).map (.lit c :: ·)

/-- The atoms match at the start of what is left of the text; `atBegin` tells whether
nothing of the text lies before. -/
def matchHere : Regexp → (atBegin : Bool) → List Char → Bool
  | [], _, _ => true
  | .lit c :: re, _, d :: text => c = d && matchHere re false text
  | .lit _ :: _, _, [] => false
  | .beginText :: re, atBegin, text => atBegin && matchHere re atBegin text
  | .endText :: re, atBegin, text => text.isEmpty && matchHere re atBegin text

/-- The atoms match at a place behind the beginning. -/
def matchBehind (re : Regexp) : List Char → Bool
  | [] => false
  | _ :: text => matchHere re false text || matchBehind re text

/-- The expression matches somewhere in the text. -/
def matchString (re : Regexp) (text : List Char) : Bool :=
  matchHere re true text || matchBehind re text

/-- An expression that begins with the first anchor matches at the beginning or nowhere. -/
theorem matchBehind_beginText (re : Regexp) (text : List Char) :
    matchBehind (.beginText :: re) text = false := by
  induction text with
  | nil => rfl
  | cons c text ih => simp [matchBehind, matchHere, ih]

/-- Letters before the last anchor match themselves. -/
theorem matchHere_literal (s : List Char) (atBegin : Bool) (text : List Char) :
    matchHere (s.map .lit ++ [.endText]) atBegin text = true ↔ text = s := by
  induction s generalizing atBegin text with
  | nil => simp [matchHere]
  | cons c s ih =>
    cases text with
    | nil => simp [matchHere]
    | cons d text =>
      simp only [List.map_cons, List.cons_append, matchHere, Bool.and_eq_true, decide_eq_true_eq,
        ih, List.cons.injEq]
      exact and_congr_left fun _ => eq_comm

theorem compile_escape {c : Char} (p : List Char) (hc : escapable c = true) :
    compile ('\\' :: c :: p) = (compile p).map (.lit c :: ·) := by
  rw [compile.eq_def]
  dsimp only
  rw [if_pos rfl, if_pos hc]

theorem compile_lit {c : Char} (p : List Char) (hc : c ∉ special) :
    compile (c :: p) = (compile p).map (.lit c :: ·) := by
  have hne {d : Char} (hd : d ∈ special) : c ≠ d := fun h => hc (h ▸ hd)
  rw [compile.eq_def]
  dsimp only
  rw [if_neg (hne (by decide)), if_neg (hne (by decide)), if_neg (hne (by decide)), if_neg hc]

/-- A quoted text compiles to its letters. -/
theorem compile_quoteMeta (s p : List Char) :
    compile (quoteMeta s ++ p) = (compile p).map (s.map .lit ++ ·) := by
  have hesc : ∀ c ∈ special, escapable c = true := List.all_eq_true.mp (by decide)
  induction s with
  | nil => simp [quoteMeta]
  | cons c s ih =>
    have hcons : (fun re : Regexp => (c :: s).map Atom.lit ++ re) =
        (Atom.lit c :: ·) ∘ (s.map Atom.lit ++ ·) := rfl
    rw [quoteMeta, List.flatMap_cons, ← quoteMeta, List.append_assoc, hcons, ← Option.map_map,
      ← ih]
    by_cases hc : c ∈ special
    · rw [if_pos hc]
      exact compile_escape _ (hesc c hc)
    · rw [if_neg hc]
      exact compile_lit _ hc

/-- The quoted text between the anchors. -/
def exactly (s : List Char) : List Char := '^' :: (quoteMeta s ++ ['$'])

/-- The quoted text between the anchors compiles, and matches the text alone. -/
theorem compile_exactly (s : List Char) :
    ∃ re, compile (exactly s) = some re ∧ ∀ u, matchString re u = true ↔ u = s := by
  refine ⟨.beginText :: (s.map .lit ++ [.endText]), ?_, ?_⟩
  · have hend : compile ['$'] = some [.endText] := by decide
    have hbody : compile (quoteMeta s ++ ['$']) = some (s.map .lit ++ [.endText]) := by
      rw [compile_quoteMeta, hend, Option.map_some]
    rw [exactly, compile.eq_def]
    dsimp only
    rw [if_neg (by decide), if_pos rfl, hbody, Option.map_some]
  · intro u
    rw [matchString, matchBehind_beginText, Bool.or_false, matchHere, Bool.true_and,
      matchHere_literal]

end Regexp

end Broom.Core
