import Mathlib.Data.List.TakeWhile

/-!
# A line scanner with a bounded buffer

Go's `bufio.Scanner` over lines. A token that does not fit the buffer together with
its newline ends the scan with an error, so of newline-terminated lines it returns
those before the first one that is too long.
-/

namespace Broom.Core

/-- The byte that ends a line. -/
def newline : UInt8 := 10

/-- A token without a trailing carriage return. -/
def dropCR (token : List UInt8) : List UInt8 :=
  if token.getLast? = some 13 then token.dropLast else token

/-- The tokens that successive scans return, with the bytes of the current one in front.
The scan ends for good when the buffer is full and holds no newline. -/
def scanFrom (limit : Nat) (acc : List UInt8) : List UInt8 → List (List UInt8)
  | [] => if acc = [] then [] else [dropCR acc]
  | b :: rest =>
    if b = newline then dropCR acc :: scanFrom limit [] rest
    else if limit ≤ acc.length + 1 then []
    else scanFrom limit (acc ++ [b]) rest

/-- The tokens of a stream. -/
def scanLines (limit : Nat) (stream : List UInt8) : List (List UInt8) := scanFrom limit [] stream

/-- A line of a stream, without its newline. -/
structure Line where
  bytes : List UInt8
  no_newline : newline ∉ bytes

/-- A stream of newline-terminated lines. -/
def joinLines (lines : List Line) : List UInt8 := lines.flatMap fun l => l.bytes ++ [newline]

/-- A line is a token if it fits the buffer, and ends the scan otherwise. -/
theorem scanFrom_line {limit : Nat} {acc line rest : List UInt8} (hacc : acc.length < limit)
    (hline : newline ∉ line) :
    scanFrom limit acc (line ++ newline :: rest) =
      if acc.length + line.length < limit then dropCR (acc ++ line) :: scanFrom limit [] rest
      else [] := by
  induction line generalizing acc with
  | nil => simp [scanFrom, hacc]
  | cons b line ih =>
    rw [List.mem_cons, not_or] at hline
    rw [List.cons_append, scanFrom, if_neg (Ne.symm hline.1)]
    by_cases hfull : limit ≤ acc.length + 1
    · rw [if_pos hfull, if_neg (by rw [List.length_cons]; omega)]
    · have hlen : acc.length + 1 + line.length = acc.length + (b :: line).length := by
        rw [List.length_cons]
        omega
      rw [if_neg hfull, ih (by rw [List.length_append, List.length_singleton]; omega) hline.2,
        List.length_append, List.length_singleton, List.append_assoc, List.singleton_append, hlen]

/-- The tokens of newline-terminated lines are those before the first that is too long. -/
theorem scanLines_joinLines {limit : Nat} (hlimit : 0 < limit) (lines : List Line) :
    scanLines limit (joinLines lines) =
      (lines.takeWhile fun l => decide (l.bytes.length < limit)).map fun l => dropCR l.bytes := by
  induction lines with
  | nil => rfl
  | cons l lines ih =>
    have hjoin : joinLines (l :: lines) = l.bytes ++ newline :: joinLines lines := by
      simp [joinLines]
    rw [hjoin, scanLines, scanFrom_line hlimit l.no_newline, ← scanLines, ih, List.takeWhile_cons,
      List.length_nil, Nat.zero_add]
    by_cases h : l.bytes.length < limit <;> simp [h]

/-- Dropping a carriage return takes at most one byte. -/
theorem length_le_dropCR (token : List UInt8) : token.length ≤ (dropCR token).length + 1 := by
  unfold dropCR
  split
  · rw [List.length_dropLast]
    omega
  · omega

end Broom.Core
