import Mathlib.Algebra.GroupWithZero.Nat

/-!
# RFC 3339 timestamps

The timestamps that Go writes into JSON: a date, a time of day, a fraction of at most nine
digits that does not end in a zero and is left out when it is zero, and a zone, which is
`Z` or an offset from UTC of hours and minutes. A text of this form stands for an instant;
different texts can stand for the same instant, and the order of the texts is not the order
of the instants.
-/

namespace Broom.Core

/-- The number that some decimal digits stand for. -/
def decimal (cs : List Char) : Option Nat :=
  cs.foldl (fun n c => n.bind fun n => if c.isDigit then some (10 * n + (c.toNat - 48)) else none)
    (some 0)

def isLeap (year : Nat) : Bool := year % 4 = 0 ∧ (year % 100 ≠ 0 ∨ year % 400 = 0)

def daysInMonth (year month : Nat) : Nat :=
  if month = 2 then if isLeap year then 29 else 28
  else if month ∈ [4, 6, 9, 11] then 30
  else 31

/-- The days from the first day of year zero to the first day of a year. -/
def daysBeforeYear (year : Nat) : Nat :=
  365 * year + (year + 3) / 4 - (year + 99) / 100 + (year + 399) / 400

/-- The days from the first day of year zero. -/
def dayNumber (year month day : Nat) : Nat :=
  daysBeforeYear year + ((List.range (month - 1)).map fun m => daysInMonth year (m + 1)).sum +
    (day - 1)

/-- The nanoseconds of a fraction that has no zero at its end. -/
def fraction (digits : List Char) : Option Nat :=
  if digits.length ≤ 9 ∧ digits.getLast? ≠ some '0' then
    (decimal digits).map (· * 10 ^ (9 - digits.length))
  else none

/-- A zone's offset from UTC in minutes. -/
def zoneOffset : List Char → Option Int
  | ['Z'] => some 0
  | [sign, h₁, h₂, ':', m₁, m₂] => do
    let hours ← decimal [h₁, h₂]
    let minutes ← decimal [m₁, m₂]
    if 23 < hours ∨ 59 < minutes ∨ hours + minutes = 0 then none
    else if sign = '+' then return hours * 60 + minutes
    else if sign = '-' then return -(hours * 60 + minutes)
    else none
  | _ => none

/-- The fraction and the zone of a timestamp. -/
def fractionZone : List Char → Option (Nat × Int)
  | '.' :: rest => do
    let digits := rest.takeWhile Char.isDigit
    if digits = [] then none
    let nanos ← fraction digits
    let offset ← zoneOffset (rest.dropWhile Char.isDigit)
    return (nanos, offset)
  | zone => (zoneOffset zone).map fun offset => (0, offset)

/-- The instant of a timestamp in nanoseconds from the first day of year zero. -/
def rfc3339 (text : String) : Option Int :=
  match text.toList with
  | y₁ :: y₂ :: y₃ :: y₄ :: '-' :: mo₁ :: mo₂ :: '-' :: d₁ :: d₂ :: 'T' :: h₁ :: h₂ :: ':' ::
      mi₁ :: mi₂ :: ':' :: s₁ :: s₂ :: rest => do
    let year ← decimal [y₁, y₂, y₃, y₄]
    let month ← decimal [mo₁, mo₂]
    let day ← decimal [d₁, d₂]
    let hour ← decimal [h₁, h₂]
    let minute ← decimal [mi₁, mi₂]
    let second ← decimal [s₁, s₂]
    let (nanos, offset) ← fractionZone rest
    if month < 1 ∨ 12 < month ∨ day < 1 ∨ daysInMonth year month < day ∨ 23 < hour ∨
        59 < minute ∨ 59 < second then none
    else
      let minutes : Int := (dayNumber year month day * 24 + hour) * 60 + minute - offset
      return (minutes * 60 + second) * 1000000000 + nanos
  | _ => none

example : rfc3339 "2026-03-29T03:00:00.5+02:00" = rfc3339 "2026-03-29T01:00:00.5Z" := by decide

end Broom.Core
