import Broom.Core.Json

/-!
# Durations

Go writes a duration with its hours, minutes and seconds, from the first of them that is not
zero, and with a smaller unit below a second. The text of whole seconds has no fraction.
-/

namespace Broom.Core.Duration

/-! ## Writing -/

/-- Write some digits of a number's end as a fraction without zeros at its end; the rest of
the number is returned. -/
def fmtFrac : Nat → Nat → Bool → List Char → List Char × Nat
  | 0, v, print, buf => (if print then '.' :: buf else buf, v)
  | prec + 1, v, print, buf =>
    let print := print || v % 10 ≠ 0
    fmtFrac prec (v / 10) print (if print then (v % 10).digitChar :: buf else buf)

def fmtInt (v : Nat) (buf : List Char) : List Char := Nat.toDigits 10 v ++ buf

/-- The text of some nanoseconds that are less than a second. -/
def formatSmall (u : Nat) : List Char :=
  if u = 0 then ['0', 's']
  else
    let (prec, unit) :=
      if u < 1000 then (0, ['n', 's'])
      else if u < 1000000 then (3, ['µ', 's'])
      else (6, ['m', 's'])
    let (buf, u) := fmtFrac prec u false unit
    fmtInt u buf

/-- The text of some nanoseconds. -/
def formatNat (u : Nat) : List Char :=
  if u < 1000000000 then formatSmall u
  else
    let (buf, u) := fmtFrac 9 u false ['s']
    let buf := fmtInt (u % 60) buf
    let u := u / 60
    if u = 0 then buf
    else
      let buf := fmtInt (u % 60) ('m' :: buf)
      let u := u / 60
      if u = 0 then buf else fmtInt u ('h' :: buf)

/-- The text of a duration. -/
def format (d : Int) : String :=
  String.ofList (if d < 0 then '-' :: formatNat d.natAbs else formatNat d.natAbs)

/-! ## Whole seconds -/

/-- Zeros make no fraction. -/
theorem fmtFrac_zeros (prec n : Nat) (buf : List Char) :
    fmtFrac prec (n * 10 ^ prec) false buf = (buf, n) := by
  induction prec generalizing n with
  | zero => simp [fmtFrac]
  | succ prec ih =>
    have hmod : n * 10 ^ (prec + 1) % 10 = 0 := by
      rw [pow_succ, ← mul_assoc, Nat.mul_mod_left]
    have hdiv : n * 10 ^ (prec + 1) / 10 = n * 10 ^ prec := by
      rw [pow_succ, ← mul_assoc, Nat.mul_div_cancel _ (by decide)]
    rw [fmtFrac, hmod, hdiv]
    exact ih n

/-- The hours, minutes and seconds of some seconds. -/
def clock (n : Nat) : List Char :=
  if n / 60 = 0 then fmtInt n ['s']
  else if n / 60 / 60 = 0 then fmtInt (n / 60) ('m' :: fmtInt (n % 60) ['s'])
  else fmtInt (n / 60 / 60) ('h' :: fmtInt (n / 60 % 60) ('m' :: fmtInt (n % 60) ['s']))

/-- The text of whole seconds. -/
theorem formatNat_seconds {n : Nat} (h : 0 < n) : formatNat (n * 10 ^ 9) = clock n := by
  have hlarge : ¬ n * 10 ^ 9 < 1000000000 := by omega
  rw [formatNat, if_neg hlarge, fmtFrac_zeros]
  dsimp only
  unfold clock
  by_cases hmin : n / 60 = 0
  · have hlt : n % 60 = n := Nat.mod_eq_of_lt (by omega)
    rw [if_pos hmin, if_pos hmin, hlt]
  · rw [if_neg hmin, if_neg hmin]
    by_cases hhour : n / 60 / 60 = 0
    · have hlt : n / 60 % 60 = n / 60 := Nat.mod_eq_of_lt (by omega)
      rw [if_pos hhour, if_pos hhour, hlt]
    · rw [if_neg hhour, if_neg hhour]

theorem format_seconds {n : Nat} (h : 0 < n) :
    (format (n * 10 ^ 9 : Nat)).toList = clock n := by
  have hneg : ¬ ((n * 10 ^ 9 : Nat) : Int) < 0 := by omega
  rw [format, if_neg hneg, String.toList_ofList, Int.natAbs_natCast, formatNat_seconds h]

example : format (90 * 60 * 10 ^ 9) = "1h30m0s" := by decide

end Broom.Core.Duration
