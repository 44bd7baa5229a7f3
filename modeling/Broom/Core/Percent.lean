import Mathlib.Data.List.Basic
import Broom.Core.Json

/-!
# Percent encoding

Words of bytes with some bytes written as a percent sign and two hexadecimal digits. A byte
is a character below 256. Which bytes stay as they are is a parameter of encoding; decoding
fails at a percent sign without two digits and leaves every other byte alone.
-/

namespace Broom.Core.Percent

/-- All letters of a word are bytes. -/
def Bytes (w : List Char) : Prop := ∀ c ∈ w, c.toNat < 256

instance (w : List Char) : Decidable (Bytes w) := List.decidableBAll _ w

/-- The bytes of a text. -/
def octets (cs : List Char) : List Char := (Json.utf8 cs).map fun b => Char.ofNat b.toNat

/-- The capital hexadecimal digit of a number. -/
def upperHex (n : Nat) : Char := ("0123456789ABCDEF".toList[n]?).getD '0'

/-- A byte as a percent sign and two digits. -/
def escapeByte (c : Char) : List Char := ['%', upperHex (c.toNat / 16), upperHex (c.toNat % 16)]

/-- A word with the bytes that are not kept escaped. -/
def escape (keep : Char → Bool) (w : List Char) : List Char :=
  w.flatMap fun c => if keep c then [c] else escapeByte c

/-- A word with its escapes replaced by the bytes they stand for. -/
def unescape : List Char → Option (List Char)
  | [] => some []
  | c :: rest =>
    if c = '%' then
      match rest with
      | a :: b :: rest =>
        (Json.hexValue a).bind fun h => (Json.hexValue b).bind fun l =>
          (unescape rest).map (Char.ofNat (16 * h + l) :: ·)
      | _ => none
    else (unescape rest).map (c :: ·)

/-! ## Bytes -/

theorem toNat_ofNat {n : Nat} (h : n < 256) : (Char.ofNat n).toNat = n := by
  have hvalid : n.isValidChar := Or.inl (by omega)
  rw [Char.ofNat, dif_pos hvalid]
  rfl

theorem bytes_octets (cs : List Char) : Bytes (octets cs) := by
  intro c hc
  obtain ⟨b, -, rfl⟩ := List.mem_map.mp hc
  rw [toNat_ofNat b.toNat_lt]
  exact b.toNat_lt

/-- A text is known from its bytes. -/
theorem octets_injective {cs ds : List Char} (h : octets cs = octets ds) : cs = ds := by
  have hbyte : Function.Injective fun b : UInt8 => Char.ofNat b.toNat := by
    intro a b hab
    have hnat := congrArg Char.toNat hab
    simp only [toNat_ofNat a.toNat_lt, toNat_ofNat b.toNat_lt] at hnat
    exact UInt8.toNat_inj.mp hnat
  have hutf8 : Json.utf8 cs = Json.utf8 ds := List.map_injective_iff.mpr hbyte h
  exact Option.some.inj (by rw [← Json.utf8Decode_utf8 cs, hutf8, Json.utf8Decode_utf8])

theorem toNat_lt_of_isAlphanum {c : Char} (h : c.isAlphanum = true) : c.toNat < 128 := by
  have hle (d : Char) (hd : d.toNat < 128) (hcd : c.val ≤ d.val) : c.toNat < 128 :=
    Nat.lt_of_le_of_lt (UInt32.le_iff_toNat_le.mp hcd) hd
  rcases Bool.or_eq_true_iff.mp h with halpha | hdigit
  · rcases Bool.or_eq_true_iff.mp halpha with hupper | hlower
    · exact hle 'Z' (by decide) (of_decide_eq_true hupper).2
    · exact hle 'z' (by decide) (of_decide_eq_true (Bool.and_eq_true_iff.mp hlower).2)
  · exact hle '9' (by decide) (of_decide_eq_true (Bool.and_eq_true_iff.mp hdigit).2)

theorem hexValue_upperHex : ∀ n < 16, Json.hexValue (upperHex n) = some n := by decide

theorem upperHex_alphanum : ∀ n < 16, (upperHex n).isAlphanum = true := by decide

/-! ## Decoding -/

theorem unescape_cons {c : Char} (h : c ≠ '%') (w : List Char) :
    unescape (c :: w) = (unescape w).map (c :: ·) := by
  rw [unescape.eq_def]
  exact if_neg h

theorem unescape_escape_digits (a b : Char) (w : List Char) :
    unescape ('%' :: a :: b :: w) = (Json.hexValue a).bind fun h =>
      (Json.hexValue b).bind fun l => (unescape w).map (Char.ofNat (16 * h + l) :: ·) := by
  rw [unescape.eq_def]
  rfl

/-- A percent sign without two letters behind it is an error. -/
theorem unescape_short {w : List Char} (h : ∀ a b v, w = a :: b :: v → False) :
    unescape ('%' :: w) = none := by
  match w with
  | [] => rfl
  | [a] => rfl
  | a :: b :: v => exact (h a b v rfl).elim

/-- An escaped byte is read back. -/
theorem unescape_escapeByte {c : Char} (h : c.toNat < 256) (w : List Char) :
    unescape (escapeByte c ++ w) = (unescape w).map (c :: ·) := by
  have hbyte : 16 * (c.toNat / 16) + c.toNat % 16 = c.toNat := by omega
  rw [escapeByte, List.cons_append, List.cons_append, List.cons_append, List.nil_append,
    unescape_escape_digits, hexValue_upperHex _ (by omega), hexValue_upperHex _ (by omega),
    Option.bind_some, Option.bind_some, hbyte, Char.ofNat_toNat]

/-- An encoded word is read back in front of any other. -/
theorem unescape_escape_append {keep : Char → Bool} (hkeep : keep '%' = false) {w : List Char}
    (hw : Bytes w) (v : List Char) :
    unescape (escape keep w ++ v) = (unescape v).map (w ++ ·) := by
  induction w with
  | nil => simp [escape]
  | cons c w ih =>
    have ih := ih fun d hd => hw d (List.mem_cons_of_mem c hd)
    have hstep : unescape ((if keep c then [c] else escapeByte c) ++ (escape keep w ++ v)) =
        (unescape (escape keep w ++ v)).map (c :: ·) := by
      split
      · rename_i hc
        have hne : c ≠ '%' := by
          rintro rfl
          simp [hkeep] at hc
        exact unescape_cons hne _
      · exact unescape_escapeByte (hw c List.mem_cons_self) _
    rw [escape, List.flatMap_cons, List.append_assoc, ← escape, hstep, ih, Option.map_map]
    rfl

/-- An encoded word is read back. -/
theorem unescape_escape {keep : Char → Bool} (hkeep : keep '%' = false) {w : List Char}
    (hw : Bytes w) : unescape (escape keep w) = some w := by
  have h := unescape_escape_append hkeep hw []
  rw [List.append_nil] at h
  rw [h, unescape, Option.map_some, List.append_nil]

/-- Decoding goes over a separator: what is before it and what is behind it are decoded on
their own. -/
theorem unescape_append_cons {s : Char} (hpercent : s ≠ '%') (hhex : Json.hexValue s = none)
    (x y : List Char) :
    unescape (x ++ s :: y) = (unescape x).bind fun u => (unescape y).map (u ++ s :: ·) := by
  induction x using unescape.induct with
  | case1 => simp [unescape_cons hpercent, unescape]
  | case2 a b x ih =>
    rw [List.cons_append, List.cons_append, List.cons_append, unescape_escape_digits,
      unescape_escape_digits, ih]
    cases Json.hexValue a with
    | none => rfl
    | some h =>
      cases Json.hexValue b with
      | none => rfl
      | some l =>
        cases unescape x with
        | none => rfl
        | some u =>
          cases unescape y with
          | none => rfl
          | some v => rfl
  | case3 rest hrest =>
    -- a percent sign at the end, or with one digit, is an error on both sides
    cases rest with
    | nil =>
      cases y with
      | nil => rfl
      | cons b y =>
        rw [List.cons_append, List.nil_append, unescape_escape_digits, hhex]
        rfl
    | cons a rest =>
      cases rest with
      | nil =>
        rw [List.cons_append, List.cons_append, List.nil_append, unescape_escape_digits, hhex]
        cases Json.hexValue a <;> rfl
      | cons b rest => exact (hrest a b rest rfl).elim
  | case4 c x hc ih =>
    rw [List.cons_append, unescape_cons hc, unescape_cons hc, ih]
    cases unescape x with
    | none => rfl
    | some u =>
      cases unescape y with
      | none => rfl
      | some v => rfl

theorem hexValue_lt {c : Char} {h : Nat} (hh : Json.hexValue c = some h) : h < 16 := by
  rw [Json.hexValue] at hh
  split at hh
  · rename_i hdigit
    have hle : c.toNat ≤ 57 := (Bool.and_eq_true_iff.mp hdigit).2 |> of_decide_eq_true
    obtain rfl := Option.some.inj hh
    omega
  split at hh
  · obtain rfl := Option.some.inj hh
    omega
  split at hh
  · obtain rfl := Option.some.inj hh
    omega
  · cases hh

/-- Decoding makes bytes of bytes. -/
theorem bytes_unescape {w v : List Char} (hw : Bytes w) (h : unescape w = some v) : Bytes v := by
  induction w using unescape.induct generalizing v with
  | case1 =>
    obtain rfl := Option.some.inj h
    exact hw
  | case2 a b w ih =>
    rw [unescape_escape_digits] at h
    obtain ⟨x, hx, h⟩ := Option.bind_eq_some_iff.mp h
    obtain ⟨y, hy, h⟩ := Option.bind_eq_some_iff.mp h
    obtain ⟨u, hu, rfl⟩ := Option.map_eq_some_iff.mp h
    have hlt : 16 * x + y < 256 := by
      have := hexValue_lt hx
      have := hexValue_lt hy
      omega
    have htail : Bytes u := ih (fun d hd => hw d (by simp [hd])) hu
    exact List.forall_mem_cons.mpr ⟨by rwa [toNat_ofNat hlt], htail⟩
  | case3 rest hrest =>
    rw [unescape_short hrest] at h
    cases h
  | case4 c w hc ih =>
    rw [unescape_cons hc] at h
    obtain ⟨u, hu, rfl⟩ := Option.map_eq_some_iff.mp h
    exact List.forall_mem_cons.mpr
      ⟨hw c List.mem_cons_self, ih (fun d hd => hw d (List.mem_cons_of_mem c hd)) hu⟩

/-- What an encoded word is made of. -/
theorem mem_escape {keep : Char → Bool} {w : List Char} (hw : Bytes w) {c : Char}
    (hc : c ∈ escape keep w) : c ∈ w ∧ keep c = true ∨ c = '%' ∨ c.isAlphanum = true := by
  obtain ⟨d, hd, hc⟩ := List.mem_flatMap.mp hc
  have hlt := hw d hd
  split at hc
  · rename_i hkeep
    obtain rfl := List.mem_singleton.mp hc
    exact Or.inl ⟨hd, hkeep⟩
  · rcases List.mem_cons.mp hc with rfl | hc
    · exact Or.inr (Or.inl rfl)
    rcases List.mem_cons.mp hc with rfl | hc
    · exact Or.inr (Or.inr (upperHex_alphanum _ (by omega)))
    · obtain rfl := List.mem_singleton.mp hc
      exact Or.inr (Or.inr (upperHex_alphanum _ (by omega)))

end Broom.Core.Percent
