import Mathlib.Data.List.TakeWhile
import Mathlib.Data.Nat.Digits.Defs

/-!
# JSON texts

JSON values with whole numbers, the compact text that Go's `encoding/json` writes for
them, and a reader of such texts. The writer escapes quotes, backslashes, control
characters, the characters special to HTML and the two Unicode line separators, so a text
has no control character and its bytes contain no newline. The reader gets every written
value back, whatever follows it.
-/

namespace Broom.Core

/-- A JSON value; a record's fields are in the order of the text. -/
inductive Json
  | null
  | bool (b : Bool)
  | num (n : Int)
  | str (s : String)
  | arr (items : List Json)
  | obj (fields : List (String × Json))

namespace Json

/-- What the items of a list and the values of a record pass on to it, all values have. -/
@[elab_as_elim, induction_eliminator]
theorem induction {P : Json → Prop} (null : P null) (bool : ∀ b, P (bool b))
    (num : ∀ n, P (num n)) (str : ∀ s, P (str s))
    (arr : ∀ items, (∀ v ∈ items, P v) → P (arr items))
    (obj : ∀ fields, (∀ f ∈ fields, P f.2) → P (obj fields)) (v : Json) : P v :=
  match v with
  | .null => null
  | .bool b => bool b
  | .num n => num n
  | .str s => str s
  | .arr items => arr items fun v _ => induction null bool num str arr obj v
  | .obj fields => obj fields fun f _ => induction null bool num str arr obj f.2
termination_by sizeOf v
decreasing_by
  · have hlt := List.sizeOf_lt_of_mem ‹v ∈ items›
    rw [Json.arr.sizeOf_spec]
    omega
  · have hlt := List.sizeOf_lt_of_mem ‹f ∈ fields›
    obtain ⟨name, w⟩ := f
    rw [Prod.mk.sizeOf_spec] at hlt
    rw [Json.obj.sizeOf_spec]
    dsimp only
    omega

/-! ## Characters -/

def quote : Char := Char.ofNat 34

def backslash : Char := Char.ofNat 92

/-- The letter of a two-character escape. -/
def shortEscape (c : Char) : Option Char :=
  if c = quote then some quote
  else if c = backslash then some backslash
  else match c.toNat with
    | 8 => some 'b'
    | 9 => some 't'
    | 10 => some 'n'
    | 12 => some 'f'
    | 13 => some 'r'
    | _ => none

/-- The character that a two-character escape stands for. -/
def unescape (c : Char) : Option Char :=
  if c = quote then some quote
  else if c = backslash then some backslash
  else match c with
    | '/' => some '/'
    | 'b' => some (Char.ofNat 8)
    | 't' => some (Char.ofNat 9)
    | 'n' => some (Char.ofNat 10)
    | 'f' => some (Char.ofNat 12)
    | 'r' => some (Char.ofNat 13)
    | _ => none

/-- The characters written as a number: control characters, those special to HTML, and
the line and paragraph separators. -/
def escapedByNumber (c : Char) : Bool := c.toNat < 32 ∨ c.toNat ∈ [38, 60, 62, 0x2028, 0x2029]

/-- A hexadecimal digit's value. -/
def hexValue (c : Char) : Option Nat :=
  if c.isDigit then some (c.toNat - 48)
  else if 97 ≤ c.toNat ∧ c.toNat ≤ 102 then some (c.toNat - 87)
  else if 65 ≤ c.toNat ∧ c.toNat ≤ 70 then some (c.toNat - 55)
  else none

/-- Four hexadecimal digits. -/
def hexDigits (n : Nat) : List Char :=
  [(n / 4096 % 16).digitChar, (n / 256 % 16).digitChar, (n / 16 % 16).digitChar,
    (n % 16).digitChar]

/-- A character inside a string. -/
def escape (c : Char) : List Char :=
  match shortEscape c with
  | some e => [backslash, e]
  | none => if escapedByNumber c then backslash :: 'u' :: hexDigits c.toNat else [c]

/-- The character of four hexadecimal digits, unless they name half of a surrogate pair. -/
def readHex : List Char → Option (Char × List Char)
  | a :: b :: c :: d :: rest => do
    let n := 4096 * (← hexValue a) + 256 * (← hexValue b) + 16 * (← hexValue c) + (← hexValue d)
    if n.isValidChar then return (Char.ofNat n, rest) else none
  | _ => none

/-- The next character inside a string. -/
def readChar : List Char → Option (Char × List Char)
  | [] => none
  | c :: rest =>
    if c = backslash then
      match rest with
      | 'u' :: rest => readHex rest
      | e :: rest => (unescape e).map (·, rest)
      | [] => none
    else if c.toNat < 32 then none
    else some (c, rest)

/-- The characters up to the closing quote. -/
def readChars : Nat → List Char → Option (List Char × List Char)
  | 0, _ => none
  | _, [] => none
  | fuel + 1, c :: rest =>
    if c = quote then some ([], rest)
    else do
      let (c, rest) ← readChar (c :: rest)
      let (cs, rest) ← readChars fuel rest
      return (c :: cs, rest)

/-! ## Texts -/

/-- The text of a string. -/
def quoted (s : String) : List Char := quote :: s.toList.flatMap escape ++ [quote]

/-- The text of a number. -/
def digits : Int → List Char
  | .ofNat n => Nat.toDigits 10 n
  | .negSucc n => '-' :: Nat.toDigits 10 (n + 1)

mutual

/-- The text of a value. -/
def render : Json → List Char
  | null => ['n', 'u', 'l', 'l']
  | bool true => ['t', 'r', 'u', 'e']
  | bool false => ['f', 'a', 'l', 's', 'e']
  | num n => digits n
  | str s => quoted s
  | arr items => '[' :: (renderItems items).tail ++ [']']
  | obj fields => '\x7b' :: (renderFields fields).tail ++ ['\x7d']

/-- The texts of some items, with a comma before each. -/
def renderItems : List Json → List Char
  | [] => []
  | v :: vs => ',' :: v.render ++ renderItems vs

/-- The texts of some fields, with a comma before each. -/
def renderFields : List (String × Json) → List Char
  | [] => []
  | (name, v) :: fs => ',' :: quoted name ++ ':' :: v.render ++ renderFields fs

end

/-- Read some digits, at least one. -/
def readDigits (cs : List Char) : Option (Nat × List Char) :=
  let ds := cs.takeWhile Char.isDigit
  if ds = [] then none else some (Nat.ofDigitChars 10 ds 0, cs.dropWhile Char.isDigit)

/-- Read a number. -/
def readNumber (cs : List Char) : Option (Json × List Char) :=
  if cs.head? = some '-' then (readDigits cs.tail).map fun (n, rest) => (num (-n), rest)
  else (readDigits cs).map fun (n, rest) => (num n, rest)

/-- Read the rest of a word. -/
def readWord (word : List Char) (v : Json) (cs : List Char) : Option (Json × List Char) :=
  (word.isPrefixOf? cs).map (v, ·)

section

variable {α : Type} (read : List Char → Option (α × List Char)) (close : Char)

/-- Read items with a comma before each, up to the closing bracket. -/
def readTail : Nat → List Char → Option (List α × List Char)
  | 0, _ => none
  | _, [] => none
  | fuel + 1, c :: rest =>
    if c = close then some ([], rest)
    else if c = ',' then do
      let (v, rest) ← read rest
      let (vs, rest) ← readTail fuel rest
      return (v :: vs, rest)
    else none

/-- Read items after the opening bracket. -/
def readList (fuel : Nat) (cs : List Char) : Option (List α × List Char) :=
  if cs.head? = some close then some ([], cs.tail) else readTail read close fuel (',' :: cs)

/-- Read a name, a colon and an item. -/
def readField (fuel : Nat) (cs : List Char) : Option ((String × α) × List Char) :=
  match cs with
  | [] => none
  | c :: rest =>
    if c = quote then do
      let (name, rest) ← readChars fuel rest
      match rest with
      | ':' :: rest => (read rest).map fun (v, rest) => ((String.ofList name, v), rest)
      | _ => none
    else none

end

/-- Read a value and leave what follows it. -/
def readValue : Nat → List Char → Option (Json × List Char)
  | 0, _ => none
  | _, [] => none
  | fuel + 1, c :: rest =>
    if c = quote then (readChars fuel rest).map fun (cs, rest) => (str (String.ofList cs), rest)
    else if c = '[' then
      (readList (readValue fuel) ']' fuel rest).map fun (vs, rest) => (arr vs, rest)
    else if c = '\x7b' then
      (readList (readField (readValue fuel) fuel) '\x7d' fuel rest).map
        fun (fs, rest) => (obj fs, rest)
    else if c = 'n' then readWord ['u', 'l', 'l'] null rest
    else if c = 't' then readWord ['r', 'u', 'e'] (bool true) rest
    else if c = 'f' then readWord ['a', 'l', 's', 'e'] (bool false) rest
    else readNumber (c :: rest)

/-! ## Strings -/

theorem hexValue_digitChar : ∀ d < 16, hexValue d.digitChar = some d := by decide

theorem readHex_hexDigits {c : Char} (hc : c.toNat < 65536) (rest : List Char) :
    readHex (hexDigits c.toNat ++ rest) = some (c, rest) := by
  have hn : 4096 * (c.toNat / 4096 % 16) + 256 * (c.toNat / 256 % 16) +
      16 * (c.toNat / 16 % 16) + c.toNat % 16 = c.toNat := by omega
  have hvalid : c.toNat.isValidChar := c.valid
  simp only [readHex, hexDigits, List.cons_append, List.nil_append,
    hexValue_digitChar _ (Nat.mod_lt _ (by decide : 0 < 16)), Option.bind_eq_bind,
    Option.bind_some, hn, hvalid, if_true]
  rw [Char.ofNat_toNat]
  rfl

/-- The letter of an escape stands for the escaped character; it is not the letter of an
escape by number. -/
theorem unescape_of_shortEscape {c e : Char} (h : shortEscape c = some e) :
    unescape e = some c ∧ e ≠ 'u' ∧ 32 ≤ e.toNat := by
  have hc (n : Nat) (hn : c.toNat = n) : c = Char.ofNat n := by rw [← hn, Char.ofNat_toNat]
  unfold shortEscape at h
  split at h
  · rename_i hq
    obtain rfl := Option.some.inj h
    exact ⟨by rw [hq]; rfl, by decide⟩
  split at h
  · rename_i hb
    obtain rfl := Option.some.inj h
    exact ⟨by rw [hb]; rfl, by decide⟩
  split at h
  case h_6 => cases h
  all_goals
    obtain rfl := Option.some.inj h
    rw [hc _ ‹_›]
    exact ⟨rfl, by decide⟩

/-- A character is read back from its text. -/
theorem readChar_escape (c : Char) (rest : List Char) :
    readChar (escape c ++ rest) = some (c, rest) := by
  unfold escape
  cases h : shortEscape c with
  | some e =>
    obtain ⟨hun, hu, -⟩ := unescape_of_shortEscape h
    simp [readChar, hun]
  | none =>
    have hb : c ≠ backslash := by
      rintro rfl
      exact absurd h (by decide)
    by_cases hn : escapedByNumber c
    · have hlt : c.toNat < 65536 := by
        simp [escapedByNumber] at hn
        omega
      simp only [hn, if_true, List.cons_append, readChar]
      exact readHex_hexDigits hlt rest
    · have h32 : ¬ c.toNat < 32 := by
        intro hlt
        simp [escapedByNumber, hlt] at hn
      simp [hn, readChar, hb, h32]
/-- The text of a character does not start with a quote, which would end the string. -/
theorem head_escape (c : Char) : ∃ d cs, escape c = d :: cs ∧ d ≠ quote := by
  unfold escape
  cases h : shortEscape c with
  | some e => exact ⟨backslash, [e], rfl, by decide⟩
  | none =>
    have hq : c ≠ quote := by
      rintro rfl
      exact absurd h (by decide)
    dsimp only
    split
    · exact ⟨backslash, _, rfl, by decide⟩
    · exact ⟨c, [], rfl, hq⟩

theorem readChars_flatMap {fuel : Nat} (cs rest : List Char) (h : cs.length < fuel) :
    readChars fuel (cs.flatMap escape ++ quote :: rest) = some (cs, rest) := by
  induction cs generalizing fuel with
  | nil =>
    obtain ⟨fuel, rfl⟩ := Nat.exists_eq_add_of_lt h
    simp [readChars]
  | cons c cs ih =>
    obtain ⟨fuel, rfl⟩ : ∃ n, fuel = n + 1 := ⟨fuel - 1, by omega⟩
    obtain ⟨d, ds, hd, hq⟩ := head_escape c
    have hread := readChar_escape c (cs.flatMap escape ++ quote :: rest)
    rw [List.length_cons] at h
    rw [List.flatMap_cons, List.append_assoc]
    rw [hd, List.cons_append] at hread ⊢
    rw [readChars, if_neg hq, hread]
    simp only [Option.bind_eq_bind, Option.bind_some]
    rw [ih (by omega)]
    rfl

theorem length_le_flatMap (cs : List Char) : cs.length ≤ (cs.flatMap escape).length := by
  induction cs with
  | nil => simp
  | cons c cs ih =>
    obtain ⟨d, ds, hd, -⟩ := head_escape c
    simp only [List.flatMap_cons, List.length_append, List.length_cons, hd]
    omega

/-- What follows a number does not go on with a digit. -/
def Delimits (rest : List Char) : Prop := ∀ c ∈ rest.head?, c.isDigit = false

theorem isDigit_of_mem_toDigits {n : Nat} {c : Char} (hc : c ∈ Nat.toDigits 10 n) :
    c.isDigit = true :=
  Nat.isDigit_of_mem_toDigits (by decide) (by decide) hc

theorem readDigits_toDigits (n : Nat) {rest : List Char} (h : Delimits rest) :
    readDigits (Nat.toDigits 10 n ++ rest) = some (n, rest) := by
  have hrest : rest.takeWhile Char.isDigit = [] ∧ rest.dropWhile Char.isDigit = rest := by
    cases rest with
    | nil => exact ⟨rfl, rfl⟩
    | cons c cs => simp [h c rfl]
  have hall : ∀ c ∈ Nat.toDigits 10 n, c.isDigit = true := fun c => isDigit_of_mem_toDigits
  simp only [readDigits, List.takeWhile_append_of_pos hall, List.dropWhile_append_of_pos hall,
    hrest, List.append_nil, if_neg Nat.toDigits_ne_nil, Nat.ofDigitChars_ten_toDigits]

/-- A number starts with a digit or a sign. -/
theorem head_toDigits (n : Nat) :
    ∃ c cs, Nat.toDigits 10 n = c :: cs ∧ c.isDigit = true := by
  cases h : Nat.toDigits 10 n with
  | nil => exact absurd h Nat.toDigits_ne_nil
  | cons c cs => exact ⟨c, cs, rfl, isDigit_of_mem_toDigits (h ▸ List.mem_cons_self ..)⟩

theorem readNumber_digits (n : Int) {rest : List Char} (h : Delimits rest) :
    readNumber (digits n ++ rest) = some (num n, rest) := by
  cases n with
  | ofNat k =>
    have hhead : (Nat.toDigits 10 k ++ rest).head? ≠ some '-' := by
      obtain ⟨c, cs, hk, hc⟩ := head_toDigits k
      rintro hm
      rw [hk] at hm
      obtain rfl : c = '-' := Option.some.inj hm
      exact absurd hc (by decide)
    rw [digits, readNumber, if_neg hhead, readDigits_toDigits k h]
    rfl
  | negSucc k =>
    rw [digits, List.cons_append, readNumber, List.head?_cons, if_pos rfl, List.tail_cons,
      readDigits_toDigits (k + 1) h]
    rfl

/-! ## Values -/

section

variable {α : Type} {read : List Char → Option (α × List Char)} {close : Char}
  {text : α → List Char} {vs : List α}

/-- Items with a comma before each. -/
def joined (text : α → List Char) (vs : List α) : List Char := vs.flatMap fun v => ',' :: text v

theorem length_text_lt {v : α} (hv : v ∈ vs) : (text v).length < (joined text vs).length := by
  obtain ⟨us, ws, rfl⟩ := List.append_of_mem hv
  simp only [joined, List.flatMap_append, List.flatMap_cons, List.length_append, List.length_cons]
  omega

theorem length_le_joined : vs.length ≤ (joined text vs).length := by
  induction vs with
  | nil => exact Nat.zero_le _
  | cons v vs ih =>
    rw [joined, List.flatMap_cons, List.length_append, ← joined, List.length_cons,
      List.length_cons]
    omega

/-- Items are read back if each is, whatever follows it. -/
theorem readTail_joined (hclose : close ≠ ',') (hdigit : close.isDigit = false)
    (hread : ∀ v ∈ vs, ∀ rest, Delimits rest → read (text v ++ rest) = some (v, rest))
    {fuel : Nat} (hfuel : vs.length < fuel) (rest : List Char) :
    readTail read close fuel (joined text vs ++ close :: rest) = some (vs, rest) := by
  induction vs generalizing fuel with
  | nil =>
    obtain ⟨fuel, rfl⟩ := Nat.exists_eq_add_of_lt hfuel
    simp [joined, readTail]
  | cons v vs ih =>
    obtain ⟨fuel, rfl⟩ : ∃ n, fuel = n + 1 := ⟨fuel - 1, by omega⟩
    have hdelim : Delimits (joined text vs ++ close :: rest) := by
      cases vs with
      | nil => simpa [Delimits, joined] using hdigit
      | cons w ws => simp [Delimits, joined]
    have hv := hread v (List.mem_cons_self ..) _ hdelim
    have hvs := ih (fun w hw => hread w (List.mem_cons_of_mem _ hw)) (Nat.lt_of_succ_lt_succ hfuel)
    have hcons : joined text (v :: vs) ++ close :: rest =
        ',' :: (text v ++ (joined text vs ++ close :: rest)) := by
      simp [joined]
    rw [hcons, readTail, if_neg hclose.symm, if_pos rfl, hv]
    simp only [Option.bind_eq_bind, Option.bind_some, hvs]
    rfl

/-- The items of a list are read back after its opening bracket. -/
theorem readList_joined (hclose : close ≠ ',') (hdigit : close.isDigit = false)
    (hread : ∀ v ∈ vs, ∀ rest, Delimits rest → read (text v ++ rest) = some (v, rest))
    (hhead : ∀ v ∈ vs, ∃ c cs, text v = c :: cs ∧ c ≠ close)
    {fuel : Nat} (hfuel : vs.length < fuel) (rest : List Char) :
    readList read close fuel ((joined text vs).tail ++ close :: rest) = some (vs, rest) := by
  cases vs with
  | nil => simp [joined, readList]
  | cons v vs =>
    obtain ⟨c, cs, hv, hc⟩ := hhead v (List.mem_cons_self ..)
    have hcons : joined text (v :: vs) = ',' :: c :: (cs ++ joined text vs) := by
      simp [joined, hv]
    have htail := readTail_joined hclose hdigit hread hfuel rest
    rw [hcons] at htail ⊢
    rw [readList, if_neg (by simpa using hc)]
    exact htail

end

theorem renderItems_eq (vs : List Json) : renderItems vs = joined render vs := by
  induction vs with
  | nil => rfl
  | cons v vs ih => rw [renderItems, ih]; rfl

/-- The text of a field. -/
def fieldText (f : String × Json) : List Char := quoted f.1 ++ ':' :: f.2.render

theorem renderFields_eq (fs : List (String × Json)) : renderFields fs = joined fieldText fs := by
  induction fs with
  | nil => rfl
  | cons f fs ih =>
    obtain ⟨name, v⟩ := f
    rw [renderFields, ih]
    simp [joined, fieldText]

/-- A value's text does not start like the end of a list. -/
theorem head_render (v : Json) : ∃ c cs, v.render = c :: cs ∧ c ≠ ']' := by
  cases v with
  | null => exact ⟨_, _, rfl, by decide⟩
  | bool b => cases b <;> exact ⟨_, _, rfl, by decide⟩
  | num n =>
    cases n with
    | ofNat k =>
      obtain ⟨c, cs, hk, hc⟩ := head_toDigits k
      refine ⟨c, cs, hk, ?_⟩
      rintro rfl
      exact absurd hc (by decide)
    | negSucc k => exact ⟨_, _, rfl, by decide⟩
  | str s => exact ⟨_, _, rfl, by decide⟩
  | arr items => exact ⟨_, _, rfl, by decide⟩
  | obj fields => exact ⟨_, _, rfl, by decide⟩

theorem readValue_digits (n : Int) (fuel : Nat) {rest : List Char} (h : Delimits rest) :
    readValue (fuel + 1) (digits n ++ rest) = some (num n, rest) := by
  have hread := readNumber_digits n h
  have hnum (c : Char) (cs : List Char) (hc : c.isDigit = true ∨ c = '-') :
      readValue (fuel + 1) (c :: cs) = readNumber (c :: cs) := by
    have hne (d : Char) (hd : d.isDigit = false ∧ d ≠ '-') : c ≠ d := by
      rintro rfl
      simp [hd] at hc
    rw [readValue, if_neg (hne quote (by decide)), if_neg (hne _ (by decide)),
      if_neg (hne _ (by decide)), if_neg (hne _ (by decide)), if_neg (hne _ (by decide)),
      if_neg (hne _ (by decide))]
  cases n with
  | ofNat k =>
    obtain ⟨c, cs, hk, hc⟩ := head_toDigits k
    rw [digits, hk, List.cons_append] at hread ⊢
    rw [hnum c _ (.inl hc), hread]
  | negSucc k =>
    rw [digits, List.cons_append] at hread ⊢
    rw [hnum _ _ (.inr rfl), hread]

theorem quoted_append (s : String) (rest : List Char) :
    quoted s ++ rest = quote :: (s.toList.flatMap escape ++ quote :: rest) := by
  simp [quoted]

theorem length_lt_quoted (s : String) : s.toList.length < (quoted s).length := by
  have h := length_le_flatMap s.toList
  simp only [quoted, List.length_append, List.length_cons]
  omega

theorem readField_fieldText {fuel : Nat} (f : String × Json)
    (hv : ∀ rest, Delimits rest → readValue fuel (f.2.render ++ rest) = some (f.2, rest))
    (hfuel : (fieldText f).length < fuel) {rest : List Char} (h : Delimits rest) :
    readField (readValue fuel) fuel (fieldText f ++ rest) = some (f, rest) := by
  obtain ⟨name, v⟩ := f
  have hname : name.toList.length < fuel := by
    have hlen := length_lt_quoted name
    simp only [fieldText, List.length_append] at hfuel
    omega
  have hchars := readChars_flatMap name.toList (':' :: (v.render ++ rest)) hname
  rw [fieldText, List.append_assoc, quoted_append, readField, if_pos rfl]
  simp only [List.cons_append] at hchars ⊢
  rw [hchars]
  simp [hv rest h]

/-- A value is read back from its text, whatever follows it. -/
theorem readValue_render (v : Json) {fuel : Nat} (hfuel : v.render.length < fuel)
    {rest : List Char} (h : Delimits rest) :
    readValue fuel (v.render ++ rest) = some (v, rest) := by
  induction v generalizing fuel rest with
  | null =>
    obtain ⟨fuel, rfl⟩ : ∃ n, fuel = n + 1 := ⟨fuel - 1, by omega⟩
    rfl
  | bool b =>
    obtain ⟨fuel, rfl⟩ : ∃ n, fuel = n + 1 := ⟨fuel - 1, by omega⟩
    cases b <;> rfl
  | num n =>
    obtain ⟨fuel, rfl⟩ : ∃ n, fuel = n + 1 := ⟨fuel - 1, by omega⟩
    exact readValue_digits n fuel h
  | str s =>
    obtain ⟨fuel, rfl⟩ : ∃ n, fuel = n + 1 := ⟨fuel - 1, by omega⟩
    have hlen := length_lt_quoted s
    rw [render] at hfuel ⊢
    rw [quoted_append, readValue, if_pos rfl, readChars_flatMap s.toList rest (by omega)]
    simp
  | arr items ih =>
    obtain ⟨fuel, rfl⟩ : ∃ n, fuel = n + 1 := ⟨fuel - 1, by omega⟩
    rw [render, renderItems_eq] at hfuel ⊢
    simp only [List.length_append, List.length_cons, List.length_tail, List.length_nil] at hfuel
    have hcount := @length_le_joined _ render items
    have hitem : ∀ w ∈ items, w.render.length < fuel := fun w hw => by
      have hlt := @length_text_lt _ render _ _ hw
      omega
    have hlist := readList_joined (show ']' ≠ ',' by decide) (by decide)
      (fun w hw rest hrest => ih w hw (hitem w hw) hrest) (fun w _ => head_render w)
      (show items.length < fuel by omega) rest
    rw [List.cons_append, List.cons_append, List.append_assoc, readValue, if_neg (by decide),
      if_pos rfl, List.singleton_append, hlist]
    rfl
  | obj fields ih =>
    obtain ⟨fuel, rfl⟩ : ∃ n, fuel = n + 1 := ⟨fuel - 1, by omega⟩
    rw [render, renderFields_eq] at hfuel ⊢
    simp only [List.length_append, List.length_cons, List.length_tail, List.length_nil] at hfuel
    have hcount := @length_le_joined _ fieldText fields
    have hfield : ∀ f ∈ fields, (fieldText f).length < fuel := fun f hf => by
      have hlt := @length_text_lt _ fieldText _ _ hf
      omega
    have hvalue : ∀ f ∈ fields, f.2.render.length < fuel := fun f hf => by
      have hlt := hfield f hf
      simp only [fieldText, List.length_append, List.length_cons] at hlt
      omega
    have hlist := readList_joined (show '\x7d' ≠ ',' by decide) (by decide)
      (fun f hf rest hrest =>
        readField_fieldText f (fun _ => ih f hf (hvalue f hf)) (hfield f hf) hrest)
      (fun f _ => ⟨quote, _, rfl, by decide⟩) (show fields.length < fuel by omega) rest
    rw [List.cons_append, List.cons_append, List.append_assoc, readValue, if_neg (by decide),
      if_neg (by decide), if_pos rfl, List.singleton_append, hlist]
    rfl

/-! ## Texts as strings and bytes -/

/-- The compact text of a value. -/
def text (v : Json) : String := String.ofList v.render

/-- Read a text that holds one value. -/
def parse (s : String) : Option Json :=
  match readValue (s.toList.length + 1) s.toList with
  | some (v, []) => some v
  | _ => none

/-- A value is read back from its text. -/
theorem parse_text (v : Json) : parse v.text = some v := by
  have hread := readValue_render v (Nat.lt_succ_self _) (show Delimits [] by simp [Delimits])
  rw [List.append_nil] at hread
  rw [parse, text, String.toList_ofList, hread]

/-- The bytes of some characters. -/
def utf8 (cs : List Char) : List UInt8 := cs.flatMap String.utf8EncodeChar

/-- The characters of some bytes, if they are valid. -/
def utf8Decode (bs : List UInt8) : Option (List Char) :=
  bs.toByteArray.utf8Decode?.map Array.toList

@[simp] theorem utf8Decode_utf8 (cs : List Char) : utf8Decode (utf8 cs) = some cs := by
  have h : (utf8 cs).toByteArray.utf8Decode? = some cs.toArray := List.utf8Decode?_utf8Encode
  rw [utf8Decode, h]
  simp

/-- A byte of a character is the character itself or has its top bit set. -/
theorem byte_of_mem_utf8EncodeChar {c : Char} {b : UInt8} (hb : b ∈ String.utf8EncodeChar c) :
    b.toNat = c.toNat ∨ 128 ≤ b.toNat := by
  have hval : c.val.toNat = c.toNat := rfl
  have hbyte {n k m : Nat} (hm : 128 ≤ m) (h : n % k + m < 256) :
      128 ≤ (UInt8.ofNat (n % k + m)).toNat := by
    rw [UInt8.toNat_ofNat', Nat.mod_eq_of_lt h]
    omega
  unfold String.utf8EncodeChar at hb
  simp only [hval] at hb
  split at hb
  · obtain rfl := List.mem_singleton.mp hb
    rw [UInt8.toNat_ofNat']
    omega
  · -- the bytes of longer characters all have their top bit set
    have hall : ∀ l : List UInt8, (∀ b ∈ l, 128 ≤ b.toNat) → b ∈ l → 128 ≤ b.toNat :=
      fun l h hb => h b hb
    right
    split at hb
    · refine hall _ ?_ hb
      simp only [List.forall_mem_cons, List.not_mem_nil, false_imp_iff, implies_true, and_true]
      exact ⟨hbyte (by decide) (by omega), hbyte (by decide) (by omega)⟩
    · split at hb
      · refine hall _ ?_ hb
        simp only [List.forall_mem_cons, List.not_mem_nil, false_imp_iff, implies_true, and_true]
        exact ⟨hbyte (by decide) (by omega), hbyte (by decide) (by omega),
          hbyte (by decide) (by omega)⟩
      · refine hall _ ?_ hb
        simp only [List.forall_mem_cons, List.not_mem_nil, false_imp_iff, implies_true, and_true]
        exact ⟨hbyte (by decide) (by omega), hbyte (by decide) (by omega),
          hbyte (by decide) (by omega), hbyte (by decide) (by omega)⟩

/-- A character that is no control character has no byte of one. -/
theorem le_of_mem_utf8EncodeChar {c : Char} (hc : 32 ≤ c.toNat) {b : UInt8}
    (hb : b ∈ String.utf8EncodeChar c) : 32 ≤ b.toNat := by
  rcases byte_of_mem_utf8EncodeChar hb with h | h <;> omega

/-- No control character. -/
def Printable (cs : List Char) : Prop := ∀ c ∈ cs, 32 ≤ c.toNat

theorem printable_append {cs ds : List Char} :
    Printable (cs ++ ds) ↔ Printable cs ∧ Printable ds := List.forall_mem_append

theorem printable_flatMap {α : Type} {f : α → List Char} {vs : List α}
    (h : ∀ v ∈ vs, Printable (f v)) : Printable (vs.flatMap f) := by
  intro c hc
  obtain ⟨v, hv, hc⟩ := List.mem_flatMap.mp hc
  exact h v hv c hc

theorem printable_hexDigits (n : Nat) : Printable (hexDigits n) := by
  have hdigit : ∀ d < 16, 32 ≤ (Nat.digitChar d).toNat := by decide
  intro c hc
  simp only [hexDigits, List.mem_cons, List.not_mem_nil, or_false] at hc
  rcases hc with rfl | rfl | rfl | rfl <;> exact hdigit _ (Nat.mod_lt _ (by decide))

theorem printable_escape (c : Char) : Printable (escape c) := by
  have hbackslash : 32 ≤ backslash.toNat := by decide
  unfold escape
  cases h : shortEscape c with
  | some e =>
    obtain ⟨-, -, he⟩ := unescape_of_shortEscape h
    simp [Printable, hbackslash, he]
  | none =>
    dsimp only
    split
    · intro d hd
      rcases List.mem_cons.mp hd with rfl | hd
      · exact hbackslash
      · rcases List.mem_cons.mp hd with rfl | hd
        · decide
        · exact printable_hexDigits _ d hd
    · rename_i hn
      simp only [escapedByNumber, Bool.decide_or, Bool.or_eq_true, decide_eq_true_eq,
        not_or] at hn
      intro d hd
      obtain rfl := List.mem_singleton.mp hd
      omega

theorem printable_quoted (s : String) : Printable (quoted s) := by
  have hquote : Printable [quote] := by simp [Printable, quote]
  rw [quoted, ← List.singleton_append, printable_append, printable_append]
  exact ⟨⟨hquote, printable_flatMap fun c _ => printable_escape c⟩, hquote⟩

theorem printable_digits (n : Int) : Printable (digits n) := by
  have hdigits (k : Nat) : Printable (Nat.toDigits 10 k) := fun c hc => by
    have h := isDigit_of_mem_toDigits hc
    simp [Char.isDigit, UInt32.le_iff_toNat_le] at h
    have : c.val.toNat = c.toNat := rfl
    omega
  cases n with
  | ofNat k => exact hdigits k
  | negSucc k =>
    intro c hc
    rcases List.mem_cons.mp hc with rfl | hc
    · decide
    · exact hdigits _ c hc

theorem printable_joined {α : Type} {text : α → List Char} {vs : List α}
    (h : ∀ v ∈ vs, Printable (text v)) : Printable (joined text vs) := by
  refine printable_flatMap fun v hv c hc => ?_
  rcases List.mem_cons.mp hc with rfl | hc
  · decide
  · exact h v hv c hc

/-- A text has no control character, so it is one line. -/
theorem printable_render (v : Json) : Printable v.render := by
  have hbrackets {a b : Char} (ha : 32 ≤ a.toNat) (hb : 32 ≤ b.toNat) {cs : List Char}
      (h : Printable cs) : Printable (a :: cs.tail ++ [b]) := by
    intro c hc
    rcases List.mem_append.mp hc with hc | hc
    · rcases List.mem_cons.mp hc with rfl | hc
      · exact ha
      · exact h c (List.mem_of_mem_tail hc)
    · obtain rfl := List.mem_singleton.mp hc
      exact hb
  induction v with
  | null => simp [render, Printable]
  | bool b => cases b <;> simp [render, Printable]
  | num n => exact printable_digits n
  | str s => exact printable_quoted s
  | arr items ih =>
    rw [render, renderItems_eq]
    exact hbrackets (by decide) (by decide) (printable_joined ih)
  | obj fields ih =>
    rw [render, renderFields_eq]
    refine hbrackets (by decide) (by decide) (printable_joined fun f hf => ?_)
    have hcolon : Printable [':'] := by simp [Printable]
    rw [fieldText, ← List.singleton_append, printable_append, printable_append]
    exact ⟨printable_quoted f.1, hcolon, ih f hf⟩

/-- The bytes of a text. -/
def bytes (v : Json) : List UInt8 := utf8 v.render

theorem le_of_mem_bytes {v : Json} {b : UInt8} (hb : b ∈ v.bytes) : 32 ≤ b.toNat := by
  obtain ⟨c, hc, hb⟩ := List.mem_flatMap.mp hb
  exact le_of_mem_utf8EncodeChar (printable_render v c hc) hb

theorem bytes_ne_nil (v : Json) : v.bytes ≠ [] := by
  obtain ⟨c, cs, hv, -⟩ := head_render v
  rw [bytes, hv, utf8, List.flatMap_cons]
  exact List.append_ne_nil_of_left_ne_nil String.utf8EncodeChar_ne_nil _

/-- Read the value that some bytes hold. -/
def ofBytes (bs : List UInt8) : Option Json :=
  (utf8Decode bs).bind fun cs => parse (String.ofList cs)

/-- A value is read back from its bytes. -/
@[simp] theorem ofBytes_bytes (v : Json) : ofBytes v.bytes = some v := by
  rw [ofBytes, bytes, utf8Decode_utf8, Option.bind_some]
  exact parse_text v

/-- The value that a stream of bytes starts with. -/
def ofStream (bs : List UInt8) : Option Json := do
  let cs ← utf8Decode bs
  let (v, _) ← readValue (cs.length + 1) cs
  return v

/-- A stream's first value is read back, whatever characters follow it. -/
theorem ofStream_append (v : Json) {cs : List Char} (h : Delimits cs) :
    ofStream (v.bytes ++ utf8 cs) = some v := by
  have hbytes : v.bytes ++ utf8 cs = utf8 (v.render ++ cs) := List.flatMap_append.symm
  have hlen : v.render.length < (v.render ++ cs).length + 1 := by
    rw [List.length_append]
    omega
  rw [ofStream, hbytes, utf8Decode_utf8]
  simp only [Option.bind_eq_bind, Option.bind_some, readValue_render v hlen h]
  rfl

end Json

end Broom.Core
