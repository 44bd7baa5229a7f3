import Mathlib.Data.List.DropRight
import Broom.Core.Word

/-!
# Slash-separated paths

Paths from a root, as a web server handles them: cleaning away empty and dot segments, the
last element, and what a relative reference in a redirect leads to. A cleaned path is the
list of its segments. The letters are code points or bytes, only `/` and `.` matter.
-/

namespace Broom.Core.SlashPath

/-- One segment of a path. -/
abbrev Seg := List Char

/-- Go one segment further; a dot stays, two dots go back. -/
def push (path : List Seg) (seg : Seg) : List Seg :=
  if seg = [] ∨ seg = ".".toList then path
  else if seg = "..".toList then path.dropLast
  else path ++ [seg]

/-- The segments of a path from the root after cleaning. -/
def clean (p : List Char) : List Seg := (p.splitOn '/').foldl push []

/-- The last element of a path without its trailing slashes. -/
def base (p : List Char) : List Char :=
  if p = [] then ".".toList
  else
    let q := p.rdropWhile (· = '/')
    if q = [] then "/".toList else ((q.splitOn '/').getLast?).getD []

/-- The path of a relative reference in the answer to a request for `url`. -/
def resolve (url location : List Char) : List Char := url.rdropWhile (· ≠ '/') ++ location

/-- The path ends in a slash. -/
def endsInSlash (p : List Char) : Bool := p.getLast? = some '/'

/-- A segment that is a name. -/
structure Proper (seg : Seg) : Prop where
  ne_nil : seg ≠ []
  ne_dot : seg ≠ ".".toList
  ne_dots : seg ≠ "..".toList
  slash : '/' ∉ seg

theorem push_proper {seg : Seg} (path : List Seg) (h : Proper seg) :
    push path seg = path ++ [seg] := by
  rw [push, if_neg (not_or.mpr ⟨h.ne_nil, h.ne_dot⟩), if_neg h.ne_dots]

theorem push_dots (path : List Seg) : push path "..".toList = path.dropLast := by
  rw [push, if_neg (by decide), if_pos rfl]

/-! ## Cleaning -/

/-- Behind a slash, cleaning goes on where it has got to. -/
theorem clean_append_slash (x y : List Char) :
    clean (x ++ '/' :: y) = (y.splitOn '/').foldl push (clean x) := by
  rw [clean, List.splitOn_append_cons_self, List.foldl_append, ← clean]

/-- One segment more. -/
theorem clean_append_seg (x : List Char) {seg : Seg} (h : '/' ∉ seg) :
    clean (x ++ '/' :: seg) = push (clean x) seg := by
  rw [clean_append_slash, List.splitOn_eq_singleton h]
  rfl

/-- A first slash is the root. -/
theorem clean_cons_slash (p : List Char) : clean ('/' :: p) = clean p :=
  clean_append_slash [] p

/-- A last slash makes no difference. -/
theorem clean_concat_slash (p : List Char) : clean (p ++ ['/']) = clean p :=
  clean_append_seg p List.not_mem_nil

/-- Trailing slashes make no difference. -/
theorem clean_rdropWhile (p : List Char) : clean (p.rdropWhile (· = '/')) = clean p := by
  induction p using List.reverseRecOn with
  | nil => rfl
  | append_singleton p c ih =>
    by_cases hc : c = '/'
    · rw [List.rdropWhile_concat_pos _ _ _ (by simpa using hc), ih, hc, clean_concat_slash]
    · rw [List.rdropWhile_concat_neg _ _ _ (by simpa using hc)]

/-! ## The last element -/

/-- A path from the root with a segment left has a last element behind a slash. -/
theorem exists_base {p : List Char} (hroot : ['/'] <+: p) (h : clean p ≠ []) :
    ∃ x, p.rdropWhile (· = '/') = x ++ '/' :: base p ∧ base p ≠ [] ∧ '/' ∉ base p := by
  have hne : p.rdropWhile (· = '/') ≠ [] := by
    intro hnil
    exact h (by rw [← clean_rdropWhile, hnil]; rfl)
  have hp : p ≠ [] := by
    rintro rfl
    exact h rfl
  -- the first slash is not a trailing one
  have hslash : '/' ∈ p.rdropWhile (· = '/') := by
    obtain ⟨c, w, hcw⟩ := List.exists_cons_of_ne_nil hne
    obtain ⟨t, ht⟩ := List.rdropWhile_prefix (· = '/') p
    obtain ⟨u, hu⟩ := hroot
    rw [hcw, ← hu] at ht
    rw [hcw, (List.cons.inj ht).1]
    exact List.mem_cons_self ..
  obtain ⟨x, s, hxs, hs⟩ := exists_last_sep hslash
  have hbase : base p = s := by
    rw [base, if_neg hp]
    simp only [hne, if_false]
    rw [hxs, getLast_splitOn_append x hs, Option.getD_some]
  refine ⟨x, hbase ▸ hxs, ?_, hbase ▸ hs⟩
  rw [hbase]
  rintro rfl
  have hlast := List.rdropWhile_last_not (· = '/') p hne
  simp [hxs] at hlast

/-- The last segment of a cleaned path is its last element, unless this is made of dots. -/
theorem clean_eq_of_proper {p : List Char} (hroot : ['/'] <+: p) (h : clean p ≠ [])
    (hdot : base p ≠ ".".toList) (hdots : base p ≠ "..".toList) :
    clean p = (clean p).dropLast ++ [base p] := by
  obtain ⟨x, hx, hne, hslash⟩ := exists_base hroot h
  have hclean : clean p = clean x ++ [base p] := by
    rw [← clean_rdropWhile, hx, clean_append_seg x hslash,
      push_proper _ ⟨hne, hdot, hdots, hslash⟩]
  rw [hclean, List.dropLast_concat]

/-- Behind a last slash, a reference to a sibling leads back and on. -/
theorem clean_resolve_sibling {url : List Char} {seg : Seg} (hurl : endsInSlash url = true)
    (hseg : '/' ∉ seg) :
    clean (resolve url ("../".toList ++ seg)) = push (clean url).dropLast seg := by
  obtain ⟨p, rfl⟩ : ∃ p, url = p ++ ['/'] := by
    rw [endsInSlash, decide_eq_true_eq] at hurl
    exact ⟨url.dropLast, (List.dropLast_append_getLast? _ hurl).symm⟩
  have hdir : resolve (p ++ ['/']) ("../".toList ++ seg) =
      (p ++ '/' :: "..".toList) ++ '/' :: seg := by
    rw [resolve, List.rdropWhile_concat_neg _ _ _ (by simp)]
    simp
  rw [hdir, clean_append_seg _ hseg, clean_append_seg _ (by decide), push_dots,
    clean_concat_slash]

end Broom.Core.SlashPath
