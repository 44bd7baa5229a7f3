import Mathlib.Data.List.Dedup
import Broom.Core.Percent
import Broom.Core.SlashPath

/-!
# Routing by method and path

A server's request multiplexer as the Go library documents it: the path of a request's
target, its cleaning, and the tree of patterns with literal segments, wildcards for one
segment and a slash at the end for any rest. Literals go before wildcards and wildcards
before the rest; a pattern for the method goes before one for any method. Patterns that name
a host or give the rest a name are not treated. A word is a list of bytes.
-/

namespace Broom.Core.ServeMux

open Percent SlashPath

/-! ## The path of a target -/

/-- Bytes that stay as they are when a path is encoded. -/
def keepInPath (c : Char) : Bool := c.isAlphanum || c ∈ "-_.~$&+,/:;=@".toList

/-- An encoded path that may be used as it is. -/
def validEncoded (p : List Char) : Bool :=
  p.all fun c => keepInPath c || c ∈ "!'()*[]%".toList

/-- A target's path, and how it was written where this is not the default encoding. -/
structure URL where
  path : List Char
  rawPath : List Char
  deriving DecidableEq, Repr

/-- Read a path; it may have a wrong escape. -/
def setPath (p : List Char) : Option URL :=
  (unescape p).map fun path => ⟨path, if p = escape keepInPath path then [] else p⟩

/-- The encoded path. -/
def URL.escapedPath (u : URL) : List Char :=
  if u.rawPath ≠ [] ∧ validEncoded u.rawPath = true ∧ unescape u.rawPath = some u.path then
    u.rawPath
  else if u.path = ['*'] then ['*']
  else escape keepInPath u.path

/-- The path without empty and dot segments; a slash at the end stays. -/
def cleanPath (p : List Char) : List Char :=
  '/' :: List.intercalate ['/'] (clean p) ++
    if endsInSlash p = true ∧ clean p ≠ [] then ['/'] else []

/-- A segment without its escapes. -/
def pathUnescape (seg : Seg) : Seg := (unescape seg).getD seg

/-- The parts between slashes as patterns see them: the empty part at the end is a slash. -/
def seen : List Seg → List Seg
  | [] => []
  | [last] => [if last = [] then ['/'] else pathUnescape last]
  | part :: parts => pathUnescape part :: seen parts

/-- The segments of an encoded path. -/
def segments : List Char → List Seg
  | [] => []
  | _ :: p => seen (p.splitOn '/')

/-! ## Patterns -/

/-- One segment of a pattern; `rest` is the slash at the end. -/
inductive PatSegment where
  | literal (s : Seg)
  | wildcard (name : String)
  | rest
  deriving DecidableEq, Repr

/-- What requests a handler is registered for. -/
structure Pattern where
  method : Option String
  segments : List PatSegment
  deriving DecidableEq, Repr

/-- A pattern with its handler. -/
structure Route (H : Type) where
  pattern : Pattern
  handler : H
  deriving DecidableEq, Repr

section Tree

variable {H : Type}

/-- A node of the tree: what is left of the patterns that lead there. -/
abbrev Node (H : Type) := List (List PatSegment × Route H)

/-- The node behind a literal. -/
def literalChild (n : Node H) (seg : Seg) : Node H :=
  n.filterMap fun (segs, r) =>
    match segs with
    | .literal s :: segs => if s = seg then some (segs, r) else none
    | _ => none

/-- The node behind a wildcard. -/
def emptyChild (n : Node H) : Node H :=
  n.filterMap fun (segs, r) =>
    match segs with
    | .wildcard _ :: segs => some (segs, r)
    | _ => none

/-- The node for a segment; the tree keeps wildcards under the empty one. -/
def findChild (n : Node H) (seg : Seg) : Node H :=
  if seg = [] then emptyChild n else literalChild n seg

/-- The pattern that takes any rest. -/
def multiChild (n : Node H) : Option (Route H) :=
  (n.find? fun (segs, _) => segs = [.rest]).map Prod.snd

/-- The pattern that ends at a node. -/
def leaf (n : Node H) : Option (Route H) := (n.find? fun (segs, _) => segs = []).map Prod.snd

/-- The pattern below a node for the rest of a path, with what its wildcards stand for. -/
def matchPath (n : Node H) : List Seg → List Seg → Option (Route H × List Seg)
  | [], values => (leaf n).map (·, values)
  | seg :: segs, values =>
    match matchPath (findChild n seg) segs values with
    | some found => some found
    | none =>
      match if seg ≠ ['/'] then matchPath (emptyChild n) segs (values ++ [seg]) else none with
      | some found => some found
      | none => (multiChild n).map (·, values)

/-- The patterns for one method, or for any. -/
def forMethod (routes : List (Route H)) (method : Option String) : Node H :=
  (routes.filter fun r => r.pattern.method = method).map fun r => (r.pattern.segments, r)

/-- The pattern for a method and a path; what is there for GET is there for HEAD. -/
def matchMethodAndPath (routes : List (Route H)) (method : String) (path : List Char) :
    Option (Route H × List Seg) :=
  match matchPath (forMethod routes (some method)) (segments path) [] with
  | some found => some found
  | none =>
    match if method = "HEAD" then matchPath (forMethod routes (some "GET")) (segments path) []
        else none with
    | some found => some found
    | none => matchPath (forMethod routes none) (segments path) []

/-- A match without a rest, or with nothing for it. -/
def exactMatch (found : Option (Route H × List Seg)) (path : List Char) : Bool :=
  match found with
  | none => false
  | some (r, _) =>
    if r.pattern.segments.getLast? ≠ some .rest then true
    else if path ≠ [] ∧ endsInSlash path = false then false
    else r.pattern.segments.length = path.count '/'

/-- What a request is answered with. -/
inductive Found (H : Type) where
  | handler (r : Route H) (values : List Seg)
  | redirect (path : List Char)
  | methodNotAllowed (allow : List String)
  | notFound
  deriving DecidableEq, Repr

/-- The path to redirect to where only the slash at the end is missing. -/
def slashRedirect (routes : List (Route H)) (method : String) (path : List Char) (u : URL) :
    Option (List Char) :=
  if exactMatch (matchMethodAndPath routes method path) path = false ∧
      endsInSlash path = false ∧
      exactMatch (matchMethodAndPath routes method (path ++ ['/'])) (path ++ ['/']) = true then
    some (cleanPath u.path ++ ['/'])
  else none

/-- The methods there are patterns for. -/
def matchingMethods (routes : List (Route H)) (path : List Char) : List String :=
  let paths := if endsInSlash path then [path] else [path, path ++ ['/']]
  let methods := (routes.filterMap fun r => r.pattern.method).filter fun m =>
    paths.any fun p => (matchPath (forMethod routes (some m)) (segments p) []).isSome
  let methods := if "GET" ∈ methods then "HEAD" :: methods else methods
  methods.dedup.mergeSort

/-- What answers a request that no handler is for. -/
def unmatched (routes : List (Route H)) (path : List Char) : Found H :=
  match matchingMethods routes path with
  | [] => .notFound
  | allow => .methodNotAllowed allow

/-- What answers a request. -/
def findHandler (routes : List (Route H)) (method : String) (u : URL) : Found H :=
  let escaped := u.escapedPath
  if method = "CONNECT" then
    match slashRedirect routes method escaped u with
    | some target => .redirect target
    | none =>
      match matchMethodAndPath routes method escaped with
      | some (r, values) => .handler r values
      | none => unmatched routes escaped
  else
    let path := cleanPath escaped
    match slashRedirect routes method path u with
    | some target => .redirect target
    | none =>
      if path ≠ escaped then .redirect path
      else
        match matchMethodAndPath routes method path with
        | some (r, values) => .handler r values
        | none => unmatched routes path

end Tree

/-! ## What a match says -/

/-- The segments that a pattern is for. -/
def Fits : List PatSegment → List Seg → Prop
  | [], segs => segs = []
  | .rest :: _, segs => segs ≠ []
  | .literal s :: ps, seg :: segs => seg = s ∧ Fits ps segs
  | .wildcard _ :: ps, _ :: segs => Fits ps segs
  | _ :: _, [] => False

section Match

variable {H : Type}

theorem fits_of_literalChild {n : Node H} {seg : Seg} {segs : List Seg} {r : Route H}
    (h : ∃ ps, (ps, r) ∈ literalChild n seg ∧ Fits ps segs) :
    ∃ ps, (ps, r) ∈ n ∧ Fits ps (seg :: segs) := by
  obtain ⟨ps, hmem, hfits⟩ := h
  obtain ⟨⟨qs, r'⟩, hq, hchild⟩ := List.mem_filterMap.mp hmem
  cases qs with
  | nil => cases hchild
  | cons q qs =>
    cases q with
    | literal s =>
      change (if s = seg then some (qs, r') else none) = some (ps, r) at hchild
      by_cases hs : s = seg
      · rw [if_pos hs] at hchild
        obtain ⟨rfl, rfl⟩ := Prod.mk.inj (Option.some.inj hchild)
        exact ⟨_, hq, hs.symm, hfits⟩
      · rw [if_neg hs] at hchild
        cases hchild
    | wildcard name => cases hchild
    | rest => cases hchild

theorem fits_of_emptyChild {n : Node H} (seg : Seg) {segs : List Seg} {r : Route H}
    (h : ∃ ps, (ps, r) ∈ emptyChild n ∧ Fits ps segs) :
    ∃ ps, (ps, r) ∈ n ∧ Fits ps (seg :: segs) := by
  obtain ⟨ps, hmem, hfits⟩ := h
  obtain ⟨⟨qs, r'⟩, hq, hchild⟩ := List.mem_filterMap.mp hmem
  cases qs with
  | nil => cases hchild
  | cons q qs =>
    cases q with
    | literal s => cases hchild
    | wildcard name =>
      obtain ⟨rfl, rfl⟩ := Prod.mk.inj (Option.some.inj hchild)
      exact ⟨_, hq, hfits⟩
    | rest => cases hchild

theorem fits_of_findChild {n : Node H} {seg : Seg} {segs : List Seg} {r : Route H}
    (h : ∃ ps, (ps, r) ∈ findChild n seg ∧ Fits ps segs) :
    ∃ ps, (ps, r) ∈ n ∧ Fits ps (seg :: segs) := by
  rw [findChild] at h
  split at h
  · exact fits_of_emptyChild seg h
  · exact fits_of_literalChild h

/-- What is found below a node is a pattern of it that is for the path. -/
theorem fits_of_matchPath {n : Node H} {segs values found : List Seg} {r : Route H}
    (h : matchPath n segs values = some (r, found)) : ∃ ps, (ps, r) ∈ n ∧ Fits ps segs := by
  induction segs generalizing n values with
  | nil =>
    rw [matchPath, leaf] at h
    obtain ⟨r', hr', he⟩ := Option.map_eq_some_iff.mp h
    obtain ⟨⟨ps, r''⟩, hfind, rfl⟩ := Option.map_eq_some_iff.mp hr'
    obtain ⟨rfl, -⟩ := Prod.mk.inj he
    have hps : ps = [] := by simpa using List.find?_some hfind
    refine ⟨ps, List.mem_of_find?_eq_some hfind, ?_⟩
    rw [hps]
    rfl
  | cons seg segs ih =>
    rw [matchPath] at h
    split at h
    · -- a literal
      rename_i hchild
      obtain rfl := Option.some.inj h
      exact fits_of_findChild (ih hchild)
    split at h
    · -- a wildcard
      rename_i hchild
      obtain rfl := Option.some.inj h
      split at hchild
      · exact fits_of_emptyChild seg (ih hchild)
      · cases hchild
    · -- the rest
      obtain ⟨r', hr', he⟩ := Option.map_eq_some_iff.mp h
      obtain ⟨⟨ps, r''⟩, hfind, rfl⟩ := Option.map_eq_some_iff.mp hr'
      obtain ⟨rfl, -⟩ := Prod.mk.inj he
      have hps : ps = [.rest] := by simpa using List.find?_some hfind
      refine ⟨ps, List.mem_of_find?_eq_some hfind, ?_⟩
      rw [hps]
      exact List.cons_ne_nil seg segs

/-- The methods that a pattern is for. -/
def Pattern.Serves (p : Pattern) (method : String) : Prop :=
  p.method = none ∨ p.method = some method ∨ method = "HEAD" ∧ p.method = some "GET"

theorem mem_of_forMethod {routes : List (Route H)} {m : Option String} {r : Route H}
    {segs values found : List Seg}
    (h : matchPath (forMethod routes m) segs values = some (r, found)) :
    r ∈ routes ∧ r.pattern.method = m ∧ Fits r.pattern.segments segs := by
  obtain ⟨ps, hps, hfits⟩ := fits_of_matchPath h
  obtain ⟨r', hr', he⟩ := List.mem_map.mp hps
  obtain ⟨rfl, rfl⟩ := Prod.mk.inj he
  obtain ⟨hmem, hm⟩ := List.mem_filter.mp hr'
  exact ⟨hmem, of_decide_eq_true hm, hfits⟩

/-- A request is matched with a pattern that is for its method and its path. -/
theorem fits_of_matchMethodAndPath {routes : List (Route H)} {method : String}
    {path : List Char} {r : Route H} {values : List Seg}
    (h : matchMethodAndPath routes method path = some (r, values)) :
    r ∈ routes ∧ r.pattern.Serves method ∧ Fits r.pattern.segments (segments path) := by
  rw [matchMethodAndPath] at h
  split at h
  · rename_i hexact
    obtain rfl := Option.some.inj h
    obtain ⟨hmem, hm, hfits⟩ := mem_of_forMethod hexact
    exact ⟨hmem, Or.inr (Or.inl hm), hfits⟩
  split at h
  · rename_i hget
    obtain rfl := Option.some.inj h
    split at hget
    · rename_i hhead
      obtain ⟨hmem, hm, hfits⟩ := mem_of_forMethod hget
      exact ⟨hmem, Or.inr (Or.inr ⟨hhead, hm⟩), hfits⟩
    · cases hget
  · obtain ⟨hmem, hm, hfits⟩ := mem_of_forMethod h
    exact ⟨hmem, Or.inl hm, hfits⟩

theorem unmatched_ne_handler (routes : List (Route H)) (path : List Char) (r : Route H)
    (values : List Seg) : unmatched routes path ≠ .handler r values := by
  rw [unmatched]
  split
  · rintro ⟨⟩
  · rintro ⟨⟩

/-- A handler gets a request whose encoded path its pattern is for, and but for CONNECT this
path is clean. -/
theorem of_findHandler {routes : List (Route H)} {method : String} {u : URL} {r : Route H}
    {values : List Seg} (h : findHandler routes method u = .handler r values) :
    matchMethodAndPath routes method u.escapedPath = some (r, values) ∧
      (method ≠ "CONNECT" → cleanPath u.escapedPath = u.escapedPath) := by
  rw [findHandler] at h
  split at h
  · rename_i hconnect
    split at h
    · cases h
    split at h
    · rename_i hmatch
      obtain ⟨rfl, rfl⟩ := Found.handler.inj h
      exact ⟨hmatch, fun hne => absurd hconnect hne⟩
    · exact absurd h (unmatched_ne_handler _ _ _ _)
  · dsimp only at h
    split at h
    · cases h
    split at h
    · cases h
    rename_i hclean
    have hclean := not_not.mp hclean
    split at h
    · rename_i hmatch
      obtain ⟨rfl, rfl⟩ := Found.handler.inj h
      exact ⟨hclean ▸ hmatch, fun _ => hclean⟩
    · exact absurd h (unmatched_ne_handler _ _ _ _)

theorem matchPath_literal {n : Node H} {seg : Seg} {segs values : List Seg}
    {found : Route H × List Seg} (h : matchPath (findChild n seg) segs values = some found) :
    matchPath n (seg :: segs) values = some found := by
  rw [matchPath, h]

theorem matchPath_wildcard {n : Node H} {seg : Seg} {segs values : List Seg}
    {found : Route H × List Seg} (hliteral : matchPath (findChild n seg) segs values = none)
    (hseg : seg ≠ ['/']) (h : matchPath (emptyChild n) segs (values ++ [seg]) = some found) :
    matchPath n (seg :: segs) values = some found := by
  rw [matchPath, hliteral]
  simp only [if_pos hseg, h]

/-- A clean path is answered by the handler of the pattern it matches, if this is not one for
any rest. -/
theorem findHandler_of_match {routes : List (Route H)} {method : String} {u : URL} {r : Route H}
    {values : List Seg} (hconnect : method ≠ "CONNECT")
    (hclean : cleanPath u.escapedPath = u.escapedPath)
    (h : matchMethodAndPath routes method u.escapedPath = some (r, values))
    (hrest : r.pattern.segments.getLast? ≠ some .rest) :
    findHandler routes method u = .handler r values := by
  have hexact : exactMatch (some (r, values)) u.escapedPath = true := if_pos hrest
  have hredirect : slashRedirect routes method u.escapedPath u = none := by
    rw [slashRedirect, h, if_neg]
    exact fun hslash => Bool.false_ne_true (hslash.1.symm.trans hexact)
  rw [findHandler, if_neg hconnect]
  simp only [hclean, hredirect, h, ne_eq, not_true_eq_false, if_false]

end Match

/-! ## Encoded paths -/

theorem percent_not_kept : keepInPath '%' = false := by decide

/-- The encoded path stands for the path, however the target was written. -/
theorem unescape_escapedPath {u : URL} (h : Bytes u.path) :
    unescape u.escapedPath = some u.path := by
  rw [URL.escapedPath]
  split
  · rename_i hraw
    exact hraw.2.2
  split
  · rename_i hstar
    rw [hstar]
    rfl
  · exact unescape_escape percent_not_kept h

theorem bytes_setPath {p : List Char} (hp : Bytes p) {u : URL} (h : setPath p = some u) :
    Bytes u.path := by
  obtain ⟨path, hpath, rfl⟩ := Option.map_eq_some_iff.mp h
  exact bytes_unescape hp hpath

/-- A path from the root that is validly written is its own encoded path. -/
theorem escapedPath_of_valid {w : List Char} (hvalid : validEncoded ('/' :: w) = true) {u : URL}
    (h : setPath ('/' :: w) = some u) : u.escapedPath = '/' :: w := by
  obtain ⟨path, hpath, rfl⟩ := Option.map_eq_some_iff.mp h
  have hroot : path ≠ ['*'] := by
    rintro rfl
    rw [unescape_cons (by decide)] at hpath
    obtain ⟨v, -, hv⟩ := Option.map_eq_some_iff.mp hpath
    exact absurd (List.cons.inj hv).1 (by decide)
  rw [URL.escapedPath]
  by_cases hdefault : '/' :: w = escape keepInPath path
  · simp only [if_pos hdefault]
    rw [if_neg (fun hraw => hraw.1 rfl), if_neg hroot]
    exact hdefault.symm
  · simp only [if_neg hdefault]
    rw [if_pos ⟨List.cons_ne_nil _ _, hvalid, hpath⟩]

theorem splitOn_cons_cons {p a b : List Char} {parts : List (List Char)}
    (h : p.splitOn '/' = a :: b :: parts) : ∃ q, p = a ++ '/' :: q := by
  refine ⟨List.intercalate ['/'] (b :: parts), ?_⟩
  have hp : List.intercalate ['/'] (p.splitOn '/') = p := List.intercalate_splitOn '/'
  rw [← hp, h, List.intercalate_cons_cons]
  simp

/-- A clean path starts at the root. -/
theorem exists_root {p : List Char} (h : cleanPath p = p) : ∃ w, p = '/' :: w := by
  rw [← h, cleanPath, List.cons_append]
  exact ⟨_, rfl⟩

/-- An encoded path that starts with a segment that stands for a name, and has more segments,
stands for a path below that name. -/
theorem path_of_segments {w path : List Char} {name next : Seg} {segs : List Seg}
    (h : segments ('/' :: w) = name :: next :: segs) (hpath : unescape ('/' :: w) = some path) :
    ∃ q, path = '/' :: name ++ '/' :: q := by
  rw [segments] at h
  obtain ⟨a, b, parts, hsplit, ha⟩ : ∃ a b parts, w.splitOn '/' = a :: b :: parts ∧
      pathUnescape a = name := by
    match hparts : w.splitOn '/' with
    | [] =>
      rw [hparts] at h
      cases h
    | [a] =>
      rw [hparts] at h
      cases h
    | a :: b :: parts =>
      rw [hparts] at h
      exact ⟨a, b, parts, rfl, (List.cons.inj h).1⟩
  obtain ⟨q, rfl⟩ := splitOn_cons_cons hsplit
  rw [unescape_cons (by decide), unescape_append_cons (by decide) (by decide)] at hpath
  obtain ⟨v, hv, rfl⟩ := Option.map_eq_some_iff.mp hpath
  obtain ⟨x, hx, hv⟩ := Option.bind_eq_some_iff.mp hv
  obtain ⟨y, -, rfl⟩ := Option.map_eq_some_iff.mp hv
  rw [pathUnescape, hx, Option.getD_some] at ha
  exact ⟨y, by rw [ha]; rfl⟩

/-! ## Paths made of segments -/

/-- The path of some segments. -/
def joined (segs : List Seg) : List Char := '/' :: List.intercalate ['/'] segs

theorem splitOn_joined {segs : List Seg} (hne : segs ≠ []) (h : ∀ seg ∈ segs, Proper seg) :
    (List.intercalate ['/'] segs).splitOn '/' = segs :=
  List.splitOn_intercalate '/' (fun seg hseg => (h seg hseg).slash) hne

theorem foldl_push_proper (path : List Seg) {segs : List Seg} (h : ∀ seg ∈ segs, Proper seg) :
    segs.foldl SlashPath.push path = path ++ segs := by
  induction segs generalizing path with
  | nil => rw [List.foldl_nil, List.append_nil]
  | cons seg segs ih =>
    rw [List.foldl_cons, push_proper path (h seg List.mem_cons_self),
      ih _ fun s hs => h s (List.mem_cons_of_mem seg hs), List.append_assoc]
    rfl

theorem not_endsInSlash_joined {segs : List Seg} (hne : segs ≠ []) (h : ∀ seg ∈ segs, Proper seg) :
    endsInSlash (joined segs) = false := by
  have hsplit := splitOn_joined hne h
  obtain ⟨w, hw⟩ : ∃ w, w = List.intercalate ['/'] segs := ⟨_, rfl⟩
  rw [← hw] at hsplit
  rw [joined, ← hw]
  have hwne : w ≠ [] := by
    rintro rfl
    have hnil : [] ∈ segs := by
      rw [← hsplit]
      exact List.mem_singleton.mpr rfl
    exact (h [] hnil).ne_nil rfl
  obtain ⟨v, c, rfl⟩ := (List.eq_nil_or_concat w).resolve_left hwne
  rw [List.concat_eq_append] at hsplit ⊢
  rw [endsInSlash, ← List.cons_append, List.getLast?_concat]
  refine decide_eq_false fun hc => ?_
  obtain rfl := Option.some.inj hc
  -- a slash at the end makes an empty segment
  have hlast : ((v ++ ['/']).splitOn '/').getLast? = some [] :=
    getLast_splitOn_append v List.not_mem_nil
  rw [hsplit] at hlast
  exact (h [] (List.mem_of_getLast? hlast)).ne_nil rfl

/-- A path made of names is clean. -/
theorem cleanPath_joined {segs : List Seg} (hne : segs ≠ []) (h : ∀ seg ∈ segs, Proper seg) :
    cleanPath (joined segs) = joined segs := by
  have hclean : clean (joined segs) = segs := by
    rw [joined, clean_cons_slash, clean, splitOn_joined hne h, foldl_push_proper [] h,
      List.nil_append]
  rw [cleanPath, hclean, if_neg, List.append_nil, joined]
  rw [not_endsInSlash_joined hne h]
  exact fun hend => Bool.false_ne_true hend.1

/-- Patterns see the segments that a path is made of, without their escapes. -/
theorem segments_joined {segs : List Seg} (hne : segs ≠ []) (h : ∀ seg ∈ segs, Proper seg) :
    segments (joined segs) = segs.map pathUnescape := by
  rw [joined, segments, splitOn_joined hne h]
  clear hne
  induction segs with
  | nil => rfl
  | cons seg segs ih =>
    cases segs with
    | nil =>
      rw [seen, if_neg (h seg List.mem_cons_self).ne_nil]
      rfl
    | cons next segs =>
      rw [seen, ih fun s hs => h s (List.mem_cons_of_mem seg hs)]
      · rfl
      · exact List.cons_ne_nil _ _

/-- The path of some segments stands for the path of what they stand for. -/
theorem unescape_joined {segs : List Seg} (h : ∀ seg ∈ segs, unescape seg ≠ none) :
    unescape (joined segs) = some (joined (segs.map pathUnescape)) := by
  rw [joined, unescape_cons (by decide)]
  have hjoin : unescape (List.intercalate ['/'] segs) =
      some (List.intercalate ['/'] (segs.map pathUnescape)) := by
    induction segs with
    | nil => rfl
    | cons seg segs ih =>
      obtain ⟨v, hv⟩ := Option.ne_none_iff_exists'.mp (h seg List.mem_cons_self)
      have hseg : pathUnescape seg = v := by rw [pathUnescape, hv, Option.getD_some]
      cases segs with
      | nil => simp [hv, hseg]
      | cons next segs =>
        have ih := ih fun s hs => h s (List.mem_cons_of_mem seg hs)
        rw [List.map_cons] at ih
        rw [List.map_cons, List.map_cons, List.intercalate_cons_cons, List.intercalate_cons_cons,
          List.append_assoc, List.singleton_append,
          unescape_append_cons (by decide) (by decide), hv, ih, hseg]
        simp
  rw [hjoin]
  rfl

end Broom.Core.ServeMux
