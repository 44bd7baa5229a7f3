import Mathlib.Data.List.Infix
import Broom.Core.SlashPath

/-!
# The single-page application

The handler of the embedded pages, and the file server it hands some requests to. The
handler looks at the cleaned path: the root, the index document and what cannot be opened
get the document with its policy. What can be opened goes to the file server, which looks
at the path as it was requested: it redirects to a canonical path, serves a file, and lists
a directory or serves the directory's own index. A directory can be opened too, so the
document is not what a directory gets.

Requests carry no conditions and no ranges. A path is given without its query, and a
redirect with its target before it is escaped.
-/

namespace Broom.Api.Spa

open Broom.Core Broom.Core.SlashPath

/-- What a directory holds under a name. -/
inductive Entry
  | file (content : List UInt8)
  | dir (entries : List (Seg × Entry))

/-- The entry that some segments lead to. -/
def Entry.find : Entry → List Seg → Option Entry
  | e, [] => some e
  | .file _, _ :: _ => none
  | .dir entries, seg :: path =>
    match entries.lookup seg with
    | none => none
    | some e => e.find path

/-- The embedded files: the entries of their root directory. -/
abbrev Tree := List (Seg × Entry)

/-- Open a cleaned path; directories can be opened like files. -/
def Tree.open (sub : Tree) (path : List Seg) : Option Entry := (Entry.dir sub).find path

/-- The body of a response. -/
inductive Body
  | content (bytes : List UInt8)
  | listing (names : List Seg)
  | text (message : String)
  | empty

/-- What is sent for a request: the status, the headers this package is about, and the body. -/
structure Response where
  status : Nat
  location : Option (List Char) := none
  isHTML : Bool := false
  contentSecurityPolicy : Option String := none
  cacheControl : Option String := none
  body : Body

/-- What the standard library adds: the type of a file by its name and content, the script
elements of a document with their attributes, and the digest of a script in base 64. -/
structure Library where
  isHTML : Seg → List UInt8 → Bool
  scriptTags : List UInt8 → List (String × List UInt8)
  sha256 : List UInt8 → String

/-- The index page of a directory. -/
def indexName : Seg := "index.html".toList

section handler

variable (lib : Library)

/-! ## The policy -/

/-- The sources of scripts: the server itself and every inline script by its digest. -/
def scriptSrc (index : List UInt8) : List String :=
  "'self'" :: ((lib.scriptTags index).filter fun m =>
    ¬ ("src=".toList <:+: m.1.toLower.toList ∨ m.2.length = 0)).map fun m =>
      "'sha256-" ++ lib.sha256 m.2 ++ "'"

/-- The policy for the document. -/
def ContentSecurityPolicy (index : List UInt8) : String :=
  "; ".intercalate [
    "default-src 'self'",
    "script-src " ++ " ".intercalate (scriptSrc lib index),
    "style-src 'self' 'unsafe-inline'",
    "img-src 'self' data: blob:",
    "font-src 'self' data:",
    "connect-src 'self'",
    "worker-src 'self' blob:",
    "object-src 'none'",
    "base-uri 'self'",
    "form-action 'self'",
    "frame-ancestors 'none'"]

/-! ## The file server -/

/-- An error of the file server takes the caching header back. -/
def serveError (message : String) (code : Nat) : Response where
  status := code
  body := .text message

/-- A redirect relative to the path of the request. -/
def localRedirect (cacheControl : Option String) (newPath : List Char) : Response where
  status := 301
  location := some newPath
  cacheControl := cacheControl
  body := .empty

/-- The content of a file, or the names of a directory without an index page. -/
def serveContent (cacheControl : Option String) (name : Seg) : Entry → Response
  | .file content =>
    { status := 200, isHTML := lib.isHTML name content, cacheControl := cacheControl,
      body := .content content }
  | .dir entries =>
    { status := 200, isHTML := true, cacheControl := cacheControl,
      body := .listing (entries.map Prod.fst) }

/-- The file server's answer to a path that begins with a slash. -/
def serveFile (root : Tree) (cacheControl : Option String) (url : List Char) : Response :=
  let name := clean url
  if "/index.html".toList <:+ url then localRedirect cacheControl "./".toList
  else match root.open name with
    | none => serveError "404 page not found" 404
    | some (.dir entries) =>
      if endsInSlash url = false then localRedirect cacheControl (base url ++ "/".toList)
      else match entries.lookup indexName with
        | some index => serveContent lib cacheControl indexName index
        | none => serveContent lib cacheControl ((name.getLast?).getD []) (.dir entries)
    | some (.file content) =>
      if endsInSlash url then
        if base url = "/".toList ∨ base url = ".".toList then
          serveError "http: attempting to traverse a non-directory" 500
        else localRedirect cacheControl ("../".toList ++ base url)
      else serveContent lib cacheControl ((name.getLast?).getD []) (.file content)

/-- The path with a slash in front. -/
def rooted (urlPath : List Char) : List Char :=
  if "/".toList <+: urlPath then urlPath else '/' :: urlPath

/-- The file server: every path is taken from the root. -/
def fileServer (root : Tree) (cacheControl : Option String) (urlPath : List Char) : Response :=
  serveFile lib root cacheControl (rooted urlPath)

/-! ## The handler -/

/-- The index document, if it is embedded. -/
def readIndex (sub : Tree) : Option (List UInt8) :=
  match sub.open [indexName] with
  | some (.file content) => some content
  | _ => none

/-- The page that explains that nothing is embedded. -/
def notEmbedded : String :=
  "<!doctype html><title>AWS Broom</title><p>Frontend build not embedded. Run <code>make web" ++
    "</code> or use <code>pnpm dev</code> in <code>web/</code>.</p>"

/-- The document with its policy. -/
def document (sub : Tree) : Response :=
  let csp := some (ContentSecurityPolicy lib ((readIndex sub).getD []))
  match readIndex sub with
  | none =>
    { status := 200, isHTML := true, contentSecurityPolicy := csp, body := .text notEmbedded }
  | some index =>
    { status := 200, isHTML := true, contentSecurityPolicy := csp,
      cacheControl := some "no-cache", body := .content index }

/-- The caching of a file; a path below `assets` has a digest in its name. -/
def assetCaching (path : List Seg) : Option String :=
  if "assets/".toList <+: ['/'].intercalate path then some "public, max-age=31536000, immutable"
  else none

/-- The handler, for a method and a path. -/
def handle (sub : Tree) (method : String) (urlPath : List Char) : Response :=
  if method ≠ "GET" ∧ method ≠ "HEAD" then
    { status := 405, body := .text "method not allowed" }
  else
    let p := clean ('/' :: urlPath)
    let p := if p = [] then [indexName] else p
    if p ≠ [indexName] ∧ (sub.open p).isSome then
      fileServer lib sub (assetCaching p) urlPath
    else document lib sub

/-! ## What is served -/

/-- The path names a regular file other than an index page. -/
def NamesFile (sub : Tree) (path : List Seg) (content : List UInt8) : Prop :=
  sub.open path = some (.file content) ∧ path.getLast? ≠ some indexName

/-- A redirect to the same cleaned path, without a slash at its end. -/
def Canonical (url location : List Char) : Prop :=
  clean (resolve url location) = clean url ∧ endsInSlash (resolve url location) = false

/-- A file or a redirect to it for the path of a file, the document for any other path, and
neither a listing nor a page without a policy. -/
structure FilesOrDocument (sub : Tree) (urlPath : List Char) (r : Response) : Prop where
  file : ∀ content, NamesFile sub (clean urlPath) content →
    (r.status = 200 ∧ r.body = .content content) ∨
      ∃ location, r.status = 301 ∧ r.location = some location ∧
        Canonical (rooted urlPath) location
  document : (¬ ∃ content, NamesFile sub (clean urlPath) content) → r = document lib sub
  noListing : ∀ names, r.body ≠ .listing names
  policy : r.isHTML = true → r.contentSecurityPolicy.isSome

/-- Below the root the path leads to no directory and to no index page; a file is requested
without a slash at the end, and is then no page, or with the slash behind its name. -/
def Undisturbed (sub : Tree) (urlPath : List Char) : Prop :=
  clean urlPath = [] ∨ clean urlPath = [indexName] ∨
    match sub.open (clean urlPath) with
    | none => True
    | some (.dir _) => False
    | some (.file content) => (clean urlPath).getLast? ≠ some indexName ∧
        if endsInSlash (rooted urlPath) then
          base (rooted urlPath) ≠ ".".toList ∧ base (rooted urlPath) ≠ "..".toList
        else lib.isHTML ((clean urlPath).getLast?.getD []) content = false

variable {lib}

theorem clean_rooted (urlPath : List Char) : clean (rooted urlPath) = clean urlPath := by
  unfold rooted
  split
  · rfl
  · exact clean_cons_slash urlPath

/-- A requested index page is an index page after cleaning. -/
theorem getLast_of_indexPage {url : List Char} (h : "/index.html".toList <:+ url) :
    (clean url).getLast? = some indexName := by
  obtain ⟨front, rfl⟩ := h
  have hproper : Proper indexName := ⟨by decide, by decide, by decide, by decide⟩
  have hslash : front ++ "/index.html".toList = front ++ '/' :: indexName := rfl
  rw [hslash, clean_append_seg front hproper.slash, push_proper _ hproper,
    List.getLast?_concat]

/-- The file server knows no policy. -/
theorem fileServer_policy (root : Tree) (cacheControl : Option String) (urlPath : List Char) :
    (fileServer lib root cacheControl urlPath).contentSecurityPolicy = none := by
  have hcontent : ∀ name e,
      (serveContent lib cacheControl name e).contentSecurityPolicy = none := by
    intro name e
    cases e <;> rfl
  unfold fileServer serveFile
  dsimp only
  split
  · rfl
  · split
    · rfl
    · split
      · rfl
      · split <;> exact hcontent _ _
    · split
      · split <;> rfl
      · exact hcontent _ _

/-- What the file server sends for the path of a file. -/
theorem serveFile_file {root : Tree} {cacheControl : Option String} {url : List Char}
    {content : List UInt8} (h : NamesFile root (clean url) content) :
    serveFile lib root cacheControl url =
      if endsInSlash url then
        if base url = "/".toList ∨ base url = ".".toList then
          serveError "http: attempting to traverse a non-directory" 500
        else localRedirect cacheControl ("../".toList ++ base url)
      else serveContent lib cacheControl ((clean url).getLast?.getD []) (.file content) := by
  have hindex : ¬ "/index.html".toList <:+ url := fun hsuffix => h.2 (getLast_of_indexPage hsuffix)
  simp only [serveFile, if_neg hindex, h.1]

/-- The document has a policy. -/
theorem document_policy (sub : Tree) : (document lib sub).contentSecurityPolicy.isSome := by
  unfold document
  dsimp only
  split <;> rfl

/-- The document is no listing. -/
theorem document_body (sub : Tree) (names : List Seg) :
    (document lib sub).body ≠ .listing names := by
  unfold document
  dsimp only
  split <;> exact fun h => by cases h

/-- A path behind which nothing else can be opened gets the document. -/
theorem handle_document {sub : Tree} {method : String} {urlPath : List Char}
    (hm : method = "GET" ∨ method = "HEAD")
    (h : clean urlPath = [] ∨ clean urlPath = [indexName] ∨ sub.open (clean urlPath) = none) :
    handle lib sub method urlPath = document lib sub := by
  have hmethod : ¬ (method ≠ "GET" ∧ method ≠ "HEAD") := by
    rcases hm with rfl | rfl <;> decide
  simp only [handle, if_neg hmethod, clean_cons_slash]
  rcases h with h | h | h
  · rw [if_pos h, if_neg fun h => h.1 rfl]
  · rw [h, if_neg (List.cons_ne_nil _ _), if_neg fun h => h.1 rfl]
  · by_cases hroot : clean urlPath = []
    · rw [if_pos hroot, if_neg fun h => h.1 rfl]
    · rw [if_neg hroot, if_neg fun hopen => by simp [h] at hopen]

/-- What can be opened below the root goes to the file server. -/
theorem handle_opened {sub : Tree} {method : String} {urlPath : List Char} {e : Entry}
    (hm : method = "GET" ∨ method = "HEAD") (hroot : clean urlPath ≠ [])
    (hindex : clean urlPath ≠ [indexName]) (h : sub.open (clean urlPath) = some e) :
    handle lib sub method urlPath =
      fileServer lib sub (assetCaching (clean urlPath)) urlPath := by
  have hmethod : ¬ (method ≠ "GET" ∧ method ≠ "HEAD") := by
    rcases hm with rfl | rfl <;> decide
  simp only [handle, if_neg hmethod, clean_cons_slash, if_neg hroot]
  rw [if_pos ⟨hindex, by rw [h]; rfl⟩]

/-- A redirect of a file's path is canonical unless the path ends in dots. -/
theorem canonical_base_iff {url : List Char} (hroot : "/".toList <+: url) (hurl : endsInSlash url)
    (h : clean url ≠ []) (hdot : base url ≠ ".".toList) :
    Canonical url ("../".toList ++ base url) ↔ base url ≠ "..".toList := by
  obtain ⟨x, -, hne, hslash⟩ := exists_base hroot h
  have hresolve := clean_resolve_sibling hurl hslash
  constructor
  · rintro ⟨hclean, -⟩ hdots
    rw [hresolve, hdots, push_dots] at hclean
    -- going back twice leaves fewer segments
    have hlen := congrArg List.length hclean
    have hpos := List.length_pos_of_ne_nil h
    simp only [List.length_dropLast] at hlen
    omega
  · intro hdots
    refine ⟨?_, ?_⟩
    · rw [hresolve, push_proper _ ⟨hne, hdot, hdots, hslash⟩]
      exact (clean_eq_of_proper hroot h hdot hdots).symm
    · -- the last letter is one of the last element
      rw [endsInSlash, decide_eq_false_iff_not, resolve, ← List.append_assoc,
        List.getLast?_append_of_ne_nil _ hne]
      intro hlast
      exact hslash (List.mem_of_getLast? hlast)

/-- The answer to the path of a file, whatever slashes and dots it is requested with. -/
theorem file_answer_iff {sub : Tree} {cacheControl : Option String} {urlPath : List Char}
    {content : List UInt8} (hne : clean urlPath ≠ [])
    (h : NamesFile sub (clean urlPath) content) :
    FilesOrDocument lib sub urlPath (fileServer lib sub cacheControl urlPath) ↔
      if endsInSlash (rooted urlPath) then
        base (rooted urlPath) ≠ ".".toList ∧ base (rooted urlPath) ≠ "..".toList
      else lib.isHTML ((clean urlPath).getLast?.getD []) content = false := by
  have hroot : "/".toList <+: rooted urlPath := by
    unfold rooted
    split
    · assumption
    · exact ⟨urlPath, rfl⟩
  rw [← clean_rooted] at hne
  have hfile : NamesFile sub (clean (rooted urlPath)) content := by
    rw [clean_rooted]
    exact h
  rw [fileServer, serveFile_file hfile]
  by_cases hurl : endsInSlash (rooted urlPath) = true
  · rw [if_pos hurl, if_pos hurl]
    obtain ⟨x, -, -, hslash⟩ := exists_base hroot hne
    have hbase : base (rooted urlPath) ≠ "/".toList := by
      intro hbase
      rw [hbase] at hslash
      exact hslash (List.mem_singleton_self _)
    by_cases hdot : base (rooted urlPath) = ".".toList
    · -- an error is neither the content nor a redirect
      rw [if_pos (.inr hdot)]
      refine iff_of_false (fun hserve => ?_) fun hgood => hgood.1 hdot
      rcases hserve.file content h with ⟨hstatus, -⟩ | ⟨location, hstatus, -⟩ <;>
        exact absurd hstatus (by decide)
    · rw [if_neg (not_or.mpr ⟨hbase, hdot⟩)]
      refine Iff.trans ?_ ((canonical_base_iff hroot hurl hne hdot).trans (and_iff_right hdot).symm)
      constructor
      · intro hserve
        rcases hserve.file content h with ⟨hstatus, -⟩ | ⟨location, -, hlocation, hcanonical⟩
        · cases hstatus
        · exact (Option.some.inj hlocation) ▸ hcanonical
      · intro hcanonical
        exact ⟨fun _ _ => .inr ⟨_, rfl, rfl, hcanonical⟩, fun hnone => absurd ⟨content, h⟩ hnone,
          fun _ => nofun, nofun⟩
  · rw [if_neg hurl, if_neg hurl, clean_rooted]
    constructor
    · intro hserve
      by_contra hhtml
      have hpolicy := hserve.policy (by simpa [serveContent] using hhtml)
      cases hpolicy
    · intro hhtml
      refine ⟨fun content' h' => .inl ⟨rfl, ?_⟩, fun hnone => absurd ⟨content, h⟩ hnone,
        fun _ => nofun, fun hpage => ?_⟩
      · obtain rfl : content = content' := by
          have heq := h.1.symm.trans h'.1
          cases heq
          rfl
        rfl
      · rw [serveContent, hhtml] at hpage
        cases hpage

/-- The handler serves files or the document, and nothing else, exactly for the undisturbed
paths. -/
theorem handle_filesOrDocument_iff (lib : Library) (sub : Tree) {method : String}
    (hm : method = "GET" ∨ method = "HEAD") (urlPath : List Char) :
    FilesOrDocument lib sub urlPath (handle lib sub method urlPath) ↔
      Undisturbed lib sub urlPath := by
  have hdocument : (∀ content, ¬ NamesFile sub (clean urlPath) content) →
      FilesOrDocument lib sub urlPath (document lib sub) := fun hnone =>
    ⟨fun content h => absurd h (hnone content), fun _ => rfl, document_body sub,
      fun _ => document_policy sub⟩
  have hother : (∀ content, ¬ NamesFile sub (clean urlPath) content) → ∀ cacheControl,
      ¬ FilesOrDocument lib sub urlPath (fileServer lib sub cacheControl urlPath) := by
    intro hnone cacheControl h
    have hpolicy : (document lib sub).contentSecurityPolicy.isSome := document_policy sub
    rw [← h.document fun ⟨content, hc⟩ => hnone content hc, fileServer_policy] at hpolicy
    cases hpolicy
  unfold Undisturbed
  by_cases hroot : clean urlPath = []
  · have hnone : ∀ content, ¬ NamesFile sub (clean urlPath) content := by
      intro content h
      rw [hroot] at h
      cases h.1
    rw [handle_document hm (.inl hroot)]
    exact iff_of_true (hdocument hnone) (.inl hroot)
  by_cases hindex : clean urlPath = [indexName]
  · have hnone : ∀ content, ¬ NamesFile sub (clean urlPath) content := by
      intro content h
      rw [hindex] at h
      exact h.2 rfl
    rw [handle_document hm (.inr (.inl hindex))]
    exact iff_of_true (hdocument hnone) (.inr (.inl hindex))
  rw [or_iff_right hroot, or_iff_right hindex]
  cases hopen : sub.open (clean urlPath) with
  | none =>
    have hnone : ∀ content, ¬ NamesFile sub (clean urlPath) content := by
      intro content h
      cases hopen.symm.trans h.1
    rw [handle_document hm (.inr (.inr hopen))]
    exact iff_of_true (hdocument hnone) trivial
  | some e =>
    rw [handle_opened hm hroot hindex hopen]
    cases e with
    | dir entries =>
      refine iff_of_false (hother (fun content h => ?_) _) id
      cases hopen.symm.trans h.1
    | file content =>
      by_cases hname : (clean urlPath).getLast? = some indexName
      · exact iff_of_false (hother (fun _ h => h.2 hname) _) fun h => h.1 hname
      · rw [file_answer_iff hroot ⟨hopen, hname⟩]
        exact (and_iff_right hname).symm

end handler

/-- A build with one script. -/
private def smallBuild : Tree :=
  [(indexName, .file [60]), ("assets".toList, .dir [("app.js".toList, .file [59])])]

/-- Pages are told by their names. -/
private def byName : Library where
  isHTML name _ := ".html".toList.isSuffixOf name
  scriptTags _ := []
  sha256 _ := ""

/-- The script's path with a slash behind it is redirected, the directory's path is not
answered with the document. -/
theorem handle_filesOrDocument_smallBuild :
    FilesOrDocument byName smallBuild "/assets/./app.js/".toList
        (handle byName smallBuild "GET" "/assets/./app.js/".toList) ∧
      ¬ FilesOrDocument byName smallBuild "/assets".toList
        (handle byName smallBuild "HEAD" "/assets".toList) := by
  constructor
  · refine (handle_filesOrDocument_iff byName smallBuild (.inl rfl) _).mpr (.inr (.inr ?_))
    exact ⟨by decide, by decide, by decide⟩
  · intro h
    have hpath := (handle_filesOrDocument_iff byName smallBuild (.inr rfl) _).mp h
    rcases hpath with hpath | hpath | hpath
    · exact absurd hpath (by decide)
    · exact absurd hpath (by decide)
    · exact hpath

/-- The directory of the scripts is listed. -/
theorem handle_lists_directory :
    (handle byName smallBuild "GET" "/assets/".toList).body = .listing ["app.js".toList] ∧
      ¬ FilesOrDocument byName smallBuild "/assets/".toList
        (handle byName smallBuild "GET" "/assets/".toList) := by
  have hlisting : (handle byName smallBuild "GET" "/assets/".toList).body =
    .listing ["app.js".toList] := rfl
  exact ⟨hlisting, fun h => h.noListing _ hlisting⟩

end Broom.Api.Spa
