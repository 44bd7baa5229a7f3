import Broom.Api.Gate

/-!
# From the pages to the handlers

The calls that the pages make, as the browser sends them, and the handlers that they
arrive at. A job's id is put into the path with its own slashes, dots and other letters
escaped; the browser takes dot segments out before it sends the path.
-/

namespace Broom.Web

open Broom.Core Broom.Core.Percent Broom.Core.ServeMux Broom.Core.SlashPath Broom.Api

/-! ## Paths in the browser -/

/-- The letters that stay as they are in a component. -/
def unescaped (c : Char) : Bool := c.isAlphanum || c ∈ "-_.!~*'()".toList

def encodeURIComponent (s : String) : List Char := escape unescaped (octets s.toList)

/-- A segment that stands for the same place. -/
def singleDot (seg : Seg) : Bool := seg ∈ [".".toList, "%2e".toList, "%2E".toList]

/-- A segment that stands for the place above. -/
def doubleDot (seg : Seg) : Bool :=
  seg ∈ ["..".toList, ".%2e".toList, ".%2E".toList, "%2e.".toList, "%2E.".toList,
    "%2e%2e".toList, "%2e%2E".toList, "%2E%2e".toList, "%2E%2E".toList]

/-- One segment further; two dots shorten the path. -/
def walk (path : List Seg) (seg : Seg) : List Seg :=
  if doubleDot seg then path.dropLast else if singleDot seg then path else path ++ [seg]

/-- The segments that are left of a path's; dots at the end leave an empty one. -/
def pathState (segs : List Seg) : List Seg :=
  segs.foldl walk [] ++
    if segs.getLast?.any (fun seg => doubleDot seg || singleDot seg) then [[]] else []

/-- The path that is sent for a URL from the root. Letters that a path may not have are not
treated. -/
def pathname (url : List Char) : List Char :=
  joined (pathState ((url.takeWhile (· ≠ '?')).tail.splitOn '/'))

/-! ## Calls -/

/-- The calls of the API's client. -/
inductive ApiCall
  | catalog
  | createSession
  | getSession
  | deleteSession
  | regions
  | createScan
  | createNuke
  | jobs
  | job (id : String)
  | cancelJob (id : String)
  | events (id : String) (after : Nat)
  deriving DecidableEq, Repr

namespace ApiCall

def url : ApiCall → List Char
  | catalog => "/api/catalog".toList
  | createSession => "/api/sessions".toList
  | getSession | deleteSession => "/api/session".toList
  | regions => "/api/session/regions".toList
  | createScan => "/api/scans".toList
  | createNuke => "/api/nukes".toList
  | jobs => "/api/jobs".toList
  | job id | cancelJob id => "/api/jobs/".toList ++ encodeURIComponent id
  | events id after =>
    "/api/jobs/".toList ++ encodeURIComponent id ++ "/events?after=".toList ++
      (toString after).toList

def method : ApiCall → String
  | createSession | createScan | createNuke => "POST"
  | deleteSession | cancelJob _ => "DELETE"
  | catalog | getSession | regions | jobs | job _ | events _ _ => "GET"

/-- The headers that are set; an event source sets none. -/
def header : ApiCall → String → String
  | events _ _, _ => ""
  | _, name => if name = "X-Broom-Client" then "web" else ""

/-- The handler that a call is meant for. -/
def endpoint : ApiCall → Endpoint
  | catalog => .catalog
  | createSession => .createSession
  | getSession => .getSession
  | deleteSession => .deleteSession
  | regions => .regions
  | createScan => .createScan
  | createNuke => .createNuke
  | jobs => .listJobs
  | job _ => .getJob
  | cancelJob _ => .cancelJob
  | events _ _ => .jobEvents

end ApiCall

/-! ## Bytes -/

theorem mem_walk {path : List Seg} {next seg : Seg} (h : seg ∈ walk path next) :
    seg ∈ path ∨ seg = next := by
  rw [walk] at h
  split at h
  · exact Or.inl (List.mem_of_mem_dropLast h)
  split at h
  · exact Or.inl h
  · exact (List.mem_append.mp h).imp_right List.mem_singleton.mp

theorem mem_foldl_walk {path segs : List Seg} {seg : Seg} (h : seg ∈ segs.foldl walk path) :
    seg ∈ path ∨ seg ∈ segs := by
  induction segs generalizing path with
  | nil => exact Or.inl h
  | cons next segs ih =>
    rcases ih h with h | h
    · refine (mem_walk h).imp_right ?_
      rintro rfl
      exact List.mem_cons_self
    · exact Or.inr (List.mem_cons_of_mem next h)

theorem mem_pathState {segs : List Seg} {seg : Seg} (h : seg ∈ pathState segs) :
    seg ∈ segs ∨ seg = [] := by
  rcases List.mem_append.mp h with h | h
  · exact Or.inl ((mem_foldl_walk h).resolve_left List.not_mem_nil)
  · split at h
    · exact Or.inr (List.mem_singleton.mp h)
    · exact absurd h List.not_mem_nil

theorem mem_intercalate {segs : List Seg} {c : Char} (h : c ∈ List.intercalate ['/'] segs) :
    c = '/' ∨ ∃ seg ∈ segs, c ∈ seg := by
  induction segs with
  | nil => exact absurd h List.not_mem_nil
  | cons seg segs ih =>
    cases segs with
    | nil =>
      rw [List.intercalate_singleton] at h
      exact Or.inr ⟨seg, List.mem_singleton.mpr rfl, h⟩
    | cons next segs =>
      rw [List.intercalate_cons_cons, List.append_assoc] at h
      rcases List.mem_append.mp h with h | h
      · exact Or.inr ⟨seg, List.mem_cons_self, h⟩
      rcases List.mem_append.mp h with h | h
      · exact Or.inl (List.mem_singleton.mp h)
      rcases ih h with h | ⟨s, hs, hc⟩
      · exact Or.inl h
      · exact Or.inr ⟨s, List.mem_cons_of_mem seg hs, hc⟩

/-! ## Components -/

/-- What a component is made of. -/
theorem mem_encodeURIComponent {id : String} {c : Char} (h : c ∈ encodeURIComponent id) :
    c.isAlphanum = true ∨ c ∈ "-_.!~*'()%".toList := by
  rcases mem_escape (bytes_octets _) h with ⟨-, hkeep⟩ | rfl | halnum
  · rcases Bool.or_eq_true_iff.mp hkeep with halnum | hmark
    · exact Or.inl halnum
    · have hsub : ("-_.!~*'()".toList.all fun c => c ∈ "-_.!~*'()%".toList) = true := by decide
      exact Or.inr (of_decide_eq_true (List.all_eq_true.mp hsub c (of_decide_eq_true hmark)))
  · exact Or.inr (by decide)
  · exact Or.inl halnum

theorem not_mem_encodeURIComponent {c : Char} (halnum : c.isAlphanum = false)
    (hmark : c ∉ "-_.!~*'()%".toList) (id : String) : c ∉ encodeURIComponent id := by
  intro h
  rcases mem_encodeURIComponent h with hc | hc
  · exact Bool.false_ne_true (halnum.symm.trans hc)
  · exact hmark hc

/-- A component stands for its text. -/
theorem unescape_encodeURIComponent (id : String) :
    unescape (encodeURIComponent id) = some (octets id.toList) :=
  have hpercent : unescaped '%' = false := by decide
  unescape_escape hpercent (bytes_octets _)

/-- An id that a path can name. -/
def Nameable (id : String) : Prop := id ∉ ["", ".", "..", "/"]

instance (id : String) : Decidable (Nameable id) := inferInstanceAs (Decidable (_ ∉ _))

theorem eq_of_octets {id : String} {s : String} (h : octets id.toList = octets s.toList) :
    id = s := String.toList_injective (octets_injective h)

/-- Only dots stand for dots. -/
theorem eq_of_encodeURIComponent {id s : String} {seg : Seg} (h : encodeURIComponent id = seg)
    (hseg : unescape seg = some (octets s.toList)) : id = s := by
  have hid := unescape_encodeURIComponent id
  rw [h, hseg] at hid
  exact eq_of_octets (Option.some.inj hid).symm

theorem not_dots_of_nameable {id : String} (h : Nameable id) :
    doubleDot (encodeURIComponent id) = false ∧ singleDot (encodeURIComponent id) = false := by
  constructor
  · refine decide_eq_false fun hdots => h ?_
    have htable : ∀ seg ∈ ["..".toList, ".%2e".toList, ".%2E".toList, "%2e.".toList,
        "%2E.".toList, "%2e%2e".toList, "%2e%2E".toList, "%2E%2e".toList, "%2E%2E".toList],
        unescape seg = some (octets "..".toList) := by decide +kernel
    rw [eq_of_encodeURIComponent rfl (htable _ hdots)]
    decide
  · refine decide_eq_false fun hdot => h ?_
    have htable : ∀ seg ∈ [".".toList, "%2e".toList, "%2E".toList],
        unescape seg = some (octets ".".toList) := by decide +kernel
    rw [eq_of_encodeURIComponent rfl (htable _ hdot)]
    decide

theorem proper_of_nameable {id : String} (h : Nameable id) : Proper (encodeURIComponent id) where
  ne_nil hnil := by
    have hid : id = "" := eq_of_encodeURIComponent hnil rfl
    exact h (by rw [hid]; decide)
  ne_dot hdot := by
    have hid : id = "." := eq_of_encodeURIComponent hdot (by decide +kernel)
    exact h (by rw [hid]; decide)
  ne_dots hdots := by
    have hid : id = ".." := eq_of_encodeURIComponent hdots (by decide +kernel)
    exact h (by rw [hid]; decide)
  slash := not_mem_encodeURIComponent (by decide) (by decide) id

/-! ## Arriving -/

namespace ApiCall

/-- The segments of a call's path. -/
def segs : ApiCall → List Seg
  | catalog => ["api".toList, "catalog".toList]
  | createSession => ["api".toList, "sessions".toList]
  | getSession | deleteSession => ["api".toList, "session".toList]
  | regions => ["api".toList, "session".toList, "regions".toList]
  | createScan => ["api".toList, "scans".toList]
  | createNuke => ["api".toList, "nukes".toList]
  | jobs => ["api".toList, "jobs".toList]
  | job id | cancelJob id => ["api".toList, "jobs".toList, encodeURIComponent id]
  | events id _ => ["api".toList, "jobs".toList, encodeURIComponent id, "events".toList]

/-- The job that a call is about. -/
def id? : ApiCall → Option String
  | job id | cancelJob id | events id _ => some id
  | _ => none

theorem segs_ne_nil (call : ApiCall) : call.segs ≠ [] := by
  cases call <;> exact List.cons_ne_nil _ _

theorem takeWhile_query (w : List Char) :
    ("/events?after=".toList ++ w).takeWhile (· ≠ '?') = "/events".toList := by
  have hcut : "/events?after=".toList = "/events".toList ++ '?' :: "after=".toList := by decide
  have hpath : ("/events".toList.all fun c => c ≠ '?') = true := by decide
  rw [hcut, List.append_assoc, List.takeWhile_append_of_pos (List.all_eq_true.mp hpath),
    List.cons_append,
    List.takeWhile_cons_of_neg (by decide), List.append_nil]

/-- What the browser splits is the path of the segments, up to the query. -/
theorem takeWhile_url (call : ApiCall) : call.url.takeWhile (· ≠ '?') = joined call.segs := by
  have hid (id : String) : ∀ c ∈ "/api/jobs/".toList ++ encodeURIComponent id,
      decide (c ≠ '?') = true := by
    intro c hc
    rcases List.mem_append.mp hc with hc | hc
    · have htable : ("/api/jobs/".toList.all fun c => c ≠ '?') = true := by decide
      exact List.all_eq_true.mp htable c hc
    · refine decide_eq_true ?_
      rintro rfl
      exact not_mem_encodeURIComponent (by decide) (by decide) id hc
  have hjob (id : String) :
      ("/api/jobs/".toList ++ encodeURIComponent id).takeWhile (· ≠ '?') =
        joined ["api".toList, "jobs".toList, encodeURIComponent id] := by
    rw [List.takeWhile_eq_self_iff.mpr (hid id)]
    simp [joined, List.intercalate_cons_cons]
  cases call with
  | job id => exact hjob id
  | cancelJob id => exact hjob id
  | events id after =>
    have hurl : (events id after).url = ("/api/jobs/".toList ++ encodeURIComponent id) ++
        ("/events?after=".toList ++ (toString after).toList) := List.append_assoc ..
    have hcut (w : List Char) : (("/api/jobs/".toList ++ encodeURIComponent id) ++ w).takeWhile
        (· ≠ '?') = ("/api/jobs/".toList ++ encodeURIComponent id) ++ w.takeWhile (· ≠ '?') :=
      List.takeWhile_append_of_pos (hid id)
    have hpath : ("/api/jobs/".toList ++ encodeURIComponent id) ++ "/events".toList =
        joined (events id after).segs := by
      simp [joined, segs, List.intercalate_cons_cons]
    exact (congrArg (List.takeWhile (· ≠ '?')) hurl).trans
      ((hcut _).trans ((congrArg _ (takeWhile_query _)).trans hpath))
  | _ => rfl

theorem slash_not_mem_segs (call : ApiCall) : ∀ seg ∈ call.segs, '/' ∉ seg := by
  have hid (id : String) : '/' ∉ encodeURIComponent id :=
    not_mem_encodeURIComponent (by decide) (by decide) id
  have hapi : '/' ∉ "api".toList := by decide
  have hjobs : '/' ∉ "jobs".toList := by decide
  have hevents : '/' ∉ "events".toList := by decide
  cases call with
  | job id => simp only [segs, List.forall_mem_cons, hapi, hjobs, hid]; simp
  | cancelJob id => simp only [segs, List.forall_mem_cons, hapi, hjobs, hid]; simp
  | events id after => simp only [segs, List.forall_mem_cons, hapi, hjobs, hid, hevents]; simp
  | _ => decide

/-- The browser sends what is left of the segments. -/
theorem pathname_url (call : ApiCall) : pathname call.url = joined (pathState call.segs) := by
  have htail : (joined call.segs).tail = List.intercalate ['/'] call.segs := rfl
  rw [pathname, takeWhile_url, htail,
    List.splitOn_intercalate '/' call.slash_not_mem_segs call.segs_ne_nil]

/-- The segments that are names of the API. -/
def names : List Seg :=
  ["api".toList, "catalog".toList, "sessions".toList, "session".toList, "regions".toList,
    "scans".toList, "nukes".toList, "jobs".toList, "events".toList]

/-- A segment is a name, or the id's. -/
theorem mem_names_or {call : ApiCall} {seg : Seg} (hseg : seg ∈ call.segs) :
    seg ∈ names ∨ ∃ id, call.id? = some id ∧ seg = encodeURIComponent id := by
  have hnames : "api".toList ∈ names ∧ "jobs".toList ∈ names ∧ "events".toList ∈ names := by decide
  have hfixed : ∀ call ∈ [catalog, createSession, getSession, deleteSession, regions, createScan,
      createNuke, jobs], ∀ seg ∈ call.segs, seg ∈ names := by decide
  have hjob {id : String} (h : seg ∈ (job id).segs) :
      seg ∈ names ∨ seg = encodeURIComponent id := by
    simp only [segs, List.mem_cons, List.not_mem_nil, or_false] at h
    rcases h with rfl | rfl | rfl
    · exact Or.inl hnames.1
    · exact Or.inl hnames.2.1
    · exact Or.inr rfl
  cases call with
  | job id => exact (hjob hseg).imp_right fun h => ⟨id, rfl, h⟩
  | cancelJob id => exact (hjob hseg).imp_right fun h => ⟨id, rfl, h⟩
  | events id after =>
    rcases List.mem_append.mp (show seg ∈ (job id).segs ++ ["events".toList] from hseg) with h | h
    · exact (hjob h).imp_right fun h => ⟨id, rfl, h⟩
    · exact Or.inl (List.mem_singleton.mp h ▸ hnames.2.2)
  | _ => exact Or.inl (hfixed _ (by decide) seg hseg)

theorem mem_segs {call : ApiCall} {seg : Seg} (hseg : seg ∈ call.segs) {c : Char} (hc : c ∈ seg) :
    c.isAlphanum = true ∨ c ∈ "-_.!~*'()%".toList := by
  have hletters : ∀ seg ∈ names, seg.all Char.isAlphanum = true := by decide
  rcases mem_names_or hseg with hname | ⟨id, -, rfl⟩
  · exact Or.inl (List.all_eq_true.mp (hletters seg hname) c hc)
  · exact mem_encodeURIComponent hc

/-- The letters of the path that is sent. -/
theorem mem_pathname {call : ApiCall} {c : Char} (h : c ∈ pathname call.url) :
    c = '/' ∨ c.isAlphanum = true ∨ c ∈ "-_.!~*'()%".toList := by
  rw [pathname_url, joined] at h
  rcases List.mem_cons.mp h with h | h
  · exact Or.inl h
  rcases mem_intercalate h with h | ⟨seg, hseg, hc⟩
  · exact Or.inl h
  rcases mem_pathState hseg with hseg | rfl
  · exact Or.inr (mem_segs hseg hc)
  · exact absurd hc List.not_mem_nil

theorem bytes_pathname (call : ApiCall) : Bytes (pathname call.url) := by
  intro c hc
  rcases mem_pathname hc with rfl | halnum | hmark
  · decide
  · exact (toNat_lt_of_isAlphanum halnum).trans (by decide)
  · have htable : ("-_.!~*'()%".toList.all fun c => c.toNat < 256) = true := by decide
    exact of_decide_eq_true (List.all_eq_true.mp htable c hmark)

/-- The router need not write the path anew. -/
theorem validEncoded_pathname (call : ApiCall) : validEncoded (pathname call.url) = true := by
  refine List.all_eq_true.mpr fun c hc => ?_
  have hmarks : ("/-_.!~*'()%".toList.all fun c =>
      keepInPath c || c ∈ "!'()*[]%".toList) = true := by decide
  rcases mem_pathname hc with rfl | halnum | hmark
  · decide
  · rw [keepInPath, halnum]
    rfl
  · exact List.all_eq_true.mp hmarks c (List.mem_cons_of_mem '/' hmark)

/-- The request that a call makes. -/
def request (call : ApiCall) (cookie : String) : Request where
  method := call.method
  path := pathname call.url
  bytes := call.bytes_pathname
  header := call.header
  cookie := cookie

/-- The job of a call can be named. -/
def Named (call : ApiCall) : Prop := ∀ id, call.id? = some id → Nameable id

/-- Names, and ids that can be named, are segments that the browser and the router keep. -/
theorem proper_of_named {call : ApiCall} (h : call.Named) {seg : Seg} (hseg : seg ∈ call.segs) :
    Proper seg ∧ doubleDot seg = false ∧ singleDot seg = false := by
  have htable : ∀ seg ∈ names, (seg ≠ [] ∧ seg ≠ ".".toList ∧ seg ≠ "..".toList ∧ '/' ∉ seg) ∧
      doubleDot seg = false ∧ singleDot seg = false := by decide
  rcases mem_names_or hseg with hname | ⟨id, hid, rfl⟩
  · obtain ⟨⟨hnil, hdot, hdots, hslash⟩, hkept⟩ := htable seg hname
    exact ⟨⟨hnil, hdot, hdots, hslash⟩, hkept⟩
  · exact ⟨proper_of_nameable (h id hid), not_dots_of_nameable (h id hid)⟩

theorem foldl_walk_of_kept (path : List Seg) {segs : List Seg}
    (h : ∀ seg ∈ segs, doubleDot seg = false ∧ singleDot seg = false) :
    segs.foldl walk path = path ++ segs := by
  induction segs generalizing path with
  | nil => rw [List.foldl_nil, List.append_nil]
  | cons seg segs ih =>
    obtain ⟨hdots, hdot⟩ := h seg List.mem_cons_self
    rw [List.foldl_cons, walk, hdots, hdot, if_neg Bool.false_ne_true, if_neg Bool.false_ne_true,
      ih _ fun s hs => h s (List.mem_cons_of_mem seg hs), List.append_assoc]
    rfl

/-- The browser sends the path of a call as it is. -/
theorem pathname_of_named {call : ApiCall} (h : call.Named) :
    pathname call.url = joined call.segs := by
  have hkept : ∀ seg ∈ call.segs, doubleDot seg = false ∧ singleDot seg = false :=
    fun seg hseg => (proper_of_named h hseg).2
  rw [pathname_url, pathState, foldl_walk_of_kept [] hkept, List.nil_append, if_neg,
    List.append_nil]
  intro hlast
  obtain ⟨seg, hseg, hdot⟩ := (Option.any_eq_true _ _).mp hlast
  obtain ⟨hdots, hone⟩ := hkept seg (List.mem_of_getLast? hseg)
  rw [hdots, hone] at hdot
  exact Bool.false_ne_true hdot

/-- Every segment of a call is well escaped. -/
theorem unescape_segs_ne_none {call : ApiCall} {seg : Seg} (hseg : seg ∈ call.segs) :
    unescape seg ≠ none := by
  have htable : ∀ seg ∈ names, unescape seg ≠ none := by decide +kernel
  rcases mem_names_or hseg with hname | ⟨id, -, rfl⟩
  · exact htable seg hname
  · rw [unescape_encodeURIComponent]
    exact Option.some_ne_none _

/-- What the wildcards of a call's route stand for. -/
def values (call : ApiCall) : List Seg := (call.id?.map fun id => octets id.toList).toList

/-- The route is the one of the call's handler, and not one for any rest. -/
def Meant (call : ApiCall) (found : Option (Route Endpoint × List Seg)) : Prop :=
  ∃ route, found = some (route, call.values) ∧ route.handler = call.endpoint ∧
    route.pattern.segments.getLast? ≠ some .rest

/-- Below the jobs, GET has the list, one job and its events. -/
theorem findChild_get (spa : Bool) : findChild (findChild (forMethod (routes spa) (some "GET"))
    "api".toList) "jobs".toList =
      [([], ⟨parsePattern "GET /api/jobs", .listJobs⟩),
        ([.wildcard "id"], ⟨parsePattern "GET /api/jobs/\x7bid\x7d", .getJob⟩),
        ([.wildcard "id", .literal "events".toList],
          ⟨parsePattern "GET /api/jobs/\x7bid\x7d/events", .jobEvents⟩)] := by
  cases spa <;> decide +kernel

/-- Below the jobs, DELETE has one job. -/
theorem findChild_delete (spa : Bool) :
    findChild (findChild (forMethod (routes spa) (some "DELETE")) "api".toList) "jobs".toList =
      [([.wildcard "id"], ⟨parsePattern "DELETE /api/jobs/\x7bid\x7d", .cancelJob⟩)] := by
  cases spa <;> decide +kernel

theorem meant_of_match {call : ApiCall} {spa : Bool} {path : List Char} (route : Route Endpoint)
    (h : matchPath (forMethod (routes spa) (some call.method)) (segments path) [] =
      some (route, call.values)) (hroute : route.handler = call.endpoint)
    (hrest : route.pattern.segments.getLast? ≠ some .rest) :
    call.Meant (matchMethodAndPath (routes spa) call.method path) := by
  refine ⟨route, ?_, hroute, hrest⟩
  rw [matchMethodAndPath, h]

/-- The router takes a call's path to the call's handler. -/
theorem meant_of_named {call : ApiCall} (h : call.Named) (spa : Bool) :
    call.Meant (matchMethodAndPath (routes spa) call.method (joined call.segs)) := by
  have hsegs := segments_joined call.segs_ne_nil fun seg hseg => (proper_of_named h hseg).1
  have hid (id : String) : pathUnescape (encodeURIComponent id) = octets id.toList := by
    rw [pathUnescape, unescape_encodeURIComponent, Option.getD_some]
  have hname : pathUnescape "api".toList = "api".toList ∧
      pathUnescape "jobs".toList = "jobs".toList ∧
      pathUnescape "events".toList = "events".toList := by decide +kernel
  have hoctets {id : String} (hid : Nameable id) :
      octets id.toList ≠ [] ∧ octets id.toList ≠ ['/'] := by
    constructor
    · intro hnil
      exact hid (by rw [eq_of_octets (s := "") hnil]; decide)
    · intro hslash
      have heq : octets id.toList = octets "/".toList := hslash.trans (by decide +kernel)
      exact hid (by rw [eq_of_octets heq]; decide)
  have hfixed (hmem : call ∈ [catalog, createSession, getSession, deleteSession, regions,
      createScan, createNuke, jobs]) :
      call.Meant (matchMethodAndPath (routes spa) call.method (joined call.segs)) := by
    have htable : ∀ spa, ∀ call ∈ [catalog, createSession, getSession, deleteSession, regions,
        createScan, createNuke, jobs],
        (matchMethodAndPath (routes spa) call.method (joined call.segs)).map
          (fun found => (found.1.handler, found.2,
            decide (found.1.pattern.segments.getLast? ≠ some .rest))) =
            some (call.endpoint, call.values, true) := by decide +kernel
    obtain ⟨⟨route, values⟩, hmatch, hroute⟩ := Option.map_eq_some_iff.mp (htable spa call hmem)
    simp only [Prod.mk.injEq, decide_eq_true_eq] at hroute
    obtain ⟨hhandler, rfl, hrest⟩ := hroute
    exact ⟨route, hmatch, hhandler, hrest⟩
  cases call with
  | job id =>
    obtain ⟨hne, hslash⟩ := hoctets (h id rfl)
    refine meant_of_match ⟨parsePattern "GET /api/jobs/\x7bid\x7d", .getJob⟩ ?_ rfl (by decide)
    rw [hsegs, segs, List.map_cons, List.map_cons, List.map_cons, hid, hname.1, hname.2.1]
    refine matchPath_literal (matchPath_literal ?_)
    rw [method, findChild_get]
    refine matchPath_wildcard ?_ hslash rfl
    rw [findChild, if_neg hne]
    rfl
  | cancelJob id =>
    obtain ⟨hne, hslash⟩ := hoctets (h id rfl)
    refine meant_of_match ⟨parsePattern "DELETE /api/jobs/\x7bid\x7d", .cancelJob⟩ ?_ rfl
      (by decide)
    rw [hsegs, segs, List.map_cons, List.map_cons, List.map_cons, hid, hname.1, hname.2.1]
    refine matchPath_literal (matchPath_literal ?_)
    rw [method, findChild_delete]
    refine matchPath_wildcard ?_ hslash rfl
    rw [findChild, if_neg hne]
    rfl
  | events id after =>
    obtain ⟨hne, hslash⟩ := hoctets (h id rfl)
    refine meant_of_match ⟨parsePattern "GET /api/jobs/\x7bid\x7d/events", .jobEvents⟩ ?_ rfl
      (by decide)
    rw [hsegs, segs, List.map_cons, List.map_cons, List.map_cons, List.map_cons, hid, hname.1,
      hname.2.1, hname.2.2]
    refine matchPath_literal (matchPath_literal ?_)
    rw [method, findChild_get]
    refine matchPath_wildcard ?_ hslash (matchPath_literal rfl)
    rw [findChild, if_neg hne]
    rfl
  | _ => exact hfixed (by decide)

theorem guard_of_call (call : ApiCall) (cookie : String) (u : URL) :
    csrfGuard (call.request cookie) u = none := by
  refine if_neg ?_
  rintro ⟨-, hget, -, hheader⟩
  cases call with
  | events id after => exact hget rfl
  | _ => exact absurd hheader (show "web" ≠ "" by decide)

theorem token_of_call (call : ApiCall) (cookie : String) :
    (call.request cookie).token = cookie := by
  have hheader : (call.request cookie).header "Authorization" = "" := by
    cases call <;> rfl
  rw [Request.token, hheader]
  rfl

/-- A call whose job can be named reaches its handler. -/
theorem findHandler_of_named {call : ApiCall} (h : call.Named) (spa : Bool) :
    ∃ u route, setPath (pathname call.url) = some u ∧ route.handler = call.endpoint ∧
      findHandler (routes spa) call.method u = .handler route call.values := by
  have hvalid := call.validEncoded_pathname
  rw [pathname_of_named h] at hvalid ⊢
  have hproper : ∀ seg ∈ call.segs, Proper seg := fun seg hseg => (proper_of_named h hseg).1
  have hunescape := unescape_joined fun seg (hseg : seg ∈ call.segs) =>
    unescape_segs_ne_none hseg
  obtain ⟨u, hu⟩ : ∃ u, setPath (joined call.segs) = some u := by
    rw [setPath, hunescape]
    exact ⟨_, rfl⟩
  have hescaped : u.escapedPath = joined call.segs := escapedPath_of_valid hvalid hu
  obtain ⟨route, hmatch, hhandler, hrest⟩ := meant_of_named h spa
  refine ⟨u, route, hu, hhandler, findHandler_of_match ?_ ?_ (hescaped ▸ hmatch) hrest⟩
  · have hmethods : "GET" ≠ "CONNECT" ∧ "POST" ≠ "CONNECT" ∧ "DELETE" ≠ "CONNECT" := by decide
    cases call <;> first | exact hmethods.1 | exact hmethods.2.1 | exact hmethods.2.2
  · rw [hescaped, cleanPath_joined call.segs_ne_nil hproper]

/-- An id that a path cannot name takes a call about the job to no handler of the API. -/
theorem findHandler_of_not_nameable {id : String} (h : ¬ Nameable id) (spa : Bool)
    {call : ApiCall} (hcall : call = job id ∨ call = cancelJob id) :
    ∃ u route, setPath (pathname call.url) = some u ∧ route.handler = .unknown ∧
      findHandler (routes spa) call.method u = .handler route [] := by
  have htable : ∀ spa, ∀ id ∈ ["", ".", "..", "/"], ∀ call ∈ [job id, cancelJob id],
      (setPath (pathname call.url)).map (findHandler (routes spa) call.method) =
        some (.handler ⟨parsePattern "/api/", .unknown⟩ []) := by decide +kernel
  have hmem : call ∈ [job id, cancelJob id] := by
    rcases hcall with rfl | rfl
    · exact List.mem_cons_self
    · exact List.mem_cons_of_mem _ List.mem_cons_self
  obtain ⟨u, hu, hfound⟩ := Option.map_eq_some_iff.mp (htable spa id (not_not.mp h) call hmem)
  exact ⟨u, _, hu, rfl, hfound⟩

/-- Where a call arrives: one about a job that no path can name arrives nowhere. -/
def arrival : ApiCall → Endpoint × List Seg
  | job id => if Nameable id then (.getJob, [octets id.toList]) else (.unknown, [])
  | cancelJob id => if Nameable id then (.cancelJob, [octets id.toList]) else (.unknown, [])
  | call => (call.endpoint, call.values)

end ApiCall

section Arrive

variable (c : Sessions.Config) (o : Sessions.Outside) (spa : Bool) {w w' : Sessions.World}
  {token : String}

theorem serve_call {call : ApiCall} {u : URL} {route : Route Endpoint} {values : List Seg}
    (hu : setPath (pathname call.url) = some u)
    (hroute : findHandler (routes spa) call.method u = .handler route values)
    (hlive : route.handler.auth = true →
      token ≠ "" ∧ w.run c o (Sessions.get token) = some (.session (some token), w')) :
    serve c o spa w (call.request token) =
      some (if route.handler.auth then (.handled route.handler (some token) values, w')
        else (.handled route.handler none values, w)) := by
  have hstar : pathname call.url ≠ ['*'] := fun h => absurd (List.cons.inj h).1 (by decide)
  have hset : (if (call.request token).path = ['*'] then none
      else setPath (call.request token).path) = some u := (if_neg hstar).trans hu
  have hfound : findHandler (routes spa) (call.request token).method u = .handler route values :=
    hroute
  rw [serve, hset]
  simp only [ApiCall.guard_of_call, hfound]
  split
  · rename_i hauth
    obtain ⟨htoken, hget⟩ := hlive hauth
    rw [auth, ApiCall.token_of_call, if_neg htoken, hget]
    rfl
  · rfl

/-- Every call of the pages arrives at its own handler with its own job, whatever letters the
job's id is made of; where a session is asked for, the page must be signed in, and it is the
session of its cookie. With the four ids that a path cannot name, a request for a job or to
cancel it arrives at no job. -/
theorem calls_arrive (call : ApiCall)
    (hevents : ∀ id after, call = .events id after → Nameable id)
    (hlive : call.arrival.1.auth = true →
      token ≠ "" ∧ w.run c o (Sessions.get token) = some (.session (some token), w')) :
    serve c o spa w (call.request token) =
      some (if call.arrival.1.auth then (.handled call.arrival.1 (some token) call.arrival.2, w')
        else (.handled call.arrival.1 none call.arrival.2, w)) := by
  have hnamed (h : call.Named) (harrival : call.arrival = (call.endpoint, call.values)) :
      serve c o spa w (call.request token) =
        some (if call.arrival.1.auth then (.handled call.arrival.1 (some token) call.arrival.2, w')
          else (.handled call.arrival.1 none call.arrival.2, w)) := by
    obtain ⟨u, route, hu, hhandler, hroute⟩ := ApiCall.findHandler_of_named h spa
    rw [harrival, ← hhandler] at hlive ⊢
    exact serve_call c o spa hu hroute hlive
  have hlost {id : String} (hcall : call = .job id ∨ call = .cancelJob id) (h : ¬ Nameable id)
      (harrival : call.arrival = (.unknown, [])) :
      serve c o spa w (call.request token) =
        some (if call.arrival.1.auth then (.handled call.arrival.1 (some token) call.arrival.2, w')
          else (.handled call.arrival.1 none call.arrival.2, w)) := by
    obtain ⟨u, route, hu, hhandler, hroute⟩ :=
      ApiCall.findHandler_of_not_nameable h spa hcall
    rw [harrival, ← hhandler] at hlive ⊢
    exact serve_call c o spa hu hroute hlive
  have hone {id : String} (hid : call.id? = some id) (h : Nameable id) : call.Named := by
    intro id' hid'
    obtain rfl := Option.some.inj (hid.symm.trans hid')
    exact h
  cases call with
  | job id =>
    by_cases h : Nameable id
    · exact hnamed (hone rfl h) (if_pos h)
    · exact hlost (Or.inl rfl) h (if_neg h)
  | cancelJob id =>
    by_cases h : Nameable id
    · exact hnamed (hone rfl h) (if_pos h)
    · exact hlost (Or.inr rfl) h (if_neg h)
  | events id after => exact hnamed (hone rfl (hevents id after rfl)) rfl
  | _ => exact hnamed (fun id hid => by cases hid) rfl

end Arrive

/-- A session that was just opened. -/
private def oneSession : Sessions.World where
  clock := 0
  sessions := {"t"}
  objects := fun _ => some { creds := {}, expiresAt := 60, lastSeen := 0 }

theorem slashed_job_arrives : ∃ w', serve ⟨30, 60⟩ {} true oneSession
    ((ApiCall.cancelJob "a/../é").request "t") =
      some (.handled .cancelJob (some "t") [octets "a/../é".toList], w') :=
  ⟨oneSession.put "t" { creds := {}, expiresAt := 60, lastSeen := 0 },
    calls_arrive ⟨30, 60⟩ {} true (.cancelJob "a/../é") (by rintro _ _ ⟨⟩)
      fun _ => ⟨by decide, rfl⟩⟩

end Broom.Web
