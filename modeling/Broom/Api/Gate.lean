import Broom.Api.Gzip
import Broom.Api.Nukes
import Broom.Core.ServeMux
import Broom.Sessions.Timed

/-!
# The way to the handlers

What stands between a request and the handlers: the table of routes, the header that
requests to change something must have, and the session of the cookie or of the bearer
token. The router sees the path as it was written, segment by segment; the checks see it
decoded.
-/

namespace Broom.Api

open Broom.Core Broom.Core.ServeMux Broom.Sessions

/-! ## Routes -/

/-- The handlers of the server. -/
inductive Endpoint
  | healthz
  | catalog
  | createSession
  | getSession
  | deleteSession
  | regions
  | createScan
  | createNuke
  | listJobs
  | getJob
  | jobEvents
  | cancelJob
  | unknown
  | spa
  deriving DecidableEq, Repr

/-- A segment of a pattern as it is written. -/
def parseSegment : List Char → PatSegment
  | [] => .rest
  | seg =>
    if seg.head? = some '\x7b' ∧ seg.getLast? = some '\x7d' then
      .wildcard (String.ofList seg.tail.dropLast)
    else .literal seg

/-- A pattern as it is written: a method, if any, and a path. -/
def parsePattern (s : String) : Pattern :=
  match cutFirst ' ' s.toList with
  | some (method, path) =>
    ⟨some (String.ofList method), (path.tail.splitOn '/').map parseSegment⟩
  | none => ⟨none, (s.toList.tail.splitOn '/').map parseSegment⟩

/-- The table of routes; the pages are there if they were built in. -/
def routeTable (spa : Bool) : List (String × Endpoint) :=
  [("GET /healthz", .healthz),
    ("GET /api/catalog", .catalog),
    ("POST /api/sessions", .createSession),
    ("GET /api/session", .getSession),
    ("DELETE /api/session", .deleteSession),
    ("GET /api/session/regions", .regions),
    ("POST /api/scans", .createScan),
    ("POST /api/nukes", .createNuke),
    ("GET /api/jobs", .listJobs),
    ("GET /api/jobs/\x7bid\x7d", .getJob),
    ("GET /api/jobs/\x7bid\x7d/events", .jobEvents),
    ("DELETE /api/jobs/\x7bid\x7d", .cancelJob),
    ("/api/", .unknown)] ++ if spa then [("/", .spa)] else []

def routes (spa : Bool) : List (Route Endpoint) :=
  (routeTable spa).map fun (pattern, handler) => ⟨parsePattern pattern, handler⟩

/-- The handlers that ask for a session. -/
def Endpoint.auth : Endpoint → Bool
  | .getSession | .deleteSession | .regions | .createScan | .createNuke | .listJobs | .getJob
  | .jobEvents | .cancelJob => true
  | .healthz | .catalog | .createSession | .unknown | .spa => false

/-- The handlers that change something. -/
def Endpoint.mutates : Endpoint → Bool
  | .createSession | .deleteSession | .createScan | .createNuke | .cancelJob => true
  | _ => false

/-- The handlers of the API. -/
def Endpoint.api : Endpoint → Bool
  | .healthz | .unknown | .spa => false
  | _ => true

/-! ## Requests -/

/-- A request as the checks in front of the handlers see it. -/
structure Request where
  method : String
  /-- The path of the target as it was sent. -/
  path : List Char
  bytes : Percent.Bytes path
  /-- The first value of a header, or nothing. -/
  header : String → String := fun _ => ""
  /-- The value of the session's cookie, or nothing. -/
  cookie : String := ""
  tls : Bool := false

def clientHeader : String := "X-Broom-Client"

/-- The path is one of the API. -/
def isApi (u : URL) : Bool := "/api/".toList.isPrefixOf u.path

def isTLS (r : Request) : Bool :=
  r.tls || (r.header "X-Forwarded-Proto").toList.map Char.toLower = "https".toList

/-- The headers that every answer has. -/
def securityHeaders (r : Request) (u : URL) : List (String × String) :=
  [("X-Content-Type-Options", "nosniff"),
    ("X-Frame-Options", "DENY"),
    ("Referrer-Policy", "no-referrer"),
    ("Permissions-Policy", "camera=(), microphone=(), geolocation=()")] ++
    (if isTLS r then [("Strict-Transport-Security", "max-age=31536000")] else []) ++
    if isApi u then [("Cache-Control", "no-store")] else []

/-- What a handler sets in the header of its answer, cookies apart. The event stream of a job
that is there has a header of its own; so have the pages, which are not answered here. -/
def Endpoint.changes (e : Endpoint) (streams : Bool) : List HeaderChange :=
  match e with
  | .jobEvents =>
    if streams then
      [.set "Content-Type" "text/event-stream", .set "Cache-Control" "no-cache",
        .set "Connection" "keep-alive", .set "X-Accel-Buffering" "no"]
    else [.set "Content-Type" "application/json; charset=utf-8"]
  | .healthz => [.set "Content-Type" "text/plain"]
  | .spa => []
  | _ => [.set "Content-Type" "application/json; charset=utf-8"]

/-- The header of an answer, set in front of the handler and by it. -/
def answerHeader (r : Request) (u : URL) (e : Endpoint) (streams : Bool) : Header :=
  (((securityHeaders r u).map fun p => HeaderChange.set p.1 p.2) ++ e.changes streams).foldl
    HeaderChange.apply fun _ => []

/-- The error of a request to change something without the client's header. -/
def csrfGuard (r : Request) (u : URL) : Option ApiError :=
  if isApi u = true ∧ r.method ≠ "GET" ∧ r.method ≠ "HEAD" ∧ r.header clientHeader = "" then
    some ⟨403, "csrf", "missing " ++ clientHeader ++ " header"⟩
  else none

/-- How much of a body is read: 4 MiB of that of a request to change something. -/
def bodyLimit (r : Request) (u : URL) : Option Nat :=
  if isApi u = true ∧ r.method ≠ "GET" ∧ r.method ≠ "HEAD" then some (4 * 1024 * 1024) else none

/-- The token of the cookie, unless there is a bearer token. -/
def Request.token (r : Request) : String :=
  let h := r.header "Authorization"
  if "Bearer ".toList.isPrefixOf h.toList then String.ofList (h.toList.drop 7) else r.cookie

/-- What a request comes to. -/
inductive Arrival
  | badRequest
  | refused (e : ApiError)
  | routed (found : Found Endpoint)
  | handled (e : Endpoint) (session : Option String) (values : List SlashPath.Seg)
  deriving DecidableEq, Repr

section Serving

variable (c : Config) (o : Outside)

/-- The session of a request, and the handler with it. -/
def auth (w : World) (r : Request) (e : Endpoint) (values : List SlashPath.Seg) :
    Option (Arrival × World) :=
  if r.token = "" then some (.refused ⟨401, "unauthorized", "no session"⟩, w)
  else
    (w.run c o (Sessions.get r.token)).map fun
      | (.session (some id), w') => (.handled e (some id) values, w')
      | (_, w') => (.refused ⟨401, "session_expired", "session not found or expired"⟩, w')

/-- What a request comes to, with the sessions that there are. -/
def serve (spa : Bool) (w : World) (r : Request) : Option (Arrival × World) :=
  match if r.path = ['*'] then none else setPath r.path with
  | none => some (.badRequest, w)
  | some u =>
    match csrfGuard r u with
    | some e => some (.refused e, w)
    | none =>
      match findHandler (routes spa) r.method u with
      | .handler route values =>
        if route.handler.auth then auth c o w r route.handler values
        else some (.handled route.handler none values, w)
      | found => some (.routed found, w)

end Serving

/-! ## What the table says -/

/-- The routes of the API are below its name, and for one method. -/
theorem segments_of_api : ∀ spa, ∀ route ∈ routes spa, route.handler.api = true →
    route.pattern.method ≠ none ∧ ∃ q qs, route.pattern.segments =
      .literal "api".toList :: q :: qs := by
  have htable : ∀ spa, ∀ route ∈ routes spa, route.handler.api = true →
      route.pattern.method ≠ none ∧ route.pattern.segments =
        .literal "api".toList :: route.pattern.segments.tail.head?.getD .rest ::
          route.pattern.segments.tail.tail := by decide
  intro spa route hroute hapi
  obtain ⟨hmethod, hsegs⟩ := htable spa route hroute hapi
  exact ⟨hmethod, _, _, hsegs⟩

theorem method_of_mutates : ∀ spa, ∀ route ∈ routes spa, route.handler.mutates = true →
    route.pattern.method = some "POST" ∨ route.pattern.method = some "DELETE" := by decide

/-! ## What reaches a handler -/

section Reached

variable {c : Config} {o : Outside} {spa : Bool} {w w' : World} {r : Request} {e : Endpoint}
  {session : Option String} {values : List SlashPath.Seg}

/-- The session behind a handler is the one of the request's token, it is in the store, and
not stale. -/
structure Admitted (c : Config) (w w' : World) (token : String) : Prop where
  ne_nil : token ≠ ""
  mem : token ∈ w.sessions
  fresh : ¬ w.Stale c token w.clock
  kept : token ∈ w'.sessions

theorem admitted_of_get {token id : String} (hne : token ≠ "")
    (h : w.run c o (Sessions.get token) = some (.session (some id), w')) :
    id = token ∧ Admitted c w w' token := by
  obtain ⟨hid, hin, hfresh, hkept⟩ := served_of_get h
  exact ⟨hid, hne, hin, hfresh, hkept⟩

/-- What is behind a handler that was reached. -/
theorem of_auth (h : auth c o w r e values = some (.handled e' session values', w')) :
    e' = e ∧ values' = values ∧ session = some r.token ∧ Admitted c w w' r.token := by
  rw [auth] at h
  split at h
  · cases h
  rename_i hne
  obtain ⟨⟨result, w₁⟩, hget, hmap⟩ := Option.map_eq_some_iff.mp h
  split at hmap
  · rename_i id w₂ hres
    obtain ⟨rfl, rfl⟩ := Prod.mk.inj hres
    obtain ⟨hhandled, rfl⟩ := Prod.mk.inj hmap
    obtain ⟨rfl, rfl, rfl⟩ := Arrival.handled.inj hhandled
    obtain ⟨rfl, hadmitted⟩ := admitted_of_get hne hget
    exact ⟨rfl, rfl, rfl, hadmitted⟩
  · cases (Prod.mk.inj hmap).1

/-- A handler that was reached was routed to, past the guard, and if it asks for a session
there is one. -/
theorem of_serve (h : serve c o spa w r = some (.handled e session values, w')) :
    ∃ u route, setPath r.path = some u ∧ csrfGuard r u = none ∧
      findHandler (routes spa) r.method u = .handler route values ∧ route.handler = e ∧
      (e.auth = true → session = some r.token ∧ Admitted c w w' r.token) ∧
      (e.auth = false → session = none ∧ w' = w) := by
  rw [serve] at h
  split at h
  · cases h
  rename_i u hu
  have hset : setPath r.path = some u := by
    split at hu
    · cases hu
    · exact hu
  split at h
  · cases h
  rename_i hcsrf
  split at h
  · rename_i route values' hroute
    split at h
    · rename_i hauth
      obtain ⟨rfl, rfl, hsession, hadmitted⟩ := of_auth h
      exact ⟨u, route, hset, hcsrf, hroute, rfl, fun _ => ⟨hsession, hadmitted⟩,
        fun hfalse => absurd (hfalse.symm.trans hauth) Bool.false_ne_true⟩
    · rename_i hauth
      obtain ⟨hhandled, rfl⟩ := Prod.mk.inj (Option.some.inj h)
      obtain ⟨rfl, rfl, rfl⟩ := Arrival.handled.inj hhandled
      exact ⟨u, route, hset, hcsrf, hroute, rfl, fun htrue => absurd htrue hauth,
        fun _ => ⟨rfl, rfl⟩⟩
  · obtain ⟨hrouted, -⟩ := Prod.mk.inj (Option.some.inj h)
    cases hrouted

/-- The checks see a path of the API wherever the router saw one, however it was escaped. -/
theorem isApi_of_findHandler {u : URL} (hu : setPath r.path = some u) {route : Route Endpoint}
    (h : findHandler (routes spa) r.method u = .handler route values)
    (hapi : route.handler.api = true) : isApi u = true ∧ route.pattern.Serves r.method := by
  obtain ⟨hmatch, hclean⟩ := of_findHandler h
  obtain ⟨hmem, hserves, hfits⟩ := fits_of_matchMethodAndPath hmatch
  obtain ⟨hmethod, q, qs, hsegs⟩ := segments_of_api spa route hmem hapi
  refine ⟨?_, hserves⟩
  have hconnect : r.method ≠ "CONNECT" := by
    intro hconnect
    have htable : ∀ spa, ∀ route ∈ routes spa, route.pattern.method ≠ some "CONNECT" := by decide
    rcases hserves with hnone | hsome | ⟨hhead, -⟩
    · exact hmethod hnone
    · exact htable spa route hmem (hconnect ▸ hsome)
    · exact absurd (hconnect.symm.trans hhead) (by decide)
  obtain ⟨p, hroot⟩ := exists_root (hclean hconnect)
  have hpath := unescape_escapedPath (bytes_setPath r.bytes hu)
  rw [hroot] at hpath hfits
  rw [hsegs] at hfits
  -- the path has a segment that stands for the name of the API, and one more
  obtain ⟨next, segs, hseen⟩ : ∃ next segs,
      segments ('/' :: p) = "api".toList :: next :: segs := by
    match hseen : segments ('/' :: p) with
    | [] =>
      rw [hseen] at hfits
      exact hfits.elim
    | [seg] =>
      rw [hseen] at hfits
      cases q with
      | literal s => exact hfits.2.elim
      | wildcard name => exact hfits.2.elim
      | rest => exact absurd rfl hfits.2
    | seg :: next :: segs =>
      rw [hseen] at hfits
      exact ⟨next, segs, by rw [hfits.1]⟩
  obtain ⟨rest, hrest⟩ := path_of_segments hseen hpath
  rw [isApi, hrest, List.isPrefixOf_iff_prefix]
  exact ⟨rest, by simp⟩

end Reached

/-- No answer of the API may be stored, but for an event stream, which may not be used again
unchecked. -/
theorem cacheControl_answerHeader {r : Request} {u : URL} (h : isApi u = true) (e : Endpoint)
    (streams : Bool) : answerHeader r u e streams "Cache-Control" =
      if e = .jobEvents ∧ streams = true then ["no-cache"] else ["no-store"] := by
  obtain ⟨front, hfront⟩ :
      ∃ front, securityHeaders r u = front ++ [("Cache-Control", "no-store")] :=
    ⟨_, by rw [securityHeaders, if_pos h]⟩
  rw [answerHeader, hfront, List.map_append, List.foldl_append, List.foldl_append]
  cases e <;> cases streams <;> simp [Endpoint.changes, HeaderChange.apply, Function.update]

/-- However its path is written, a request that reaches a handler of the API is answered with
an answer that is not to be stored, or an event stream that is not to be cached; to change
something it must not be a GET or HEAD, must have the client's header, and its body is limited;
and where a session is asked for, it is the one of the request's token, in the store and not
stale. -/
theorem handlers_are_guarded (c : Config) (o : Outside) (spa : Bool) {w w' : World} {r : Request}
    {e : Endpoint} {session : Option String} {values : List SlashPath.Seg}
    (h : serve c o spa w r = some (.handled e session values, w')) (hapi : e.api = true) :
    ∃ u, setPath r.path = some u ∧
      (∀ streams, answerHeader r u e streams "Cache-Control" =
        if e = .jobEvents ∧ streams = true then ["no-cache"] else ["no-store"]) ∧
      (e.mutates = true → r.method ≠ "GET" ∧ r.method ≠ "HEAD" ∧ r.header clientHeader ≠ "" ∧
        bodyLimit r u = some (4 * 1024 * 1024)) ∧
      (e.auth = true → session = some r.token ∧ Admitted c w w' r.token) := by
  obtain ⟨u, route, hu, hcsrf, hroute, rfl, hauth, -⟩ := of_serve h
  obtain ⟨hpath, hserves⟩ := isApi_of_findHandler hu hroute hapi
  refine ⟨u, hu, cacheControl_answerHeader hpath _, fun hmutates => ?_, hauth⟩
  · obtain ⟨hmatch, -⟩ := of_findHandler hroute
    obtain ⟨hmem, -, -⟩ := fits_of_matchMethodAndPath hmatch
    have hmethod : r.method ≠ "GET" ∧ r.method ≠ "HEAD" := by
      have htable := method_of_mutates spa route hmem hmutates
      rcases hserves with hnone | hsome | ⟨-, hget⟩
      · rw [hnone] at htable
        simp at htable
      · rw [hsome] at htable
        rcases htable with hm | hm <;> rw [Option.some.inj hm] <;> decide
      · rw [hget] at htable
        simp at htable
    have hheader : r.header clientHeader ≠ "" := by
      intro hnone
      rw [csrfGuard, if_pos ⟨hpath, hmethod.1, hmethod.2, hnone⟩] at hcsrf
      cases hcsrf
    exact ⟨hmethod.1, hmethod.2, hheader, if_pos ⟨hpath, hmethod⟩⟩

/-- One session, just signed in. -/
private def signedIn : World where
  clock := 0
  sessions := {"t"}
  objects := fun _ => some { creds := {}, expiresAt := 60, lastSeen := 0 }

/-- A request to cancel a job, with its path escaped where it need not be. -/
private def escapedCancel : Request where
  method := "DELETE"
  path := "/%61pi/j%6Fbs/7".toList
  bytes := by decide +kernel
  header := fun h => if h = clientHeader then "web" else ""
  cookie := "t"

private theorem serve_escapedCancel : serve ⟨30, 60⟩ {} true signedIn escapedCancel =
    some (.handled .cancelJob (some "t") [['7']],
      signedIn.put "t" { creds := {}, expiresAt := 60, lastSeen := 0 }) := by
  have hset : (if escapedCancel.path = ['*'] then none else setPath escapedCancel.path) =
      some ⟨"/api/jobs/7".toList, "/%61pi/j%6Fbs/7".toList⟩ := by decide +kernel
  have hroute : findHandler (routes true) escapedCancel.method
      ⟨"/api/jobs/7".toList, "/%61pi/j%6Fbs/7".toList⟩ =
        .handler ⟨parsePattern "DELETE /api/jobs/\x7bid\x7d", .cancelJob⟩ [['7']] := by
    decide +kernel
  have hcsrf : csrfGuard escapedCancel ⟨"/api/jobs/7".toList, "/%61pi/j%6Fbs/7".toList⟩ =
      none := by decide +kernel
  rw [serve, hset]
  simp only [hcsrf, hroute]
  rfl

theorem escapedCancel_guarded : ∃ u w', setPath escapedCancel.path = some u ∧
    (∀ streams, answerHeader escapedCancel u .cancelJob streams "Cache-Control" =
      if Endpoint.cancelJob = .jobEvents ∧ streams = true then ["no-cache"] else ["no-store"]) ∧
      (Endpoint.cancelJob.mutates = true → escapedCancel.method ≠ "GET" ∧
        escapedCancel.method ≠ "HEAD" ∧ escapedCancel.header clientHeader ≠ "" ∧
        bodyLimit escapedCancel u = some (4 * 1024 * 1024)) ∧
      (Endpoint.cancelJob.auth = true → some "t" = some escapedCancel.token ∧
        Admitted ⟨30, 60⟩ signedIn w' escapedCancel.token) := by
  obtain ⟨u, h⟩ := handlers_are_guarded ⟨30, 60⟩ {} true serve_escapedCancel rfl
  exact ⟨u, _, h⟩

end Broom.Api
