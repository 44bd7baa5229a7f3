import Broom.Api.ClientAddress
import Broom.Core.Compressor
import Mathlib.Logic.Function.Basic

/-!
# Compressed responses

A handler's response goes through a writer that compresses it. Whether it does is decided at
the handler's first `WriteHeader` or `Write`, when the headers are usually fixed, too. A flush
fixes them without a decision: what is compressed after it does not say that it is.
-/

namespace Broom.Api

open Broom.Core

/-! ## The response below -/

/-- The values of each header, under its canonical name. -/
abbrev Header := String → List String

/-- A status that ends a response. -/
structure FinalStatus where
  code : Nat
  final : 200 ≤ code ∧ code ≤ 999

inductive HeaderChange
  | set (key value : String)
  | add (key value : String)
  | del (key : String)

def HeaderChange.apply (h : Header) : HeaderChange → Header
  | .set key value => Function.update h key [value]
  | .add key value => Function.update h key (h key ++ [value])
  | .del key => Function.update h key []

/-- What a handler does to its response. -/
inductive HandlerAct
  | header (c : HeaderChange)
  | writeHeader (status : FinalStatus)
  | write (b : List UInt8)
  | flush

/-- A response under way: its headers are fixed once it has a status. -/
structure Response where
  header : Header
  sent : Option (Nat × Header) := none
  body : List UInt8 := []

/-- A response as it has been sent. -/
structure Sent where
  status : Nat
  header : Header
  body : List UInt8

/-- Of the statuses that end a response, two allow no body. -/
def bodyAllowed (status : Nat) : Bool := status ≠ 204 ∧ status ≠ 304

def Response.writeHeader (w : Response) (status : Nat) : Response :=
  match w.sent with
  | some _ => w
  | none => { w with sent := some (status, w.header) }

def Response.write (w : Response) (b : List UInt8) : Response :=
  let w := w.writeHeader 200
  if w.sent.all fun p => bodyAllowed p.1 then { w with body := w.body ++ b } else w

def Response.flush (w : Response) : Response := w.writeHeader 200

def Response.act (w : Response) : HandlerAct → Response
  | .header c => { w with header := c.apply w.header }
  | .writeHeader status => w.writeHeader status.code
  | .write b => w.write b
  | .flush => w.flush

/-- The end of a response whose handler has returned. -/
def Response.finish (w : Response) : Sent :=
  let p := w.sent.getD (200, w.header)
  ⟨p.1, p.2, w.body⟩

/-- The response of a handler. -/
def respond (next : List HandlerAct) (h : Header) : Sent :=
  (next.foldl Response.act { header := h }).finish

/-! ## The writer that compresses -/

/-- The lower-case form of a letter, if that is an ASCII letter. -/
def lowerChar (c : Char) : Char :=
  -- two letters outside ASCII have an ASCII lower-case form
  if c = Char.ofNat 0x130 then 'i' else if c = Char.ofNat 0x212A then 'k' else c.toLower

def compressible (contentType : String) : Bool :=
  let ct := contentType.toList.map lowerChar
  if "text/event-stream".toList.isPrefixOf ct then false
  else "text/".toList.isPrefixOf ct || decide ("javascript".toList <:+: ct) ||
    decide ("json".toList <:+: ct) || decide ("xml".toList <:+: ct) ||
    decide ("svg".toList <:+: ct) || decide ("wasm".toList <:+: ct)

/-- The request headers that decide whether a response may be compressed. -/
structure Negotiation where
  acceptEncoding : List String
  range : List String

/-- The writer for responses that may be compressed. -/
structure GzipResponseWriter (z : StreamCodec UInt8) where
  responseWriter : Response
  zw : Option z.State := none
  decided : Bool := false

section writer

variable (detectContentType : List UInt8 → String) {z : StreamCodec UInt8}

def GzipResponseWriter.decide (g : GzipResponseWriter z) : GzipResponseWriter z :=
  if g.decided then g
  else
    let h := g.responseWriter.header
    if headerGet (h "Content-Encoding") ≠ "" ∨ !compressible (headerGet (h "Content-Type")) then
      { g with decided := true }
    else
      let h := HeaderChange.apply h (.del "Content-Length")
      let h := HeaderChange.apply h (.set "Content-Encoding" "gzip")
      { responseWriter := { g.responseWriter with header := h }
        zw := some z.reset
        decided := true }

def GzipResponseWriter.writeHeader (g : GzipResponseWriter z) (status : Nat) :
    GzipResponseWriter z :=
  let g := if status = 204 ∨ status = 304 then { g with decided := true } else g
  let g := g.decide
  { g with responseWriter := g.responseWriter.writeHeader status }

/-- Name the type of a body that begins with some bytes, if it has none. -/
def sniff (h : Header) (b : List UInt8) : Header :=
  if headerGet (h "Content-Type") = "" then
    HeaderChange.apply h (.set "Content-Type" (detectContentType b))
  else h

/-- The compressor's output goes to the response below. -/
def Response.writeAll (w : Response) (pieces : List (List UInt8)) : Response :=
  pieces.foldl Response.write w

def GzipResponseWriter.write (g : GzipResponseWriter z) (b : List UInt8) : GzipResponseWriter z :=
  let g :=
    if g.decided then g
    else
      let h := sniff detectContentType g.responseWriter.header b
      GzipResponseWriter.decide { g with responseWriter := { g.responseWriter with header := h } }
  match g.zw with
  | some st =>
    let r := z.write st b
    { g with zw := some r.1, responseWriter := g.responseWriter.writeAll r.2 }
  | none => { g with responseWriter := g.responseWriter.write b }

def GzipResponseWriter.flushError (g : GzipResponseWriter z) : GzipResponseWriter z :=
  let g :=
    match g.zw with
    | some st =>
      let r := z.flush st
      { g with zw := some r.1, responseWriter := g.responseWriter.writeAll r.2 }
    | none => g
  { g with responseWriter := g.responseWriter.flush }

def GzipResponseWriter.close (g : GzipResponseWriter z) : GzipResponseWriter z :=
  match g.zw with
  | some st => { g with zw := none, responseWriter := g.responseWriter.writeAll (z.close st) }
  | none => g

def GzipResponseWriter.act (g : GzipResponseWriter z) : HandlerAct → GzipResponseWriter z
  | .header c =>
    { g with responseWriter :=
      { g.responseWriter with header := c.apply g.responseWriter.header } }
  | .writeHeader status => g.writeHeader status.code
  | .write b => g.write detectContentType b
  | .flush => g.flushError

/-- A client takes gzip, and asks for the whole response. -/
def Negotiation.compresses (r : Negotiation) : Bool :=
  !(!decide ("gzip".toList <:+: (headerGet r.acceptEncoding).toList) || headerGet r.range ≠ "")

variable (z)

/-- The response of a handler behind the middleware. -/
def gzipMiddleware (r : Negotiation) (next : List HandlerAct) (h : Header) : Sent :=
  if !r.compresses then respond next h
  else
    let g : GzipResponseWriter z :=
      { responseWriter := { header := HeaderChange.apply h (.add "Vary" "Accept-Encoding") } }
    (next.foldl (GzipResponseWriter.act detectContentType) g).close.responseWriter.finish

end writer

/-! ## Transparency -/

/-- Some encoding is named. -/
def Header.encoded (h : Header) : Bool := (h "Content-Encoding").any (· ≠ "")

def isEventStream (contentType : String) : Bool :=
  "text/event-stream".toList.isPrefixOf (contentType.toList.map lowerChar)

/-- Event streams, encoded responses and responses without a body are passed through. -/
def Sent.passedThrough (s : Sent) : Bool :=
  isEventStream (headerGet (s.header "Content-Type")) || s.header.encoded || !bodyAllowed s.status

/-- Decode a body according to the encoding that was sent. -/
def Sent.decoded (z : StreamCodec UInt8) (s : Sent) : Option (List UInt8) :=
  if s.header.encoded then
    if s.header "Content-Encoding" = ["gzip"] then z.decode s.body else none
  else some s.body

/-- Two headers agree but for some keys. -/
def Header.SameBut (keys : List String) (h h' : Header) : Prop :=
  ∀ key, key ∉ keys → h' key = h key

/-- What an act writes. -/
def HandlerAct.bytes : HandlerAct → List UInt8
  | .write b => b
  | _ => []

/-- All that a handler writes. -/
def writtenBy (next : List HandlerAct) : List UInt8 := next.flatMap HandlerAct.bytes

/-- A response as sent behind the middleware, against the response without it. -/
structure Transparent (z : StreamCodec UInt8) (plain sent : Sent) (written : List UInt8) :
    Prop where
  status : sent.status = plain.status
  passed : plain.passedThrough = true → sent.body = plain.body ∧
    Header.SameBut ["Vary", "Content-Type"] plain.header sent.header
  decoded : plain.passedThrough = false → sent.decoded z = some written
  length : plain.passedThrough = false → sent.header.encoded = true →
    sent.header "Content-Length" = []

section condition

variable (detectContentType : List UInt8 → String) (z : StreamCodec UInt8)

/-- A first call of `WriteHeader` or `Write` decides to compress. -/
def decides (h : Header) : HandlerAct → Bool
  | .writeHeader status => bodyAllowed status.code && headerGet (h "Content-Encoding") = "" &&
      compressible (headerGet (h "Content-Type"))
  | .write b => headerGet (h "Content-Encoding") = "" &&
      compressible (headerGet (sniff detectContentType h b "Content-Type"))
  | .header _ | .flush => false

/-- What an act is for the compressor. -/
def HandlerAct.call? : HandlerAct → Option (CompressorCall UInt8)
  | .write b => some (.write b)
  | .flush => some .flush
  | .header _ | .writeHeader _ => none

/-- If the first call of `WriteHeader` or `Write` decides to compress, no flush has come
before it, and no encoding stands behind an empty value. (After a flush all is well only if
the compressed stream is what was written.) -/
def DecidesInTime (flushed : Bool) (h : Header) : List HandlerAct → Prop
  | [] => True
  | .header c :: next => DecidesInTime flushed (c.apply h) next
  | .flush :: next => DecidesInTime true h next
  | a :: next => decides detectContentType h a = true →
      if flushed then z.stream ((a :: next).filterMap HandlerAct.call?) = writtenBy (a :: next)
      else h.encoded = false

end condition

/-! ## The response below -/

variable {detectContentType : List UInt8 → String} {z : StreamCodec UInt8}

theorem Header.SameBut.apply {keys : List String} {h h' : Header} (hs : h.SameBut keys h')
    (c : HeaderChange) : (c.apply h).SameBut keys (c.apply h') := by
  intro key hkey
  cases c with
  | set k v | del k =>
    by_cases hk : key = k
    · subst hk
      simp [HeaderChange.apply]
    · simp [HeaderChange.apply, hk, hs key hkey]
  | add k v =>
    by_cases hk : key = k
    · subst hk
      simp [HeaderChange.apply, hs key hkey]
    · simp [HeaderChange.apply, hk, hs key hkey]

/-- The status and the headers of a response once it has them. -/
theorem Response.sent_writeHeader (w : Response) (status : Nat) :
    (w.writeHeader status).sent = some (w.sent.getD (status, w.header)) := by
  unfold Response.writeHeader
  cases h : w.sent with
  | none => rfl
  | some p => exact h

theorem Response.body_writeHeader (w : Response) (status : Nat) :
    (w.writeHeader status).body = w.body := by
  unfold Response.writeHeader
  split <;> rfl

theorem Response.sent_write (w : Response) (b : List UInt8) :
    (w.write b).sent = some (w.sent.getD (200, w.header)) := by
  rw [← w.sent_writeHeader 200]
  unfold Response.write
  dsimp only
  split <;> rfl

theorem Response.body_write (w : Response) (b : List UInt8) : (w.write b).body =
    w.body ++ if bodyAllowed (w.sent.getD (200, w.header)).1 then b else [] := by
  unfold Response.write
  simp only [w.sent_writeHeader, Option.all_some]
  split
  · exact congrArg (· ++ b) (w.body_writeHeader 200)
  · exact (w.body_writeHeader 200).trans (List.append_nil _).symm

/-- Once a response has a status, only its body grows. -/
theorem foldl_act_of_sent {w : Response} {p : Nat × Header} (hw : w.sent = some p)
    (next : List HandlerAct) : (next.foldl Response.act w).sent = some p ∧
      (next.foldl Response.act w).body =
        w.body ++ if bodyAllowed p.1 then writtenBy next else [] := by
  induction next generalizing w with
  | nil => simp [hw, writtenBy]
  | cons a next ih =>
    have hsent : (w.act a).sent = some p := by
      cases a with
      | header c => exact hw
      | writeHeader status => exact (w.sent_writeHeader _).trans (by rw [hw]; rfl)
      | write b => exact (w.sent_write b).trans (by rw [hw]; rfl)
      | flush => exact (w.sent_writeHeader 200).trans (by rw [hw]; rfl)
    have hbody : (w.act a).body = w.body ++ if bodyAllowed p.1 then a.bytes else [] := by
      cases a with
      | header c => simp [Response.act, HandlerAct.bytes]
      | writeHeader status => simp [Response.act, HandlerAct.bytes, w.body_writeHeader]
      | write b => simp [Response.act, HandlerAct.bytes, w.body_write, hw]
      | flush => simp [Response.act, Response.flush, HandlerAct.bytes, w.body_writeHeader]
    obtain ⟨hsent', hbody'⟩ := ih hsent
    refine ⟨hsent', hbody'.trans ?_⟩
    rw [hbody, List.append_assoc, writtenBy, writtenBy, List.flatMap_cons]
    split <;> rfl

/-- The compressor's pieces go out after the first of them has fixed the headers. -/
theorem writeAll_eq {w : Response} {pieces : List (List UInt8)}
    (hw : w.sent ≠ none ∨ pieces ≠ []) (hallowed : bodyAllowed (w.sent.getD (200, w.header)).1) :
    (w.writeAll pieces).sent = some (w.sent.getD (200, w.header)) ∧
      (w.writeAll pieces).body = w.body ++ pieces.flatten := by
  induction pieces generalizing w with
  | nil =>
    obtain ⟨p, hp⟩ := Option.ne_none_iff_exists'.mp (hw.resolve_right fun h => h rfl)
    simp [Response.writeAll, hp]
  | cons b pieces ih =>
    have hsent := w.sent_write b
    have hget : (w.write b).sent.getD (200, (w.write b).header) =
        w.sent.getD (200, w.header) := by rw [hsent]; rfl
    have hrest := @ih (w.write b) (.inl (by rw [hsent]; nofun)) (by rwa [hget])
    rw [hget, w.body_write, if_pos hallowed] at hrest
    exact ⟨hrest.1, hrest.2.trans (by rw [List.append_assoc]; rfl)⟩

/-! ## The writer that compresses -/

/-- A writer that has decided against compression is the response below. -/
theorem foldl_act_of_plain {g : GzipResponseWriter z} (hd : g.decided = true)
    (hz : g.zw = none) (next : List HandlerAct) :
    next.foldl (GzipResponseWriter.act detectContentType) g =
      { g with responseWriter := next.foldl Response.act g.responseWriter } := by
  induction next generalizing g with
  | nil => rfl
  | cons a next ih =>
    have ha : g.act detectContentType a =
        { g with responseWriter := g.responseWriter.act a } := by
      obtain ⟨w, zw, decided⟩ := g
      obtain rfl : decided = true := hd
      obtain rfl : zw = none := hz
      cases a with
      | writeHeader status =>
        simp [GzipResponseWriter.act, GzipResponseWriter.writeHeader, GzipResponseWriter.decide,
          Response.act]
      | header | write | flush => rfl
    rw [List.foldl_cons, ha, ih (by exact hd) (by exact hz)]
    rfl

/-- What goes through the compressor goes to the body below. -/
theorem writeAll_of_sent {w : Response} {p : Nat × Header} (hsent : w.sent = some p)
    (hallowed : bodyAllowed p.1 = true) (pieces : List (List UInt8)) :
    (w.writeAll pieces).sent = some p ∧ (w.writeAll pieces).body = w.body ++ pieces.flatten := by
  have h := @writeAll_eq w pieces (.inl (by rw [hsent]; nofun)) (by rwa [hsent])
  rwa [hsent] at h

/-- An act on a writer that has decided to compress goes through the compressor. -/
theorem act_of_compressing {g : GzipResponseWriter z} {st : z.State} {p : Nat × Header}
    (hd : g.decided = true) (hz : g.zw = some st) (hsent : g.responseWriter.sent = some p)
    (hallowed : bodyAllowed p.1 = true) (a : HandlerAct) :
    ∃ st', (g.act detectContentType a).decided = true ∧
      (g.act detectContentType a).zw = some st' ∧
      (g.act detectContentType a).responseWriter.sent = some p ∧
      ∀ cs, (g.act detectContentType a).responseWriter.body ++ z.streamFrom st' cs =
        g.responseWriter.body ++ z.streamFrom st (a.call?.toList ++ cs) := by
  obtain ⟨w, zw, decided⟩ := g
  obtain rfl : decided = true := hd
  obtain rfl : zw = some st := hz
  have hkeep : ∀ w' : Response, w'.sent = some p → ∀ status,
      (w'.writeHeader status).sent = some p := fun w' hw' status => by
    rw [w'.sent_writeHeader, hw']
    rfl
  cases a with
  | header c => exact ⟨st, rfl, rfl, hsent, fun _ => rfl⟩
  | writeHeader status =>
    have hact : GzipResponseWriter.act detectContentType ⟨w, some st, true⟩ (.writeHeader status) =
        (⟨w.writeHeader status.code, some st, true⟩ : GzipResponseWriter z) := by
      simp [GzipResponseWriter.act, GzipResponseWriter.writeHeader, GzipResponseWriter.decide]
    rw [hact]
    exact ⟨st, rfl, rfl, hkeep w hsent _, fun _ => by rw [w.body_writeHeader]; rfl⟩
  | write b =>
    obtain ⟨hsent', hbody'⟩ := writeAll_of_sent hsent hallowed (z.write st b).2
    refine ⟨(z.write st b).1, rfl, rfl, hsent', fun cs => ?_⟩
    calc (w.writeAll (z.write st b).2).body ++ z.streamFrom (z.write st b).1 cs
        = (w.body ++ (z.write st b).2.flatten) ++ z.streamFrom (z.write st b).1 cs := by rw [hbody']
      _ = w.body ++ z.streamFrom st (.write b :: cs) := List.append_assoc ..
  | flush =>
    obtain ⟨hsent', hbody'⟩ := writeAll_of_sent hsent hallowed (z.flush st).2
    refine ⟨(z.flush st).1, rfl, rfl, hkeep _ hsent' 200, fun cs => ?_⟩
    calc ((w.writeAll (z.flush st).2).flush).body ++ z.streamFrom (z.flush st).1 cs
        = (w.body ++ (z.flush st).2.flatten) ++ z.streamFrom (z.flush st).1 cs := by
          rw [Response.flush, Response.body_writeHeader, hbody']
      _ = w.body ++ z.streamFrom st (.flush :: cs) := List.append_assoc ..

/-- A writer that has decided to compress sends the compressor's stream. -/
theorem foldl_act_of_compressing {g : GzipResponseWriter z} {st : z.State} {p : Nat × Header}
    (hd : g.decided = true) (hz : g.zw = some st) (hsent : g.responseWriter.sent = some p)
    (hallowed : bodyAllowed p.1 = true) (next : List HandlerAct) :
    (next.foldl (GzipResponseWriter.act detectContentType) g).close.responseWriter.sent = some p ∧
      (next.foldl (GzipResponseWriter.act detectContentType) g).close.responseWriter.body =
        g.responseWriter.body ++ z.streamFrom st (next.filterMap HandlerAct.call?) := by
  induction next generalizing g st with
  | nil =>
    rw [List.foldl_nil, GzipResponseWriter.close, hz]
    exact writeAll_of_sent hsent hallowed (z.close st)
  | cons a next ih =>
    obtain ⟨st', hd', hz', hsent', hbody'⟩ :=
      @act_of_compressing detectContentType z g st p hd hz hsent hallowed a
    obtain ⟨hend, hbody⟩ := ih hd' hz' hsent'
    refine ⟨hend, hbody.trans ((hbody' _).trans ?_)⟩
    cases hcall : a.call? <;> simp [hcall]

/-! ## The decision -/

/-- The headers of a compressed response. -/
def gzipHeader (h : Header) : Header :=
  HeaderChange.apply (HeaderChange.apply h (.del "Content-Length"))
    (.set "Content-Encoding" "gzip")

/-- The headers at a decision; a body may name the type. -/
def headerAt (detectContentType : List UInt8 → String) (h : Header) : HandlerAct → Header
  | .write b => sniff detectContentType h b
  | _ => h

/-- The status that an act gives to a response that has none. -/
def HandlerAct.status : HandlerAct → Nat
  | .writeHeader status => status.code
  | _ => 200

/-- The acts at which the decision is taken. -/
def HandlerAct.deciding : HandlerAct → Bool
  | .writeHeader _ | .write _ => true
  | .header _ | .flush => false

theorem sniff_of_ne (h : Header) (b : List UInt8) {key : String} (hkey : key ≠ "Content-Type") :
    sniff detectContentType h b key = h key := by
  unfold sniff
  split
  · exact Function.update_of_ne hkey ..
  · rfl

/-- The decision, for a writer that has not taken it. -/
theorem decide_eq (w : Response) :
    GzipResponseWriter.decide (⟨w, none, false⟩ : GzipResponseWriter z) =
    if headerGet (w.header "Content-Encoding") ≠ "" ∨
      !compressible (headerGet (w.header "Content-Type")) then ⟨w, none, true⟩
    else ⟨{ w with header := gzipHeader w.header }, some z.reset, true⟩ := by
  unfold GzipResponseWriter.decide
  simp only [Bool.false_eq_true, if_false]
  rfl

/-- Without compression the act goes to the response below. -/
theorem act_of_not_decides {w : Response} {a : HandlerAct} (ha : a.deciding = true)
    (hnot : decides detectContentType w.header a = false) :
    GzipResponseWriter.act detectContentType (⟨w, none, false⟩ : GzipResponseWriter z) a =
      ⟨Response.act { w with header := headerAt detectContentType w.header a } a, none, true⟩ := by
  cases a with
  | header | flush => cases ha
  | writeHeader status =>
    rw [GzipResponseWriter.act, GzipResponseWriter.writeHeader]
    by_cases hbody : status.code = 204 ∨ status.code = 304
    · rw [if_pos hbody]
      rfl
    · rw [if_neg hbody, decide_eq, if_pos]
      · rfl
      · have hallowed : bodyAllowed status.code = true := by simpa [bodyAllowed] using hbody
        simpa [decides, hallowed, or_iff_not_imp_left] using hnot
  | write b =>
    have hnot' : headerGet (w.header "Content-Encoding") ≠ "" ∨
        (!compressible (headerGet (sniff detectContentType w.header b "Content-Type"))) = true := by
      simpa [decides, or_iff_not_imp_left] using hnot
    rw [GzipResponseWriter.act, GzipResponseWriter.write]
    simp only [Bool.false_eq_true, if_false, decide_eq]
    rw [if_pos (by rwa [sniff_of_ne w.header b (by decide)])]
    rfl

/-- With compression the act begins the compressor's stream. -/
theorem act_of_decides {w : Response} {a : HandlerAct}
    (hdec : decides detectContentType w.header a = true)
    (hallowed : bodyAllowed (w.sent.getD (a.status, w.header)).1 = true) :
    ∃ st, (GzipResponseWriter.act detectContentType
        (⟨w, none, false⟩ : GzipResponseWriter z) a).decided = true ∧
      (GzipResponseWriter.act detectContentType
        (⟨w, none, false⟩ : GzipResponseWriter z) a).zw = some st ∧
      (GzipResponseWriter.act detectContentType
        (⟨w, none, false⟩ : GzipResponseWriter z) a).responseWriter.sent =
          some (w.sent.getD (a.status, gzipHeader (headerAt detectContentType w.header a))) ∧
      ∀ cs, (GzipResponseWriter.act detectContentType
          (⟨w, none, false⟩ : GzipResponseWriter z) a).responseWriter.body ++ z.streamFrom st cs =
        w.body ++ z.stream (a.call?.toList ++ cs) := by
  cases a with
  | header | flush => cases hdec
  | writeHeader status =>
    obtain ⟨⟨hbody, hget⟩, hcomp⟩ : (bodyAllowed status.code = true ∧
        headerGet (w.header "Content-Encoding") = "") ∧
        compressible (headerGet (w.header "Content-Type")) = true := by
      simpa [decides] using hdec
    have hact : GzipResponseWriter.act detectContentType
        (⟨w, none, false⟩ : GzipResponseWriter z) (.writeHeader status) =
          ⟨Response.writeHeader { w with header := gzipHeader w.header } status.code,
            some z.reset, true⟩ := by
      have hnone : ¬ (status.code = 204 ∨ status.code = 304) := by
        simpa [bodyAllowed] using hbody
      rw [GzipResponseWriter.act, GzipResponseWriter.writeHeader, if_neg hnone, decide_eq,
        if_neg (by simp [hget, hcomp])]
    rw [hact]
    exact ⟨z.reset, rfl, rfl, Response.sent_writeHeader .., fun _ => by
      rw [Response.body_writeHeader]; rfl⟩
  | write b =>
    obtain ⟨hget, hcomp⟩ : headerGet (w.header "Content-Encoding") = "" ∧
        compressible (headerGet (sniff detectContentType w.header b "Content-Type")) = true := by
      simpa [decides] using hdec
    have hact : GzipResponseWriter.act detectContentType
        (⟨w, none, false⟩ : GzipResponseWriter z) (.write b) =
          ⟨Response.writeAll { w with header := gzipHeader (sniff detectContentType w.header b) }
            (z.write z.reset b).2, some (z.write z.reset b).1, true⟩ := by
      rw [GzipResponseWriter.act, GzipResponseWriter.write]
      simp only [Bool.false_eq_true, if_false, decide_eq]
      rw [if_neg (by simp [sniff_of_ne, hget, hcomp])]
    -- the first piece is never held back
    have hall : bodyAllowed (w.sent.getD
        (200, gzipHeader (sniff detectContentType w.header b))).1 = true := by
      cases hw : w.sent with
      | none => rfl
      | some p => rwa [hw] at hallowed
    obtain ⟨hsent, hbody⟩ := @writeAll_eq
      { w with header := gzipHeader (sniff detectContentType w.header b) } (z.write z.reset b).2
      (.inr (z.prompt b)) hall
    rw [hact]
    refine ⟨(z.write z.reset b).1, rfl, rfl, hsent, fun cs => ?_⟩
    rw [hbody, List.append_assoc]
    rfl

/-! ## What is sent -/

variable {keys : List String} {h h' : Header} {status : Nat} {body written stream : List UInt8}

theorem Header.SameBut.encoded (hs : h.SameBut keys h') (hkey : "Content-Encoding" ∉ keys) :
    h'.encoded = h.encoded := by
  rw [Header.encoded, hs _ hkey, Header.encoded]

theorem Header.SameBut.typed (hs : h.SameBut ["Vary"] h') :
    h.SameBut ["Vary", "Content-Type"] h' := fun key hkey =>
  hs key fun hmem => hkey (List.mem_singleton.mp hmem ▸ List.mem_cons_self ..)

/-- A response that goes through as it is. -/
theorem transparent_of_same (hs : h.SameBut ["Vary", "Content-Type"] h')
    (hbody : bodyAllowed status = true → body = written) :
    Transparent z ⟨status, h, body⟩ ⟨status, h', body⟩ written := by
  have henc := hs.encoded (by decide)
  refine ⟨rfl, fun _ => ⟨rfl, hs⟩, fun hpassed => ?_, fun hpassed hencoded => ?_⟩
  all_goals simp only [Sent.passedThrough, Bool.or_eq_false_iff, Bool.not_eq_false'] at hpassed
  · rw [Sent.decoded, henc, hpassed.1.2]
    exact congrArg some (hbody hpassed.2)
  · rw [henc, hpassed.1.2] at hencoded
    cases hencoded

/-- A response that is compressed after its headers have gone. -/
theorem transparent_late_iff (hs : h.SameBut ["Vary"] h') :
    Transparent z ⟨200, h, written⟩ ⟨200, h', stream⟩ written ↔ stream = written := by
  constructor
  · intro ht
    cases hpassed : Sent.passedThrough ⟨200, h, written⟩ with
    | true => exact (ht.passed hpassed).1
    | false =>
      have hdecoded := ht.decoded hpassed
      simp only [Sent.passedThrough, Bool.or_eq_false_iff] at hpassed
      rw [Sent.decoded, hs.encoded (by decide), hpassed.1.2] at hdecoded
      exact Option.some.inj hdecoded
  · rintro rfl
    exact transparent_of_same hs.typed fun _ => rfl

/-- A response that is compressed in time. -/
theorem transparent_compressed_iff (hallowed : bodyAllowed status = true)
    (hget : headerGet (h "Content-Encoding") = "")
    (hevents : isEventStream (headerGet (h "Content-Type")) = false)
    (hstream : z.decode stream = some written) (hencoding : h' "Content-Encoding" = ["gzip"])
    (hlength : h' "Content-Length" = []) :
    Transparent z ⟨status, h, written⟩ ⟨status, h', stream⟩ written ↔ h.encoded = false := by
  constructor
  · intro ht
    by_contra hencoded
    rw [Bool.not_eq_false] at hencoded
    have hpassed : Sent.passedThrough ⟨status, h, written⟩ = true := by
      simp [Sent.passedThrough, hencoded]
    -- what has an encoding of its own would keep it
    have hsame : h' "Content-Encoding" = h "Content-Encoding" :=
      (ht.passed hpassed).2 "Content-Encoding" (by decide)
    rw [← hsame, hencoding] at hget
    exact absurd hget (by decide)
  · intro hencoded
    have hpassed : Sent.passedThrough ⟨status, h, written⟩ = false := by
      simp [Sent.passedThrough, hencoded, hevents, hallowed]
    refine ⟨rfl, fun h => absurd (hpassed.symm.trans h) (by decide), fun _ => ?_,
      fun _ _ => hlength⟩
    have hnow : h'.encoded = true := by
      rw [Header.encoded, hencoding]
      decide
    rw [Sent.decoded, if_pos hnow, if_pos hencoding]
    exact hstream

theorem Response.finish_of_sent {w : Response} {p : Nat × Header} (hw : w.sent = some p) :
    w.finish = ⟨p.1, p.2, w.body⟩ := by
  rw [Response.finish, hw]
  rfl

/-- The first call of `WriteHeader` or `Write` fixes the headers, if they are not fixed. -/
theorem finish_of_deciding (w : Response) {a : HandlerAct} (ha : a.deciding = true)
    (next : List HandlerAct) : ((a :: next).foldl Response.act w).finish =
      ⟨(w.sent.getD (a.status, w.header)).1, (w.sent.getD (a.status, w.header)).2,
        w.body ++ if bodyAllowed (w.sent.getD (a.status, w.header)).1 then writtenBy (a :: next)
          else []⟩ := by
  have hact : (w.act a).sent = some (w.sent.getD (a.status, w.header)) ∧ (w.act a).body =
      w.body ++ if bodyAllowed (w.sent.getD (a.status, w.header)).1 then a.bytes else [] := by
    cases a with
    | header | flush => cases ha
    | writeHeader status =>
      exact ⟨w.sent_writeHeader _, (w.body_writeHeader _).trans (by simp [HandlerAct.bytes])⟩
    | write b => exact ⟨w.sent_write b, w.body_write b⟩
  obtain ⟨hsent, hbody⟩ := foldl_act_of_sent hact.1 next
  rw [List.foldl_cons, Response.finish_of_sent hsent, hbody, hact.2, List.append_assoc, writtenBy,
    writtenBy, List.flatMap_cons]
  split <;> rfl

/-! ## Before the decision -/

/-- The response behind the middleware, and the response without it, before the decision. -/
structure Response.Before (flushed : Bool) (w w' : Response) : Prop where
  header : w.header.SameBut ["Vary"] w'.header
  bodies : w.body = [] ∧ w'.body = []
  unfixed : flushed = false → w.sent = none ∧ w'.sent = none
  fixed : flushed = true → ∃ k k', w.sent = some (200, k) ∧ w'.sent = some (200, k') ∧
    k.SameBut ["Vary"] k'

theorem decides_congr (hs : h.SameBut ["Vary"] h') (a : HandlerAct) :
    decides detectContentType h' a = decides detectContentType h a := by
  have hencoding := hs "Content-Encoding" (by decide)
  have htype := hs "Content-Type" (by decide)
  cases a with
  | header | flush => rfl
  | writeHeader status => simp only [decides, hencoding, htype]
  | write b =>
    have hsniff : sniff detectContentType h' b "Content-Type" =
        sniff detectContentType h b "Content-Type" := by
      unfold sniff
      rw [htype]
      split
      · simp [HeaderChange.apply]
      · exact htype
    simp only [decides, hencoding, hsniff]

/-- What is decided on is no event stream. -/
theorem not_isEventStream_of_decides {a : HandlerAct}
    (hdec : decides detectContentType h a = true) :
    headerGet (h "Content-Encoding") = "" ∧
      isEventStream (headerGet (h "Content-Type")) = false := by
  have hcomp : ∀ contentType, compressible contentType = true →
      isEventStream contentType = false := fun contentType hc => by
    by_contra hevents
    rw [Bool.not_eq_false] at hevents
    unfold isEventStream at hevents
    unfold compressible at hc
    rw [if_pos hevents] at hc
    cases hc
  cases a with
  | header | flush => cases hdec
  | writeHeader status =>
    simp only [decides, Bool.and_eq_true, decide_eq_true_eq] at hdec
    exact ⟨hdec.1.2, hcomp _ hdec.2⟩
  | write b =>
    simp only [decides, Bool.and_eq_true, decide_eq_true_eq] at hdec
    refine ⟨hdec.1, ?_⟩
    by_cases htype : headerGet (h "Content-Type") = ""
    · rw [htype]
      decide
    · have hsame : sniff detectContentType h b = h := if_neg htype
      rw [hsame] at hdec
      exact hcomp _ hdec.2

theorem headerAt_same (hs : h.SameBut ["Vary"] h') (a : HandlerAct) :
    h.SameBut ["Vary", "Content-Type"] (headerAt detectContentType h' a) := by
  intro key hkey
  cases a with
  | header | flush | writeHeader => exact hs.typed key hkey
  | write b =>
    have htype : key ≠ "Content-Type" := fun he => hkey (by simp [he])
    exact (sniff_of_ne h' b htype).trans (hs.typed key hkey)

/-- The compressor is fed what the handler writes. -/
theorem fed_calls (next : List HandlerAct) :
    fed (next.filterMap HandlerAct.call?) = writtenBy next := by
  induction next with
  | nil => rfl
  | cons a next ih =>
    rw [writtenBy, List.flatMap_cons, ← writtenBy, ← ih]
    cases a <;> rfl

theorem bodyAllowed_of_decides {a : HandlerAct} (hdec : decides detectContentType h a = true) :
    bodyAllowed a.status = true := by
  cases a with
  | header | flush => cases hdec
  | writeHeader status =>
    simp only [decides, Bool.and_eq_true] at hdec
    exact hdec.1.1
  | write b => rfl

/-- The headers of a compressed response name the encoding and no length. -/
theorem gzipHeader_encoding (h : Header) :
    gzipHeader h "Content-Encoding" = ["gzip"] ∧ gzipHeader h "Content-Length" = [] := by
  simp [gzipHeader, HeaderChange.apply]

/-- A response that is not compressed is transparent. -/
theorem transparent_of_not_decides {flushed : Bool} {w w' : Response} (hw : w.Before flushed w')
    {a : HandlerAct} (ha : a.deciding = true)
    (hdec : decides detectContentType w.header a = false) (next : List HandlerAct) :
    Transparent z ((a :: next).foldl Response.act w).finish
      ((a :: next).foldl (GzipResponseWriter.act detectContentType)
        (⟨w', none, false⟩ : GzipResponseWriter z)).close.responseWriter.finish
      (writtenBy (a :: next)) := by
  have hdec' : decides detectContentType w'.header a = false :=
    (decides_congr hw.header a).trans hdec
  rw [finish_of_deciding w ha, List.foldl_cons, act_of_not_decides ha hdec',
    foldl_act_of_plain rfl rfl, ← List.foldl_cons, GzipResponseWriter.close,
    finish_of_deciding _ ha]
  obtain ⟨hbody, hbody'⟩ := hw.bodies
  cases flushed with
  | false =>
    obtain ⟨hsent, hsent'⟩ := hw.unfixed rfl
    simp only [hsent, hsent', hbody, hbody', Option.getD_none, List.nil_append]
    exact transparent_of_same (headerAt_same hw.header a) fun hallowed => if_pos hallowed
  | true =>
    obtain ⟨k, k', hsent, hsent', hk⟩ := hw.fixed rfl
    simp only [hsent, hsent', hbody, hbody', Option.getD_some, List.nil_append]
    exact transparent_of_same hk.typed fun hallowed => if_pos hallowed

/-- A response that is compressed is transparent if that is decided in time. -/
theorem transparent_iff_of_decides {flushed : Bool} {w w' : Response} (hw : w.Before flushed w')
    {a : HandlerAct} (hdec : decides detectContentType w.header a = true)
    (next : List HandlerAct) :
    Transparent z ((a :: next).foldl Response.act w).finish
        ((a :: next).foldl (GzipResponseWriter.act detectContentType)
          (⟨w', none, false⟩ : GzipResponseWriter z)).close.responseWriter.finish
        (writtenBy (a :: next)) ↔
      if flushed then z.stream ((a :: next).filterMap HandlerAct.call?) = writtenBy (a :: next)
      else w.header.encoded = false := by
  have ha : a.deciding = true := by cases a <;> first | rfl | cases hdec
  have hallowed := bodyAllowed_of_decides hdec
  have hcalls : a.call?.toList ++ next.filterMap HandlerAct.call? =
      (a :: next).filterMap HandlerAct.call? := by
    cases hcall : a.call? <;> simp [hcall]
  obtain ⟨hbody, hbody'⟩ := hw.bodies
  obtain ⟨hget, hevents⟩ := not_isEventStream_of_decides hdec
  have hdec' : decides detectContentType w'.header a = true :=
    (decides_congr hw.header a).trans hdec
  rw [finish_of_deciding w ha, List.foldl_cons]
  cases flushed with
  | false =>
    obtain ⟨hsent, hsent'⟩ := hw.unfixed rfl
    obtain ⟨st, hd, hz, hs, hstream⟩ :=
      @act_of_decides detectContentType z w' a hdec' (by rwa [hsent'])
    rw [hsent', Option.getD_none] at hs
    obtain ⟨hend, hfinal⟩ := @foldl_act_of_compressing detectContentType z _ st _ hd hz hs hallowed
      next
    rw [Response.finish_of_sent hend, hfinal, hstream, hcalls]
    simp only [hsent, hbody, hbody', Option.getD_none, List.nil_append, if_pos hallowed,
      Bool.false_eq_true, if_false]
    obtain ⟨hencoding, hlength⟩ := gzipHeader_encoding (headerAt detectContentType w'.header a)
    refine transparent_compressed_iff hallowed hget hevents ?_ hencoding hlength
    rw [z.decode_stream, fed_calls]
  | true =>
    obtain ⟨k, k', hsent, hsent', hk⟩ := hw.fixed rfl
    obtain ⟨st, hd, hz, hs, hstream⟩ :=
      @act_of_decides detectContentType z w' a hdec' (by rw [hsent']; rfl)
    rw [hsent', Option.getD_some] at hs
    obtain ⟨hend, hfinal⟩ := @foldl_act_of_compressing detectContentType z _ st _ hd hz hs rfl next
    rw [Response.finish_of_sent hend, hfinal, hstream, hcalls]
    simp only [hsent, hbody, hbody', Option.getD_some, List.nil_append, if_true]
    exact transparent_late_iff hk

/-- The first call of `WriteHeader` or `Write` settles whether a response is transparent. -/
theorem transparent_iff_of_deciding {flushed : Bool} {w w' : Response}
    (hw : w.Before flushed w') {a : HandlerAct} (ha : a.deciding = true)
    (next : List HandlerAct) :
    Transparent z ((a :: next).foldl Response.act w).finish
        ((a :: next).foldl (GzipResponseWriter.act detectContentType)
          (⟨w', none, false⟩ : GzipResponseWriter z)).close.responseWriter.finish
        (writtenBy (a :: next)) ↔ (decides detectContentType w.header a = true →
      if flushed then z.stream ((a :: next).filterMap HandlerAct.call?) = writtenBy (a :: next)
      else w.header.encoded = false) := by
  cases hdec : decides detectContentType w.header a with
  | false => exact iff_of_true (transparent_of_not_decides hw ha hdec next) nofun
  | true =>
    rw [transparent_iff_of_decides hw hdec next]
    exact ⟨fun h _ => h, fun h => h rfl⟩

theorem Response.Before.change {flushed : Bool} {w w' : Response} (hw : w.Before flushed w')
    (c : HeaderChange) : Response.Before flushed { w with header := c.apply w.header }
      { w' with header := c.apply w'.header } :=
  ⟨hw.header.apply c, hw.bodies, hw.unfixed, hw.fixed⟩

/-- A flush fixes the headers before anything is decided. -/
theorem Response.Before.flush {flushed : Bool} {w w' : Response} (hw : w.Before flushed w') :
    w.flush.Before true w'.flush := by
  have hkeep : ∀ w : Response, w.flush.header = w.header ∧ w.flush.body = w.body := fun w => by
    unfold Response.flush Response.writeHeader
    split <;> exact ⟨rfl, rfl⟩
  obtain ⟨hheader, hbody⟩ := hkeep w
  obtain ⟨hheader', hbody'⟩ := hkeep w'
  refine ⟨by rw [hheader, hheader']; exact hw.header, by rw [hbody, hbody']; exact hw.bodies,
    nofun, fun _ => ?_⟩
  rw [Response.flush, Response.flush, w.sent_writeHeader, w'.sent_writeHeader]
  cases flushed with
  | false =>
    obtain ⟨hsent, hsent'⟩ := hw.unfixed rfl
    rw [hsent, hsent']
    exact ⟨w.header, w'.header, rfl, rfl, hw.header⟩
  | true =>
    obtain ⟨k, k', hsent, hsent', hk⟩ := hw.fixed rfl
    rw [hsent, hsent']
    exact ⟨k, k', rfl, rfl, hk⟩

/-- A handler that writes nothing. -/
theorem transparent_of_unwritten {flushed : Bool} {w w' : Response} (hw : w.Before flushed w') :
    Transparent z w.finish w'.finish [] := by
  obtain ⟨hbody, hbody'⟩ := hw.bodies
  cases flushed with
  | false =>
    obtain ⟨hsent, hsent'⟩ := hw.unfixed rfl
    rw [Response.finish, Response.finish, hsent, hsent', hbody, hbody']
    exact transparent_of_same hw.header.typed fun _ => rfl
  | true =>
    obtain ⟨k, k', hsent, hsent', hk⟩ := hw.fixed rfl
    rw [Response.finish_of_sent hsent, Response.finish_of_sent hsent', hbody, hbody']
    exact transparent_of_same hk.typed fun _ => rfl

/-- From any state before the decision on. -/
theorem transparent_iff_of_before {flushed : Bool} {w w' : Response} (hw : w.Before flushed w')
    (next : List HandlerAct) :
    Transparent z (next.foldl Response.act w).finish
        (next.foldl (GzipResponseWriter.act detectContentType)
          (⟨w', none, false⟩ : GzipResponseWriter z)).close.responseWriter.finish
        (writtenBy next) ↔ DecidesInTime detectContentType z flushed w.header next := by
  induction next generalizing flushed w w' with
  | nil => exact iff_true_intro (transparent_of_unwritten hw)
  | cons a next ih =>
    cases a with
    | header c => exact ih (hw.change c)
    | flush =>
      have hheader : w.flush.header = w.header := by
        unfold Response.flush Response.writeHeader
        split <;> rfl
      rw [DecidesInTime, ← hheader]
      exact ih hw.flush
    | writeHeader status => exact transparent_iff_of_deciding hw rfl next
    | write b => exact transparent_iff_of_deciding hw rfl next

/-- The body of a response without the middleware. -/
theorem body_finish (w : Response) (next : List HandlerAct) :
    (next.foldl Response.act w).finish.body = w.body ++
      if bodyAllowed (next.foldl Response.act w).finish.status then writtenBy next else [] := by
  induction next generalizing w with
  | nil => simp [writtenBy, Response.finish]
  | cons a next ih =>
    cases a with
    | header c => exact ih _
    | flush =>
      refine (ih w.flush).trans (congrArg (· ++ _) ?_)
      exact w.body_writeHeader 200
    | writeHeader | write => rw [finish_of_deciding w rfl]

/-- Every response is sent transparently through the middleware if and only if the client
does not take gzip, or the handler's first call of `WriteHeader` or `Write` decides in time. -/
theorem gzipMiddleware_transparent_iff (detectContentType : List UInt8 → String)
    (z : StreamCodec UInt8) (r : Negotiation) (next : List HandlerAct) (h : Header) :
    Transparent z (respond next h) (gzipMiddleware detectContentType z r next h)
        (writtenBy next) ↔
      (r.compresses = true → DecidesInTime detectContentType z false h next) := by
  rw [gzipMiddleware]
  cases hr : r.compresses with
  | false =>
    refine iff_of_true (transparent_of_same (fun _ _ => rfl) fun hallowed => ?_) nofun
    exact (body_finish { header := h } next).trans (if_pos hallowed)
  | true =>
    have hbefore : Response.Before false { header := h }
        { header := HeaderChange.apply h (.add "Vary" "Accept-Encoding") } := by
      refine ⟨fun key hkey => ?_, ⟨rfl, rfl⟩, fun _ => ⟨rfl, rfl⟩, nofun⟩
      exact Function.update_of_ne (fun he => hkey (List.mem_singleton.mpr he)) ..
    exact (transparent_iff_of_before hbefore next).trans ⟨fun h _ => h, fun h => h rfl⟩

/-! ## A flush before the decision -/

/-- What the stored stream begins with. -/
private def magic : List UInt8 := [0x1f, 0x8b]

/-- A compressor that only marks what goes through it. -/
private def marking : Compressor UInt8 where
  State := Bool
  reset := false
  write begun piece := (true, if begun then [piece] else [magic, piece])
  flush begun := (true, if begun then [] else [magic])
  close begun := if begun then [] else [magic]

private theorem marking_streamFrom (begun : Bool) (cs : List (CompressorCall UInt8)) :
    marking.streamFrom begun cs = (if begun then [] else magic) ++ fed cs := by
  induction cs generalizing begun with
  | nil => cases begun <;> rfl
  | cons c cs ih =>
    have hstep : marking.streamFrom begun (c :: cs) =
        (marking.call begun c).2.flatten ++ ((if true then [] else magic) ++ fed cs) :=
      congrArg ((marking.call begun c).2.flatten ++ ·) (by cases c <;> exact ih true)
    rw [hstep]
    cases c <;> cases begun <;> simp [Compressor.call, marking, fed, CompressorCall.piece]

private def markingCodec : StreamCodec UInt8 where
  toCompressor := marking
  decode := magic.isPrefixOf?
  prompt _ := nofun
  decode_stream cs := congrArg magic.isPrefixOf? (marking_streamFrom false cs)

/-- A handler flushes before it writes a text. -/
private def flushedText : List HandlerAct :=
  [.header (.set "Content-Type" "text/plain"), .flush, .write [104, 105]]

/-- The text is compressed, and nothing that was sent says so. -/
theorem flushedText_not_transparent :
    ¬ Transparent markingCodec (respond flushedText fun _ => [])
      (gzipMiddleware (fun _ => "text/plain") markingCodec ⟨["gzip"], []⟩ flushedText fun _ => [])
      (writtenBy flushedText) := by
  intro ht
  exact absurd (ht.decoded (by decide)) (by decide)

end Broom.Api
