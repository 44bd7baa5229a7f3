import Broom.Api.Streaming
import Broom.Web.Hops
import Broom.Web.LogTail

/-!
# A live page

`useJob` reads a snapshot of a job, opens an event stream behind it, queues the events and
applies them in batches. The stream may break and come back, be refused, or end with the
closing event, after which the page reads a new snapshot. Here the hook runs against the
handler of the stream, with other parties at work on the job.
-/

namespace Broom.Web

open Broom.Core Broom.Engine Broom.Jobs

/-! ## Numbers in requests -/

/-- The digits of a number, if there is nothing else. -/
def readNat (s : List Char) : Option Nat :=
  if s = [] then none
  else if s.all Char.isDigit then some (Nat.ofDigitChars 10 s 0)
  else none

/-- A signed 64-bit number in a text: zero if there is none, the nearest one if it is out of
range. -/
def parseInt (s : List Char) : Int :=
  match s with
  | '-' :: digits => ((readNat digits).map fun n : Nat => max (-(n : Int)) (-2 ^ 63)).getD 0
  | '+' :: digits => ((readNat digits).map fun n : Nat => min (n : Int) (2 ^ 63 - 1)).getD 0
  | digits => ((readNat digits).map fun n : Nat => min (n : Int) (2 ^ 63 - 1)).getD 0

/-! ## The hook -/

/-- An `EventSource`. -/
structure Source where
  /-- The number in its URL. -/
  after : List Char
  lastEventId : List Char := []
  /-- Its connection is open. -/
  connected : Bool := false
  /-- The messages it took from the connection. -/
  read : Nat := 0

/-- Where the stream resumes: the browser's header wins over the URL. -/
def Source.resume (source : Source) : Int :=
  if source.lastEventId = [] then parseInt source.after else parseInt source.lastEventId

/-- A request for a snapshot. -/
inductive Sync
  | sent
  | answered (job : Job)

/-- The variables of `useJob`: its state, and those of its effect. -/
structure LivePage where
  job : Option Job := none
  error : Option String := none
  sessionExpired : Bool := false
  scanned : Finset String := ∅
  es : Option Source := none
  cancelled : Bool := false
  /-- An animation frame is requested. -/
  frame : Bool := false
  pending : List JobEvent := []
  /-- The requests under way. -/
  syncs : List Sync := []

namespace LivePage

def fail (p : LivePage) (message : String) (status : Option Nat) : LivePage :=
  if p.cancelled then p
  else { p with error := some message
                sessionExpired := p.sessionExpired || status = some 401 }

def flush (p : LivePage) : LivePage :=
  if p.cancelled ∨ p.pending = [] then { p with frame := false }
  else
    match p.job with
    | none => { p with frame := false, pending := [] }
    | some job =>
      { p with frame := false
               pending := []
               job := some (applyEvents job p.scanned p.pending).1
               scanned := (applyEvents job p.scanned p.pending).2 }

def queue (p : LivePage) (ev : JobEvent) : LivePage :=
  { p with pending := p.pending ++ [ev], frame := true }

def close (p : LivePage) : LivePage := { p with es := none }

def openSource (p : LivePage) (after : Nat) : LivePage :=
  { p.close with es := some { after := Nat.toDigits 10 after } }

/-- Ask for a snapshot. -/
def sync (p : LivePage) : LivePage := { p with syncs := p.syncs ++ [.sent] }

/-- A snapshot arrives. -/
def load (p : LivePage) (job : Job) : LivePage :=
  if p.cancelled then p
  else
    let p := { p with pending := [], job := some job, error := none, sessionExpired := false }
    if job.state.terminal then p.close else p.openSource job.lastSeq

def onEvent (p : LivePage) (raw : EventSource.Message) : LivePage :=
  match Json.parse (String.ofList raw.data) with
  | none => p
  | some data =>
    match Schema.event data with
    | none => p
    | some ev => p.queue ev.toJobEvent

/-- A message arrives; there is a listener for each type of event. -/
def dispatch (p : LivePage) (raw : EventSource.Message) : LivePage :=
  if (EventType.ofName (String.ofList raw.event)).isSome then p.onEvent raw else p

/-- The closing event arrives, or the server refused the stream. -/
def resync (p : LivePage) : LivePage := p.close.sync

/-- The page goes away. -/
def leave (p : LivePage) : LivePage := { p with cancelled := true, frame := false }.close

/-- The first render. -/
def mount : LivePage := ({} : LivePage).sync

end LivePage

/-! ## Page and server -/

/-- A page and the handler of its stream; the handler holds the job. -/
structure LiveJob where
  page : LivePage
  server : Api.Stream

/-- What can happen next. -/
inductive LiveAct
  /-- The handler takes a step, or another party operates on the job. -/
  | server (a : Api.Act)
  /-- The server answers a request. -/
  | answer (i : Nat)
  /-- The answer arrives. -/
  | load (i : Nat)
  /-- The request fails. -/
  | fail (i : Nat) (message : String) (status : Option Nat)
  /-- The browser connects its stream. -/
  | connect
  /-- The server refuses the stream. -/
  | refuse
  /-- The connection breaks. -/
  | drop
  /-- The next message arrives. -/
  | deliver
  /-- The closing event arrives. -/
  | done
  /-- The browser paints. -/
  | paint
  | leave

/-- The handler sees that its client has gone. -/
def gone : Api.Act → Bool
  | .disconnect => true
  | _ => false

variable (fmt : GoFormat) (wf : WireFormat)

/-- The source has taken one more message. -/
def Source.take (source : Source) (raw : EventSource.Message) : Source :=
  { source with lastEventId := raw.lastEventId, read := source.read + 1 }

/-- One step of the page, the browser, the network or the server. -/
def LiveJob.step (s : LiveJob) : LiveAct → Option LiveJob
  | .server a =>
    if gone a ∧ s.page.es.any Source.connected then none
    else (s.server.step a).map fun server => { s with server := server }
  | .answer i =>
    match s.page.syncs[i]? with
    | some .sent =>
      s.server.job.snapshot.map fun snap =>
        { s with page := { s.page with
            syncs := s.page.syncs.set i (.answered (encodeSnapshot wf snap)) } }
    | _ => none
  | .load i =>
    match s.page.syncs[i]? with
    | some (.answered job) =>
      some { s with page := { s.page with syncs := s.page.syncs.eraseIdx i }.load job }
    | _ => none
  | .fail i message status =>
    if i < s.page.syncs.length then
      some { s with page := { s.page with syncs := s.page.syncs.eraseIdx i }.fail message status }
    else none
  | .connect =>
    match s.page.es with
    | some source =>
      if source.connected then none
      else some { page := { s.page with es := some { source with connected := true, read := 0 } }
                  server := Api.handleJobEvents s.server.job source.resume }
    | none => none
  | .refuse =>
    match s.page.es with
    | some source => if source.connected then none else some { s with page := s.page.resync }
    | none => none
  | .drop =>
    match s.page.es with
    | some source =>
      if source.connected then
        some { s with page := { s.page with es := some { source with connected := false } } }
      else none
    | none => none
  | .deliver =>
    match s.page.es with
    | some source =>
      if source.connected then
        (s.server.written[source.read]?).map fun ev =>
          let page := { s.page with es := some (source.take (message fmt ev)) }
          { s with page := page.dispatch (message fmt ev) }
      else none
    | none => none
  | .done =>
    match s.page.es with
    | some source =>
      if source.connected ∧ source.read = s.server.written.length ∧ s.server.done.isSome then
        some { s with page := s.page.resync }
      else none
    | none => none
  | .paint => if s.page.frame then some { s with page := s.page.flush } else none
  | .leave => if s.page.cancelled then none else some { s with page := s.page.leave }

/-- A page that was just opened, and a server that streams nothing to it yet. -/
def LiveJob.start (j : Jobs.Job) : LiveJob where
  page := .mount
  server := { Api.handleJobEvents j 0 with pc := .returned }

/-- What the steps do. -/
inductive LiveJob.Moves (s : LiveJob) : LiveAct → LiveJob → Prop
  | server {a : Api.Act} {server : Api.Stream} (hs : s.server.step a = some server)
    (hgone : gone a = true → ∀ source ∈ s.page.es, source.connected = false) :
    Moves s (.server a) { s with server := server }
  | answer {i : Nat} {snap : Snapshot} (hi : s.page.syncs[i]? = some .sent)
    (hsnap : s.server.job.snapshot = some snap) :
    Moves s (.answer i) { s with page := { s.page with
      syncs := s.page.syncs.set i (.answered (encodeSnapshot wf snap)) } }
  | load {i : Nat} {job : Job} (hi : s.page.syncs[i]? = some (.answered job)) :
    Moves s (.load i)
      { s with page := { s.page with syncs := s.page.syncs.eraseIdx i }.load job }
  | fail {i : Nat} (message : String) (status : Option Nat) (hi : i < s.page.syncs.length) :
    Moves s (.fail i message status)
      { s with page := { s.page with syncs := s.page.syncs.eraseIdx i }.fail message status }
  | connect {source : Source} (hes : s.page.es = some source) (hc : source.connected = false) :
    Moves s .connect
      { page := { s.page with es := some { source with connected := true, read := 0 } }
        server := Api.handleJobEvents s.server.job source.resume }
  | refuse {source : Source} (hes : s.page.es = some source) (hc : source.connected = false) :
    Moves s .refuse { s with page := s.page.resync }
  | drop {source : Source} (hes : s.page.es = some source) (hc : source.connected = true) :
    Moves s .drop
      { s with page := { s.page with es := some { source with connected := false } } }
  | deliver {source : Source} {ev : Event} (hes : s.page.es = some source)
    (hc : source.connected = true) (hev : s.server.written[source.read]? = some ev) :
    Moves s .deliver { s with page :=
      { s.page with es := some (source.take (message fmt ev)) }.dispatch (message fmt ev) }
  | done {source : Source} (hes : s.page.es = some source) (hc : source.connected = true)
    (hread : source.read = s.server.written.length) (hdone : s.server.done.isSome = true) :
    Moves s .done { s with page := s.page.resync }
  | paint (hframe : s.page.frame = true) : Moves s .paint { s with page := s.page.flush }
  | leave (hc : s.page.cancelled = false) : Moves s .leave { s with page := s.page.leave }

variable {fmt : GoFormat} {wf : WireFormat}

theorem LiveJob.moves_of_step {s s' : LiveJob} {a : LiveAct} (hs : s.step fmt wf a = some s') :
    s.Moves fmt wf a s' := by
  cases a with
  | server a =>
    simp only [step] at hs
    split at hs
    · cases hs
    · rename_i hgone
      obtain ⟨server, hserver, rfl⟩ := Option.map_eq_some_iff.mp hs
      refine .server hserver fun hg source hes => ?_
      rw [Option.mem_def] at hes
      simpa [hg, hes] using hgone
  | answer i =>
    simp only [step] at hs
    split at hs
    · obtain ⟨snap, hsnap, rfl⟩ := Option.map_eq_some_iff.mp hs
      exact .answer ‹_› hsnap
    · cases hs
  | load i =>
    simp only [step] at hs
    split at hs <;> cases hs
    exact .load ‹_›
  | fail i message status =>
    obtain ⟨hi, rfl⟩ := Option.ite_some_none_eq_some.mp hs
    exact .fail message status hi
  | connect =>
    simp only [step] at hs
    split at hs
    · split at hs <;> cases hs
      rename_i hc
      exact .connect ‹_› (Bool.eq_false_of_not_eq_true hc)
    · cases hs
  | refuse =>
    simp only [step] at hs
    split at hs
    · split at hs <;> cases hs
      rename_i hc
      exact .refuse ‹_› (Bool.eq_false_of_not_eq_true hc)
    · cases hs
  | drop =>
    simp only [step] at hs
    split at hs
    · split at hs <;> cases hs
      exact .drop ‹_› ‹_›
    · cases hs
  | deliver =>
    simp only [step] at hs
    split at hs
    · split at hs
      · obtain ⟨ev, hev, rfl⟩ := Option.map_eq_some_iff.mp hs
        exact .deliver ‹_› ‹_› hev
      · cases hs
    · cases hs
  | done =>
    simp only [step] at hs
    split at hs
    · obtain ⟨⟨hc, hread, hdone⟩, rfl⟩ := Option.ite_some_none_eq_some.mp hs
      exact .done ‹_› hc hread hdone
    · cases hs
  | paint =>
    obtain ⟨hframe, rfl⟩ := Option.ite_some_none_eq_some.mp hs
    exact .paint hframe
  | leave =>
    simp only [step] at hs
    split at hs <;> cases hs
    rename_i hc
    exact .leave (Bool.eq_false_of_not_eq_true hc)

/-! ## The handler of the stream -/

/-- The handler has written the events after its start, and what its channel holds comes
next, whether or not it can write the rest. -/
def Served (server : Api.Stream) (after : Nat) : Prop :=
  ∃ n, server.Wrote after n ∧ ∀ ch, server.pc = .receiving ch →
    server.job.Current n ch ∨ server.job.Behind n ch

theorem Served.step {server server' : Api.Stream} {after : Nat} {a : Api.Act}
    (h : Served server after) (hs : server.step a = some server') : Served server' after := by
  obtain ⟨n, hw, hreads⟩ := h
  cases Api.Stream.moves_of_step hs with
  | job op ha =>
    refine ⟨n, hw.job op, fun ch hpc => ?_⟩
    have hlt : ch < server.job.chans.length := by
      rcases hreads ch hpc with ⟨c, hch, -⟩ | ⟨c, hch, -⟩ <;>
        exact (List.getElem?_eq_some_iff.mp hch).1
    have hchan : server.pc.chan = some ch := by
      rw [show server.pc = .receiving ch from hpc]
      rfl
    obtain ⟨ev, now, rfl⟩ | ⟨st, errMsg, now, rfl⟩ | hsame :=
      Api.Stream.admits_cases hw.channels ha hchan hlt
    · rcases hreads ch hpc with hcur | hbeh
      · exact hcur.publish hw.channels hw.le ev now
      · exact .inr (hbeh.publish hw.channels ev now)
    · rcases hreads ch hpc with hcur | hbeh
      · exact .inl (hcur.setState hw.channels st errMsg now)
      · exact .inr (hbeh.setState hw.channels st errMsg now)
    · exact (hreads ch hpc).imp hsame.current hsame.behind
  | subscribe hpc =>
    refine ⟨n, hw.subscribe _, fun ch hch => ?_⟩
    obtain rfl := Api.Pc.receiving.inj hch
    rw [hw.lastSeq_eq]
    exact .inl (Job.subscribe_current hw.le)
  | receive hpc hr =>
    rcases hreads _ hpc with hcur | hbeh
    · obtain ⟨hev, hcur⟩ := hcur.receive hr
      refine ⟨n + 1, hw.receive hr hev, fun ch hch => ?_⟩
      obtain rfl := Api.Pc.receiving.inj (hpc.symm.trans hch)
      exact .inl hcur
    · obtain ⟨hev, hbeh⟩ := hbeh.receive hr
      refine ⟨n + 1, hw.receive hr hev, fun ch hch => ?_⟩
      obtain rfl := Api.Pc.receiving.inj (hpc.symm.trans hch)
      exact .inr hbeh
  | unsubscribe hpc | leave hpc => exact ⟨n, hw.unsubscribe _ _, fun _ hch => by cases hch⟩
  | closed hpc | finish hpc | resume hpc | disconnect hpc =>
    exact ⟨n, hw.of_same rfl rfl rfl, fun _ hch => by cases hch⟩

/-- A new handler starts at a position of the job. -/
theorem Served.restart {server : Api.Stream} {after pos : Nat} (h : Served server after)
    (hpos : pos ≤ server.job.events.length) :
    Served (Api.handleJobEvents server.job pos) pos := by
  obtain ⟨n, hw, -⟩ := h
  obtain ⟨n', hw', -⟩ := Api.Stream.inReach_handleJobEvents hw.consistent hw.channels
    (hw.consistent.seq_eq ▸ hpos)
  exact ⟨n', hw', fun _ hch => by cases hch⟩

/-- What the handler wrote, by position. -/
theorem Served.written {server : Api.Stream} {after i : Nat} {ev : Event}
    (h : Served server after) (hev : server.written[i]? = some ev) :
    server.job.events[after + i]? = some ev := by
  obtain ⟨n, hw, -⟩ := h
  rw [hw.written, List.getElem?_drop, List.getElem?_take] at hev
  split at hev
  · exact hev
  · cases hev

/-- A step of the handler, or of another party, records one event at most. -/
theorem stream_events_step {server server' : Api.Stream} {a : Api.Act}
    (hs : server.step a = some server') :
    server.job.events <+: server'.job.events ∧
      server'.job.events.length ≤ server.job.events.length + 1 := by
  have hsame {j : Jobs.Job} (he : j.events = server.job.events) :
      server.job.events <+: j.events ∧ j.events.length ≤ server.job.events.length + 1 := by
    rw [he]
    exact ⟨List.prefix_rfl, Nat.le_succ _⟩
  cases Api.Stream.moves_of_step hs with
  | job op =>
    rcases events_step server.job op with he | ⟨ev, he⟩
    · exact hsame he
    · rw [he]
      exact ⟨List.prefix_append .., by rw [List.length_append]; rfl⟩
  | receive hpc hr =>
    obtain ⟨c, rest, -, -, rfl⟩ := Job.receive_eq hr
    exact hsame rfl
  | unsubscribe hpc | leave hpc => exact hsame (Api.Stream.unsubscribe_same ..).1
  | _ => exact hsame rfl

/-- So does a step of the whole. -/
theorem LiveJob.events_step {s s' : LiveJob} {a : LiveAct} (hs : s.step fmt wf a = some s') :
    s.server.job.events <+: s'.server.job.events ∧
      s'.server.job.events.length ≤ s.server.job.events.length + 1 := by
  cases moves_of_step hs with
  | server hserver => exact stream_events_step hserver
  | _ => exact ⟨List.prefix_rfl, Nat.le_succ _⟩

/-! ## Messages -/

/-- Counts that the browser's numbers can hold, and events that its schema accepts. -/
structure Bounded (events : List Event) : Prop where
  emittable : ∀ ev ∈ events, Emittable ev
  length_lt : events.length < 2 ^ 53

theorem Bounded.of_prefix {events events' : List Event} (h : Bounded events')
    (hpre : events <+: events') : Bounded events :=
  ⟨fun ev hev => h.emittable ev (hpre.subset hev), Nat.lt_of_le_of_lt hpre.length_le h.length_lt⟩

/-- The number of an event is read back from a URL or a header. -/
theorem parseInt_toDigits {n : Nat} (h : n < 2 ^ 53) : parseInt (Nat.toDigits 10 n) = n := by
  have hread : readNat (Nat.toDigits 10 n) = some n := by
    have hall : (Nat.toDigits 10 n).all Char.isDigit = true :=
      List.all_eq_true.mpr fun c hc => Json.isDigit_of_mem_toDigits hc
    rw [readNat, if_neg Nat.toDigits_ne_nil, if_pos hall, Nat.ofDigitChars_ten_toDigits]
  obtain ⟨c, cs, hcs, hc⟩ := Json.head_toDigits n
  rw [hcs] at hread ⊢
  unfold parseInt
  split
  · rename_i heq
    obtain rfl : c = '-' := (List.cons.inj heq).1
    exact absurd hc (by decide)
  · rename_i heq
    obtain rfl : c = '+' := (List.cons.inj heq).1
    exact absurd hc (by decide)
  · rw [hread, Option.map_some, Option.getD_some]
    omega

/-- The message of an event is queued as that event. -/
theorem LivePage.dispatch_message (p : LivePage) {ev : Event} (h : Emittable ev) :
    p.dispatch (message fmt ev) = p.queue (encodeEvent ev) := by
  have hname : EventType.ofName (String.ofList (message fmt ev).event) = some ev.type := by
    rw [message, String.ofList_toList, EventType.ofName_name]
  have hparse : Json.parse (String.ofList (message fmt ev).data) =
      some ((Encoding.event fmt).put ev) := Json.parse_text _
  rw [dispatch, hname, Option.isSome_some, if_pos rfl, onEvent, hparse]
  simp only [schema_event fmt h]
  rfl

/-! ## What the page follows -/

/-- The page shows the first events of a job, up to a position, and what it queued comes
next. -/
structure LivePage.Follows (p : LivePage) (events : List Event) (base n pos : Nat) : Prop where
  shows : ∀ job ∈ p.job, base ≤ n ∧ job.Shows (viewOf (events.take n)) n
  le : n ≤ pos
  within : pos ≤ events.length
  pending : p.pending = ((events.take pos).drop n).map encodeEvent

namespace LivePage

variable {p : LivePage} {events : List Event} {base n pos : Nat}

/-- Only the shown job and the queue matter. -/
theorem Follows.of_same {p' : LivePage} (h : p.Follows events base n pos) (hjob : p'.job = p.job)
    (hpending : p'.pending = p.pending) : p'.Follows events base n pos :=
  ⟨by rw [hjob]; exact h.shows, h.le, h.within, by rw [hpending]; exact h.pending⟩

/-- The first events stay what they are. -/
theorem Follows.mono {events' : List Event} (h : p.Follows events base n pos)
    (hpre : events <+: events') : p.Follows events' base n pos := by
  have htake {k : Nat} (hk : k ≤ events.length) : events'.take k = events.take k := by
    obtain ⟨tail, rfl⟩ := hpre
    rw [List.take_append_of_le_length hk]
  refine ⟨fun job hjob => ?_, h.le, h.within.trans hpre.length_le, ?_⟩
  · rw [htake (h.le.trans h.within)]
    exact h.shows job hjob
  · rw [htake h.within]
    exact h.pending

/-- The next event is queued. -/
theorem Follows.queue {ev : Event} (h : p.Follows events base n pos)
    (hev : events[pos]? = some ev) :
    (p.queue (encodeEvent ev)).Follows events base n (pos + 1) := by
  have hlt : pos < events.length := (List.getElem?_eq_some_iff.mp hev).1
  refine ⟨h.shows, h.le.trans (Nat.le_succ pos), hlt, ?_⟩
  have hlen : n ≤ (events.take pos).length := by
    rw [List.length_take]
    have := h.le
    omega
  rw [LivePage.queue, h.pending, List.take_add_one, hev, Option.toList_some,
    List.drop_append_of_le_length hlen, List.map_append]
  rfl

/-- Deliveries compose. -/
theorem delivered_append {ds ds' : List Event} {k m : Nat} (h : Delivered events k ds m)
    (h' : Delivered events m ds' n) : Delivered events k (ds ++ ds') n := by
  induction h with
  | done k => exact h'
  | next hev _ ih => exact .next hev (ih h')
  | replay hi hev _ ih => exact .replay hi hev (ih h')

/-- What follows a position is a delivery. -/
theorem delivered_drop_take (hle : n ≤ pos) (hwithin : pos ≤ events.length) :
    Delivered events n ((events.take pos).drop n) pos := by
  induction pos, hle using Nat.le_induction with
  | base =>
    rw [List.drop_take, Nat.sub_self, List.take_zero]
    exact .done n
  | succ pos hle ih =>
    have hev := List.getElem?_eq_getElem (show pos < events.length from hwithin)
    have hlen : n ≤ (events.take pos).length := by
      rw [List.length_take]
      omega
    rw [List.take_add_one, hev, Option.toList_some, List.drop_append_of_le_length hlen]
    exact delivered_append (ih (by omega)) (.next hev (.done _))

/-- The queued events are applied, if there is a job to apply them to. -/
theorem Follows.flush (h : p.Follows events base n pos)
    (hnum : ∀ i ev, events[i]? = some ev → ev.seq = i + 1) :
    ∃ n', n ≤ n' ∧ p.flush.Follows events base n' pos := by
  have hall : ([] : List JobEvent) = ((events.take pos).drop pos).map encodeEvent := by
    rw [List.drop_take, Nat.sub_self, List.take_zero, List.map_nil]
  unfold LivePage.flush
  split
  · exact ⟨n, le_rfl, h.shows, h.le, h.within, h.pending⟩
  · split
    · exact ⟨pos, h.le, fun job hjob => absurd hjob (by simp [*]), le_rfl, h.within, hall⟩
    · rename_i job hjob
      obtain ⟨hbase, hshows⟩ := h.shows job hjob
      have hd : Delivered events n [(events.take pos).drop n].flatten pos := by
        rw [List.flatten_singleton]
        exact delivered_drop_take h.le h.within
      have hbatch := hshows.batches hnum hd p.scanned
      refine ⟨pos, h.le, fun job' hjob' => ?_, le_rfl, h.within, hall⟩
      obtain rfl := Option.some.inj hjob'
      rw [h.pending]
      exact ⟨hbase.trans h.le, hbatch⟩

/-- A loaded snapshot replaces what was shown and queued. -/
theorem Follows.load {job : Job} (hc : p.cancelled = false) (hbase : base ≤ n)
    (hwithin : n ≤ events.length) (hshows : job.Shows (viewOf (events.take n)) n) :
    (p.load job).Follows events base n n := by
  have hnil : ([] : List JobEvent) = ((events.take n).drop n).map encodeEvent := by
    rw [List.drop_take, Nat.sub_self, List.take_zero, List.map_nil]
  unfold LivePage.load
  rw [if_neg (by simp [hc])]
  split
  all_goals
    refine ⟨fun job' hjob' => ?_, le_rfl, hwithin, hnil⟩
    obtain rfl := Option.some.inj hjob'
    exact ⟨hbase, hshows⟩

end LivePage

/-! ## One thing at a time -/

/-- Either one request is under way or one source is there, or neither. -/
structure LivePage.Alone (p : LivePage) : Prop where
  idle : ∀ source ∈ p.es, p.syncs = []
  single : p.syncs.length ≤ 1

namespace LivePage

variable {p p' : LivePage}

theorem Alone.of_same (h : p.Alone) (hes : p'.es = p.es) (hsyncs : p'.syncs = p.syncs) :
    p'.Alone :=
  ⟨by rw [hes, hsyncs]; exact h.idle, by rw [hsyncs]; exact h.single⟩

theorem Alone.of_nil (h : p.syncs = []) : p.Alone :=
  ⟨fun _ _ => h, (congrArg List.length h).trans_le (Nat.zero_le 1)⟩

/-- The only request under way. -/
theorem Alone.eq_singleton (h : p.Alone) {i : Nat} {r : Sync} (hi : p.syncs[i]? = some r) :
    i = 0 ∧ p.syncs = [r] := by
  obtain ⟨hlt, hr⟩ := List.getElem?_eq_some_iff.mp hi
  have hlen := h.single
  obtain rfl : i = 0 := by omega
  refine ⟨rfl, ?_⟩
  obtain ⟨r', hr'⟩ := List.length_eq_one_iff.mp (show p.syncs.length = 1 by omega)
  rw [hr'] at hi ⊢
  obtain rfl := Option.some.inj hi
  rfl

theorem Alone.no_source (h : p.Alone) {i : Nat} {r : Sync} (hi : p.syncs[i]? = some r)
    (source : Source) : source ∉ p.es := by
  intro hes
  rw [h.idle source hes] at hi
  cases hi

/-- The last request is taken off the list. -/
theorem Alone.eraseIdx (h : p.Alone) {i : Nat} {r : Sync} (hi : p.syncs[i]? = some r) :
    p.syncs.eraseIdx i = [] := by
  obtain ⟨rfl, hone⟩ := h.eq_singleton hi
  rw [hone]
  rfl

theorem fail_same (p : LivePage) (message : String) (status : Option Nat) :
    (p.fail message status).es = p.es ∧ (p.fail message status).syncs = p.syncs ∧
      (p.fail message status).job = p.job ∧ (p.fail message status).pending = p.pending := by
  unfold LivePage.fail
  split <;> exact ⟨rfl, rfl, rfl, rfl⟩

theorem flush_same (p : LivePage) : p.flush.es = p.es ∧ p.flush.syncs = p.syncs ∧
    p.flush.cancelled = p.cancelled ∧ p.flush.error = p.error := by
  unfold LivePage.flush
  split
  · exact ⟨rfl, rfl, rfl, rfl⟩
  · split <;> exact ⟨rfl, rfl, rfl, rfl⟩

theorem load_syncs (p : LivePage) (job : Job) : (p.load job).syncs = p.syncs := by
  unfold LivePage.load
  split
  · rfl
  · split <;> rfl

theorem dispatch_same (p : LivePage) (raw : EventSource.Message) :
    (p.dispatch raw).es = p.es ∧ (p.dispatch raw).syncs = p.syncs ∧
      (p.dispatch raw).job = p.job ∧ (p.dispatch raw).cancelled = p.cancelled ∧
      (p.dispatch raw).error = p.error := by
  unfold dispatch onEvent
  split
  · split
    · exact ⟨rfl, rfl, rfl, rfl, rfl⟩
    · split <;> exact ⟨rfl, rfl, rfl, rfl, rfl⟩
  · exact ⟨rfl, rfl, rfl, rfl, rfl⟩

/-- The request replaces the source. -/
theorem Alone.resync {source : Source} (h : p.Alone) (hes : p.es = some source) :
    p.resync.syncs = [.sent] := by
  change p.syncs ++ [.sent] = [.sent]
  rw [h.idle source hes]
  rfl

end LivePage

theorem LivePage.Alone.step {s s' : LiveJob} {a : LiveAct} (h : s.page.Alone)
    (hs : s.step fmt wf a = some s') : s'.page.Alone := by
  cases LiveJob.moves_of_step hs with
  | server hserver => exact h
  | answer hi hsnap =>
    refine ⟨fun source hes => absurd hes (h.no_source hi source), ?_⟩
    rw [List.length_set]
    exact h.single
  | load hi =>
    refine .of_nil ?_
    rw [load_syncs]
    exact h.eraseIdx hi
  | fail message status hi =>
    refine .of_nil ?_
    rw [(fail_same _ message status).2.1]
    exact h.eraseIdx (List.getElem?_eq_getElem hi)
  | connect hes hc => exact ⟨fun _ _ => h.idle _ hes, h.single⟩
  | drop hes hc => exact ⟨fun _ _ => h.idle _ hes, h.single⟩
  | refuse hes hc | done hes hc hread hdone =>
    exact ⟨fun _ hnone => absurd hnone (Option.not_mem_none _),
      (congrArg List.length (h.resync hes)).le⟩
  | deliver hes hc hev =>
    refine .of_nil ?_
    rw [(dispatch_same _ _).2.1]
    exact h.idle _ hes
  | paint hframe => exact h.of_same s.page.flush_same.1 s.page.flush_same.2.1
  | leave hc => exact ⟨fun _ hnone => absurd hnone (Option.not_mem_none _), h.single⟩

/-! ## Every step -/

/-- A page and its server agree on where the stream stands: its source resumes at the
position that the page has got to, and no answer under way is older. -/
structure LiveJob.Sound (s : LiveJob) (base n pos : Nat) : Prop where
  follows : s.page.Follows s.server.job.events base n pos
  base_le : base ≤ s.server.job.events.length
  served : ∃ after, Served s.server after ∧
    ∀ source ∈ s.page.es, source.connected = true → after + source.read = pos
  resume : ∀ source ∈ s.page.es, source.resume = pos
  answered : ∀ job, Sync.answered job ∈ s.page.syncs → ∃ m, base ≤ m ∧ pos ≤ m ∧
    m ≤ s.server.job.events.length ∧ job.Shows (viewOf (s.server.job.events.take m)) m
  alone : s.page.Alone

namespace LiveJob

variable {s s' : LiveJob} {base n pos : Nat}

theorem Sound.consistent (h : s.Sound base n pos) : s.server.job.Consistent := by
  obtain ⟨after, ⟨n, hw, -⟩, -⟩ := h.served
  exact hw.consistent

/-- The position moves on when the page's queue grows. -/
theorem Sound.deliver (h : s.Sound base n pos) (hb : Bounded s.server.job.events)
    {source : Source} {ev : Event} (hes : s.page.es = some source)
    (hc : source.connected = true) (hev : s.server.written[source.read]? = some ev)
    (halone : ({ s.page with es := some (source.take (message fmt ev)) }.dispatch
      (message fmt ev)).Alone) :
    LiveJob.Sound { s with page :=
      { s.page with es := some (source.take (message fmt ev)) }.dispatch (message fmt ev) }
      base n (pos + 1) := by
  obtain ⟨after, hserved, hpos⟩ := h.served
  have hat := hserved.written hev
  rw [hpos source hes hc] at hat
  have hseq := h.consistent.numbered pos ev hat
  have hlt : pos < s.server.job.events.length := (List.getElem?_eq_some_iff.mp hat).1
  rw [LivePage.dispatch_message _ (hb.emittable ev (List.mem_of_getElem? hat))] at halone ⊢
  refine ⟨(h.follows.queue hat).of_same rfl rfl, h.base_le, ⟨after, hserved, ?_⟩, ?_, ?_, halone⟩
  · intro source' hes' _
    obtain rfl := Option.some.inj hes'
    rw [← hpos source hes hc]
    rfl
  · intro source' hes'
    obtain rfl := Option.some.inj hes'
    have hlast : (source.take (message fmt ev)).lastEventId = Nat.toDigits 10 (pos + 1) :=
      congrArg (Nat.toDigits 10) hseq
    rw [Source.resume, hlast, if_neg Nat.toDigits_ne_nil,
      parseInt_toDigits (Nat.lt_of_le_of_lt hlt hb.length_lt)]
  · intro job hjob
    have hnil : s.page.syncs = [] := h.alone.idle source hes
    simp [LivePage.queue, hnil] at hjob

/-- The page goes back to the server for a snapshot. -/
theorem Sound.resync (h : s.Sound base n pos) {source : Source} (hes : s.page.es = some source)
    (halone : s.page.resync.Alone) : LiveJob.Sound { s with page := s.page.resync } base n pos := by
  obtain ⟨after, hserved, -⟩ := h.served
  have hno (source : Source) : source ∉ s.page.resync.es := Option.not_mem_none source
  refine ⟨h.follows.of_same rfl rfl, h.base_le,
    ⟨after, hserved, fun source hsome => absurd hsome (hno source)⟩,
    fun source hsome => absurd hsome (hno source), fun job hjob => ?_, halone⟩
  change Sync.answered job ∈ s.page.resync.syncs at hjob
  rw [h.alone.resync hes] at hjob
  cases List.mem_singleton.mp hjob

/-- An answer arrives at the page. -/
theorem Sound.load (h : s.Sound base n pos) (hb : Bounded s.server.job.events) {i : Nat}
    {job : Job} (hi : s.page.syncs[i]? = some (.answered job))
    (halone : ({ s.page with syncs := s.page.syncs.eraseIdx i }.load job).Alone) :
    ∃ n' pos', n ≤ n' ∧ LiveJob.Sound
      { s with page := { s.page with syncs := s.page.syncs.eraseIdx i }.load job }
      base n' pos' := by
  obtain ⟨after, hserved, -⟩ := h.served
  have hnil : s.page.syncs.eraseIdx i = [] := h.alone.eraseIdx hi
  obtain ⟨m, hbase, hle, hwithin, hshows⟩ := h.answered job (List.mem_of_getElem? hi)
  have hanswered : ∀ job', Sync.answered job' ∉
      ({ s.page with syncs := s.page.syncs.eraseIdx i }.load job).syncs := by
    intro job' hjob'
    rw [LivePage.load_syncs, hnil] at hjob'
    cases hjob'
  cases hc : s.page.cancelled with
  | true =>
    have heq : { s.page with syncs := s.page.syncs.eraseIdx i }.load job =
        { s.page with syncs := s.page.syncs.eraseIdx i } := if_pos hc
    rw [heq] at halone hanswered ⊢
    have hno := h.alone.no_source hi
    exact ⟨n, pos, le_rfl, h.follows.of_same rfl rfl, h.base_le,
      ⟨after, hserved, fun source hsome => absurd hsome (hno source)⟩,
      fun source hsome => absurd hsome (hno source),
      fun job' hjob' => absurd hjob' (hanswered job'), halone⟩
  | false =>
    have hsource : ∀ source ∈ ({ s.page with syncs := s.page.syncs.eraseIdx i }.load job).es,
        source = { after := Nat.toDigits 10 m } := by
      intro source
      unfold LivePage.load
      rw [if_neg (by simp [hc]), ← hshows.lastSeq]
      split
      · intro hsome
        cases hsome
      · intro hsome
        exact (Option.some.inj hsome).symm
    refine ⟨m, m, h.follows.le.trans hle, LivePage.Follows.load hc hbase hwithin hshows, h.base_le,
      ⟨after, hserved, ?_⟩, ?_, fun job' hjob' => absurd hjob' (hanswered job'), halone⟩
    · intro source hsome hconn
      obtain rfl := hsource source hsome
      cases hconn
    · intro source hsome
      obtain rfl := hsource source hsome
      rw [Source.resume, if_pos rfl, parseInt_toDigits (Nat.lt_of_le_of_lt hwithin hb.length_lt)]

/-- The server answers with what it has. -/
theorem Sound.answer (h : s.Sound base n pos) {i : Nat} {snap : Snapshot}
    (hi : s.page.syncs[i]? = some .sent) (hsnap : s.server.job.snapshot = some snap)
    (halone : LivePage.Alone { s.page with
      syncs := s.page.syncs.set i (.answered (encodeSnapshot wf snap)) }) :
    LiveJob.Sound { s with page := { s.page with
      syncs := s.page.syncs.set i (.answered (encodeSnapshot wf snap)) } } base n pos := by
  obtain ⟨after, hserved, -⟩ := h.served
  obtain ⟨rfl, hone⟩ := h.alone.eq_singleton hi
  have hno := h.alone.no_source hi
  obtain ⟨snap', hsnap', hshows⟩ := shows_encodeSnapshot wf h.consistent
  rw [Option.some.inj (hsnap'.symm.trans hsnap)] at hshows
  have hset : s.page.syncs.set 0 (.answered (encodeSnapshot wf snap)) =
      [.answered (encodeSnapshot wf snap)] := by
    rw [hone]
    rfl
  refine ⟨h.follows.of_same rfl rfl, h.base_le,
    ⟨after, hserved, fun source hsome => absurd hsome (hno source)⟩,
    fun source hsome => absurd hsome (hno source), fun job hjob => ?_, halone⟩
  obtain rfl : job = encodeSnapshot wf snap := by simpa [hset] using hjob
  exact ⟨_, h.base_le, h.follows.within, le_rfl, by rwa [List.take_length]⟩

/-- No step takes the page back. -/
theorem Sound.step {a : LiveAct} (h : s.Sound base n pos) (hs : s.step fmt wf a = some s')
    (hb : Bounded s'.server.job.events) :
    ∃ n' pos', n ≤ n' ∧ s'.Sound base n' pos' := by
  obtain ⟨after, hserved, hpos⟩ := h.served
  have halone := h.alone.step hs
  cases moves_of_step hs with
  | server hserver hgone =>
    have hpre := (stream_events_step hserver).1
    refine ⟨n, pos, le_rfl, h.follows.mono hpre, h.base_le.trans hpre.length_le,
      ⟨after, hserved.step hserver, hpos⟩, h.resume, fun job hjob => ?_, halone⟩
    obtain ⟨m, hbase, hle, hwithin, hshows⟩ := h.answered job hjob
    refine ⟨m, hbase, hle, hwithin.trans hpre.length_le, ?_⟩
    obtain ⟨tail, htail⟩ := hpre
    rwa [← htail, List.take_append_of_le_length hwithin]
  | answer hi hsnap => exact ⟨n, pos, le_rfl, h.answer hi hsnap halone⟩
  | load hi => exact h.load hb hi halone
  | fail message status hi =>
    obtain ⟨hes, hsyncs, hjob, hpending⟩ := LivePage.fail_same
      { s.page with syncs := s.page.syncs.eraseIdx _ } message status
    have hno := h.alone.no_source (List.getElem?_eq_getElem hi)
    refine ⟨n, pos, le_rfl, h.follows.of_same hjob hpending, h.base_le, ⟨after, hserved, ?_⟩, ?_,
      fun job hjob => ?_, halone⟩
    · rw [hes]
      exact fun source hsome => absurd hsome (hno source)
    · rw [hes]
      exact fun source hsome => absurd hsome (hno source)
    · rw [hsyncs, h.alone.eraseIdx (List.getElem?_eq_getElem hi)] at hjob
      cases hjob
  | connect hes hc =>
    have hresume := h.resume _ hes
    refine ⟨n, pos, le_rfl, h.follows.of_same rfl rfl, h.base_le, ⟨pos, ?_, ?_⟩, ?_, h.answered,
      halone⟩
    · rw [hresume]
      exact hserved.restart h.follows.within
    · intro source hsome _
      obtain rfl := Option.some.inj hsome
      rfl
    · intro source hsome
      obtain rfl := Option.some.inj hsome
      exact hresume
  | refuse hes hc | done hes hc hread hdone => exact ⟨n, pos, le_rfl, h.resync hes halone⟩
  | drop hes hc =>
    have hresume := h.resume _ hes
    refine ⟨n, pos, le_rfl, h.follows.of_same rfl rfl, h.base_le, ⟨after, hserved, ?_⟩, ?_,
      h.answered, halone⟩
    · intro source hsome hconn
      obtain rfl := Option.some.inj hsome
      cases hconn
    · intro source hsome
      obtain rfl := Option.some.inj hsome
      exact hresume
  | deliver hes hc hev => exact ⟨n, pos + 1, le_rfl, h.deliver hb hes hc hev halone⟩
  | paint hframe =>
    obtain ⟨n', hle, hfollows⟩ := h.follows.flush h.consistent.numbered
    obtain ⟨hes, hsyncs, -⟩ := s.page.flush_same
    refine ⟨n', pos, hle, hfollows, h.base_le, ⟨after, hserved, ?_⟩, ?_, ?_, halone⟩
    · rwa [hes]
    · rw [hes]
      exact h.resume
    · rw [hsyncs]
      exact h.answered
  | leave hc =>
    have hno (source : Source) : source ∉ s.page.leave.es := Option.not_mem_none source
    exact ⟨n, pos, le_rfl, h.follows.of_same rfl rfl, h.base_le,
      ⟨after, hserved, fun source hsome => absurd hsome (hno source)⟩,
      fun source hsome => absurd hsome (hno source), h.answered, halone⟩

/-! ## Whole runs -/

/-- A page that has not loaded anything. -/
theorem Sound.start {j : Jobs.Job} (hj : j.Consistent) (hc : j.Channels) :
    (LiveJob.start j).Sound j.events.length 0 0 := by
  have hno (source : Source) : source ∉ (LiveJob.start j).page.es := Option.not_mem_none source
  have hfollows : (LiveJob.start j).page.Follows j.events j.events.length 0 0 :=
    ⟨fun job hjob => absurd hjob (Option.not_mem_none job), le_rfl, Nat.zero_le _, rfl⟩
  have hserved : Served (LiveJob.start j).server 0 :=
    ⟨0, ⟨hj, hc, rfl, le_rfl, Nat.zero_le _, rfl⟩, fun _ hch => by cases hch⟩
  refine ⟨hfollows, le_rfl, ⟨0, hserved, fun _ h => absurd h (hno _)⟩,
    fun _ h => absurd h (hno _), fun job hjob => ?_, fun _ h => absurd h (hno _), le_rfl⟩
  cases List.mem_singleton.mp hjob

theorem events_prefix {acts : List LiveAct}
    (hrun : execute (LiveJob.step fmt wf) s acts = some s') :
    s.server.job.events <+: s'.server.job.events :=
  invariant_of_execute hrun (fun s' => s.server.job.events <+: s'.server.job.events)
    List.prefix_rfl fun _ _ _ hs hpre => hpre.trans (events_step hs).1

/-- What a page follows at the end of a run goes beyond what it followed before. -/
theorem Sound.run {acts : List LiveAct} (h : s.Sound base n pos)
    (hrun : execute (LiveJob.step fmt wf) s acts = some s') (hb : Bounded s'.server.job.events) :
    ∃ n' pos', n ≤ n' ∧ s'.Sound base n' pos' := by
  refine invariant_of_execute hrun
    (fun s' => Bounded s'.server.job.events → ∃ n' pos', n ≤ n' ∧ s'.Sound base n' pos')
    (fun _ => ⟨n, pos, le_rfl, h⟩) (fun s₁ a s₂ hs ih hb => ?_) hb
  obtain ⟨n₁, pos₁, hle₁, h₁⟩ := ih (hb.of_prefix (events_step hs).1)
  obtain ⟨n₂, pos₂, hle₂, h₂⟩ := h₁.step hs hb
  exact ⟨n₂, pos₂, hle₁.trans hle₂, h₂⟩

end LiveJob

/-- Whatever is published, received, cut and reconnected: a page that loads a job and keeps
it live never has more than one request or stream. The resources, outcomes, errors, summary,
phase and last event that it shows are what one snapshot would have shown at an earlier moment
of the run, and it never goes back. -/
theorem live_page_shows (fmt : GoFormat) (wf : WireFormat) (id sessionId accountId : String)
    (spec : Engine.Spec) (now : Nat) (ops : List JobOp) (acts : List LiveAct) (s : LiveJob)
    (hrun : execute (LiveJob.step fmt wf)
      (.start ((newJob id sessionId accountId spec now).run ops)) acts = some s)
    (hbounded : Bounded s.server.job.events) :
    s.page.syncs.length + s.page.es.toList.length ≤ 1 ∧
    ∀ job ∈ s.page.job,
      (∃ past rest s₁ snap, acts = past ++ rest ∧
        execute (LiveJob.step fmt wf)
          (.start ((newJob id sessionId accountId spec now).run ops)) past = some s₁ ∧
        s₁.server.job.snapshot = some snap ∧ job.shown = (encodeSnapshot wf snap).shown) ∧
      ∀ past rest s₁ job₁, acts = past ++ rest →
        execute (LiveJob.step fmt wf)
          (.start ((newJob id sessionId accountId spec now).run ops)) past = some s₁ →
        job₁ ∈ s₁.page.job → job₁.lastSeq ≤ job.lastSeq := by
  have hstart := LiveJob.Sound.start ((newJob_consistent id sessionId accountId spec now).run ops).1
    ((newJob_channels id sessionId accountId spec now).run ops)
  obtain ⟨n, pos, -, h⟩ := hstart.run hrun hbounded
  refine ⟨?_, fun job hjob => ⟨?_, ?_⟩⟩
  · cases hes : s.page.es with
    | none => exact h.alone.single
    | some source =>
      rw [h.alone.idle source hes]
      rfl
  · obtain ⟨hbase, hshows⟩ := h.follows.shows job hjob
    obtain ⟨past, rest, s₁, hacts, hpast, hrest, hlen⟩ :=
      exists_moment (f := fun s : LiveJob => s.server.job.events.length)
        (fun _ _ _ hs => (LiveJob.events_step hs).2) hrun hbase
        (h.follows.le.trans h.follows.within)
    obtain ⟨n₁, pos₁, -, h₁⟩ := hstart.run hpast (hbounded.of_prefix (LiveJob.events_prefix hrest))
    obtain ⟨snap, hsnap, hshows₁⟩ := shows_encodeSnapshot wf h₁.consistent
    have htake : s.server.job.events.take n = s₁.server.job.events := by
      rw [← hlen]
      exact (List.prefix_iff_eq_take.mp (LiveJob.events_prefix hrest)).symm
    rw [htake] at hshows
    exact ⟨past, rest, s₁, snap, hacts, hpast, hsnap, hshows.shown_eq (hlen ▸ hshows₁)⟩
  · intro past rest s₁ job₁ hacts hpast hjob₁
    rw [hacts, execute_append, hpast, Option.bind_some] at hrun
    obtain ⟨n₁, pos₁, -, h₁⟩ := hstart.run hpast (hbounded.of_prefix (LiveJob.events_prefix hrun))
    obtain ⟨n₂, pos₂, hle, h₂⟩ := h₁.run hrun hbounded
    rw [(h₁.follows.shows job₁ hjob₁).2.lastSeq, (h₂.follows.shows job hjob).2.lastSeq]
    exact hle

/-- A topic that was found. -/
private def liveTopic : Event where
  type := .resourceFound
  resourceType := "sns-topic"
  region := "us-east-1"
  identifier := "a"
  nukable := some true

/-- A page loads a scan and opens its stream. A topic is found, the connection breaks before
the page has the event, and the browser connects again. -/
def reconnectActs : List LiveAct :=
  [.answer 0, .load 0, .connect, .server .subscribe, .server (.job (.publish liveTopic 3)),
    .server .receive, .drop, .connect, .server .subscribe, .server .receive, .deliver]

theorem reconnectActs_shows :
    ∃ s, execute (LiveJob.step smallFormat ⟨smallFormat.time, smallFormat.duration⟩)
        (.start ((newJob "j" "s" "1" ⟨.scan, [], [], none, "", [], 0⟩ 1).run [])) reconnectActs =
        some s ∧
      s.page.syncs.length + s.page.es.toList.length ≤ 1 ∧
      ∀ job ∈ s.page.job, ∃ s₁ : LiveJob, ∃ snap, s₁.server.job.snapshot = some snap ∧
        job.shown = (encodeSnapshot ⟨smallFormat.time, smallFormat.duration⟩ snap).shown := by
  obtain ⟨s, hrun, hevents⟩ : ∃ s,
      execute (LiveJob.step smallFormat ⟨smallFormat.time, smallFormat.duration⟩)
        (.start ((newJob "j" "s" "1" ⟨.scan, [], [], none, "", [], 0⟩ 1).run [])) reconnectActs =
        some s ∧ s.server.job.events = [{ liveTopic with seq := 1, atTime := 3 }] := ⟨_, rfl, rfl⟩
  have hbounded : Bounded s.server.job.events := by
    rw [hevents]
    refine ⟨fun ev hev => ?_, by decide⟩
    obtain rfl := List.mem_singleton.mp hev
    exact nofun
  obtain ⟨hone, hshows⟩ := live_page_shows smallFormat ⟨smallFormat.time, smallFormat.duration⟩
    "j" "s" "1" ⟨.scan, [], [], none, "", [], 0⟩ 1 [] reconnectActs s hrun hbounded
  refine ⟨s, hrun, hone, fun job hjob => ?_⟩
  obtain ⟨past, rest, s₁, snap, -, -, hsnap, hshown⟩ := (hshows job hjob).1
  exact ⟨s₁, snap, hsnap, hshown⟩

end Broom.Web
