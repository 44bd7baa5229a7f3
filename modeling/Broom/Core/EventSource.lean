import Mathlib.Data.List.TakeWhile

/-!
# Event streams

How a browser reads a stream of server-sent events: lines end with a line feed, a carriage
return or both, a line sets a field, and an empty line dispatches a message if there is
data. A frame that gives the identifier, the name and the data of a message on one line each
is read as exactly that message, whatever was read before it.
-/

namespace Broom.Core.EventSource

/-- A message that is dispatched. -/
structure Message where
  event : List Char
  data : List Char
  lastEventId : List Char
  deriving DecidableEq, Repr

/-- The buffers of the parser. -/
structure Parser where
  event : List Char := []
  data : List Char := []
  lastEventId : List Char := []
  deriving DecidableEq, Repr

/-- The finished lines of a stream, with the characters of the current one in front and
whether a carriage return came last. -/
def linesFrom (acc : List Char) (afterCR : Bool) : List Char → List (List Char)
  | [] => []
  | c :: rest =>
    if c = '\n' then
      if afterCR then linesFrom [] false rest else acc :: linesFrom [] false rest
    else if c = '\r' then acc :: linesFrom [] true rest
    else linesFrom (acc ++ [c]) false rest

/-- The finished lines of a stream. -/
def lines (stream : List Char) : List (List Char) := linesFrom [] false stream

/-- A value without the space after its colon. -/
def dropSpace (value : List Char) : List Char :=
  if value.head? = some ' ' then value.tail else value

/-- The name and the value of a line. -/
def field (line : List Char) : List Char × List Char :=
  (line.takeWhile (· ≠ ':'), dropSpace ((line.dropWhile (· ≠ ':')).drop 1))

/-- A field sets a buffer; fields with other names are ignored. -/
def Parser.setField (p : Parser) (name value : List Char) : Parser :=
  if name = ['e', 'v', 'e', 'n', 't'] then { p with event := value }
  else if name = ['d', 'a', 't', 'a'] then { p with data := p.data ++ value ++ ['\n'] }
  else if name = ['i', 'd'] then
    if '\x00' ∈ value then p else { p with lastEventId := value }
  else p

/-- An empty line dispatches the data as a message. -/
def Parser.dispatch (p : Parser) : Parser × List Message :=
  ({ lastEventId := p.lastEventId },
    if p.data = [] then []
    else [{ event := if p.event = [] then "message".toList else p.event
            data := if p.data.getLast? = some '\n' then p.data.dropLast else p.data
            lastEventId := p.lastEventId }])

/-- Read a line; one that starts with a colon is a comment. -/
def Parser.line (p : Parser) (l : List Char) : Parser × List Message :=
  if l = [] then p.dispatch
  else if l.head? = some ':' then (p, [])
  else (p.setField (field l).1 (field l).2, [])

/-- Read lines in order. -/
def Parser.run (p : Parser) : List (List Char) → List Message
  | [] => []
  | l :: ls => (p.line l).2 ++ (p.line l).1.run ls

/-- The messages of a stream. -/
def messages (stream : List Char) : List Message := Parser.run {} (lines stream)

/-! ## Frames -/

/-- The text of a message: its identifier, name and data, and an empty line. -/
def frame (m : Message) : List Char :=
  ['i', 'd', ':', ' '] ++ m.lastEventId ++ ['\n'] ++
    (['e', 'v', 'e', 'n', 't', ':', ' '] ++ m.event ++ ['\n']) ++
    (['d', 'a', 't', 'a', ':', ' '] ++ m.data ++ ['\n']) ++ ['\n']

/-- No end of a line, and no NUL. -/
def OneLine (cs : List Char) : Prop := '\n' ∉ cs ∧ '\r' ∉ cs ∧ '\x00' ∉ cs

instance (cs : List Char) : Decidable (OneLine cs) := inferInstanceAs (Decidable (_ ∧ _ ∧ _))

/-- A message that fits a frame. -/
structure Message.Framed (m : Message) : Prop where
  event_ne : m.event ≠ []
  event : OneLine m.event
  data : OneLine m.data
  lastEventId : OneLine m.lastEventId

theorem linesFrom_append {acc l : List Char} (hl : OneLine l) (rest : List Char) :
    linesFrom acc false (l ++ '\n' :: rest) = (acc ++ l) :: linesFrom [] false rest := by
  induction l generalizing acc with
  | nil => simp [linesFrom]
  | cons c l ih =>
    obtain ⟨hn, hr, h0⟩ := hl
    rw [List.mem_cons, not_or] at hn hr h0
    rw [List.cons_append, linesFrom, if_neg (Ne.symm hn.1), if_neg (Ne.symm hr.1),
      ih ⟨hn.2, hr.2, h0.2⟩, List.append_assoc, List.singleton_append]

/-- A line of a stream is its next line. -/
theorem lines_append {l : List Char} (hl : OneLine l) (rest : List Char) :
    lines (l ++ '\n' :: rest) = l :: lines rest := linesFrom_append hl rest

theorem OneLine.append {l l' : List Char} (h : OneLine l) (h' : OneLine l') :
    OneLine (l ++ l') := by
  simp only [OneLine, List.mem_append, not_or]
  exact ⟨⟨h.1, h'.1⟩, ⟨h.2.1, h'.2.1⟩, h.2.2, h'.2.2⟩

/-- The lines of a frame. -/
theorem lines_frame {m : Message} (h : m.Framed) (rest : List Char) :
    lines (frame m ++ rest) = (['i', 'd', ':', ' '] ++ m.lastEventId) ::
      (['e', 'v', 'e', 'n', 't', ':', ' '] ++ m.event) ::
      (['d', 'a', 't', 'a', ':', ' '] ++ m.data) :: [] :: lines rest := by
  have hsplit : frame m ++ rest = (['i', 'd', ':', ' '] ++ m.lastEventId) ++ '\n' ::
      ((['e', 'v', 'e', 'n', 't', ':', ' '] ++ m.event) ++ '\n' ::
      ((['d', 'a', 't', 'a', ':', ' '] ++ m.data) ++ '\n' :: ([] ++ '\n' :: rest))) := by
    simp [frame]
  rw [hsplit, lines_append (.append (by decide) h.lastEventId),
    lines_append (.append (by decide) h.event), lines_append (.append (by decide) h.data),
    lines_append (by decide)]

/-- A frame is read as its message, whatever the last identifier was. -/
theorem run_frame {m : Message} (h : m.Framed) (last : List Char) (ls : List (List Char)) :
    Parser.run { lastEventId := last } ((['i', 'd', ':', ' '] ++ m.lastEventId) ::
      (['e', 'v', 'e', 'n', 't', ':', ' '] ++ m.event) ::
      (['d', 'a', 't', 'a', ':', ' '] ++ m.data) :: [] :: ls) =
      m :: Parser.run { lastEventId := m.lastEventId } ls := by
  have hid := h.lastEventId.2.2
  simp [Parser.run, Parser.line, field, dropSpace, Parser.setField, Parser.dispatch, hid,
    h.event_ne]

/-- A stream of frames is read as its messages. -/
theorem messages_frames {ms : List Message} (h : ∀ m ∈ ms, m.Framed) :
    messages (ms.flatMap frame) = ms := by
  have hrun (last : List Char) : Parser.run { lastEventId := last } (lines (ms.flatMap frame)) =
      ms := by
    induction ms generalizing last with
    | nil => rfl
    | cons m ms ih =>
      rw [List.flatMap_cons, lines_frame (h m (List.mem_cons_self ..)),
        run_frame (h m (List.mem_cons_self ..)), ih fun m' hm' => h m' (List.mem_cons_of_mem _ hm')]
  exact hrun []

end Broom.Core.EventSource
