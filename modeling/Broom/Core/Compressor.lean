import Mathlib.Data.List.Basic

/-!
# Streaming compression

A compressor stands before a writer. It is fed piece by piece and flushed now and then, hands
its output to the writer in pieces of its own, and ends its stream when it is closed.
-/

namespace Broom.Core

/-- A compressor; each call tells what it hands to the writer. -/
structure Compressor (α : Type) where
  State : Type
  reset : State
  write : State → List α → State × List (List α)
  flush : State → State × List (List α)
  close : State → List (List α)

inductive CompressorCall (α : Type)
  | write (piece : List α)
  | flush

/-- What a call feeds to a compressor. -/
def CompressorCall.piece {α : Type} : CompressorCall α → List α
  | .write piece => piece
  | .flush => []

/-- What has been fed to a compressor. -/
def fed {α : Type} (cs : List (CompressorCall α)) : List α := cs.flatMap CompressorCall.piece

namespace Compressor

variable {α : Type} (z : Compressor α)

def call (st : z.State) : CompressorCall α → z.State × List (List α)
  | .write piece => z.write st piece
  | .flush => z.flush st

/-- The stream from some state on, up to its end. -/
def streamFrom (st : z.State) : List (CompressorCall α) → List α
  | [] => (z.close st).flatten
  | c :: cs => (z.call st c).2.flatten ++ streamFrom (z.call st c).1 cs

/-- The whole stream. -/
def stream (cs : List (CompressorCall α)) : List α := z.streamFrom z.reset cs

end Compressor

/-- A compressor whose streams can be read back. -/
structure StreamCodec (α : Type) extends Compressor α where
  decode : List α → Option (List α)
  /-- A stream begins with the first piece that is fed. -/
  prompt : ∀ piece, (write reset piece).2 ≠ []
  decode_stream : ∀ cs, decode (toCompressor.stream cs) = some (fed cs)

end Broom.Core
