import Grf.Error

/-! # Sinks

A sink takes the bytes of an output. It may have a limit: of a delivery that would take it beyond the
limit, it takes nothing, or the part up to the limit. In front of it stands a buffer of fixed capacity,
and after the first delivery that is not taken as a whole nothing more is delivered.

`Sink.write` hands a long run of bytes on directly if the buffer is empty, `Sink.writeText` always
goes through the buffer.
-/

namespace Grf

structure Sink where
  limit : Option Nat := none
  /-- Whether a delivery that goes beyond the limit is taken up to the limit. -/
  takesPart : Bool := false
  /-- The bytes that were delivered. -/
  received : Array UInt8 := #[]
  buffer : Array UInt8 := #[]
  failed : Bool := false
deriving Repr, Inhabited

namespace Sink

def capacity : Nat := 4096

def full : Error := .plain "disk full"

/-- How many of the next `n` bytes the sink takes. -/
def taken (s : Sink) (n : Nat) : Nat :=
  match s.limit with
  | none => n
  | some limit =>
    if s.received.size + n ≤ limit then n else if s.takesPart then limit - s.received.size else 0

def deliver (s : Sink) (bytes : Array UInt8) : Sink :=
  let n := s.taken bytes.size
  { s with received := s.received ++ bytes.take n, failed := s.failed || n < bytes.size }

/-- Delivers the buffer. What is not taken stays in it. -/
def flush (s : Sink) : Sink :=
  if s.failed || s.buffer.isEmpty then s
  else { s.deliver s.buffer with buffer := s.buffer.drop (s.taken s.buffer.size) }

def makeRoom (s : Sink) : Sink := if capacity ≤ s.buffer.size then s.flush else s

/-- Fills the buffer and flushes it until the rest of `bytes` fits in. -/
def fill (s : Sink) (bytes : List UInt8) : Sink :=
  if s.failed then s
  else
    let room := capacity - s.buffer.size
    if bytes.length ≤ room ∨ room = 0 then { s with buffer := s.buffer ++ bytes }
    else
      fill ({ s with buffer := s.buffer ++ bytes.take room }.flush) (bytes.drop room)
termination_by bytes.length
decreasing_by simp only [List.length_drop]; omega

/-- Writes bytes. A run that exceeds the capacity is delivered directly if the buffer is empty, or
once the buffer has been filled and flushed. -/
def write (s : Sink) (bytes : List UInt8) : Sink :=
  if s.failed then s
  else
    let room := capacity - s.buffer.size
    if bytes.length ≤ room then { s with buffer := s.buffer ++ bytes }
    else if s.buffer.isEmpty then s.deliver bytes.toArray
    else
      let s := { s with buffer := s.buffer ++ bytes.take room }.flush
      let rest := bytes.drop room
      if s.failed then s
      else if rest.length ≤ capacity then { s with buffer := s.buffer ++ rest }
      else s.deliver rest.toArray

def writeText (s : Sink) (text : String) : Sink :=
  if text.isEmpty then s else s.makeRoom.fill (Text.bytesOf text)

end Sink

end Grf
