import Grf.Output.Sink
import Grf.Output.Tracker

/-! # The binary container

A sprite is a word with its size, an info byte and its bytes. The info byte tells pseudo sprites from
references to sprites of the graphics section. The sequence ends with a zero size and a zero checksum.
-/

namespace Grf

structure Container where
  sink : Sink := {}
  tracker : Tracker := {}
  error : Option Error := none
  closed : Bool := false
  spriteCount : Nat := 0
deriving Repr, Inhabited

namespace Container

def pseudoInfo : UInt8 := 0xFF

/-- The info byte of a reference to a sprite of the graphics section. -/
def referenceInfo : UInt8 := 0xFD

/-- The end of the sequence: a zero size and a checksum of four zero bytes. -/
def trailer : List UInt8 := List.replicate 6 0

def put (bytes : List UInt8) : Writing Container Unit :=
  modify fun o =>
    if o.error.isSome then o
    else
      let sink := o.sink.write bytes
      { o with sink, error := if sink.failed then some Sink.full else none }

def track (f : Tracker → Except Fault Tracker) : Writing Container Unit := do
  let o ← get
  let tracker ← Writing.lift (f o.tracker)
  set { o with tracker }

/-- Opens a pseudo sprite. Its size has to fit in a word and cannot be zero. -/
def start (size : Int) : Writing Container Unit := do
  if size ≤ 0 || 0xFFFF < size then throw (.invalidSpriteSize size)
  track (·.start size)
  put (Token.wordOf size).bytes
  put [pseudoInfo]

/-- Prints a token. The end of a line is none of the container's concern. -/
def print (token : Token) : Writing Container Unit := do
  track (·.addToken token)
  match token with
  | .lineEnd _ => pure ()
  | _ => put token.bytes

def finish : Writing Container Unit := do
  track (·.finish)
  modify fun o => { o with spriteCount := o.spriteCount + 1 }

def reference (num : Int) : Writing Container Unit := do
  track (·.start 4)
  put (Token.wordOf 4).bytes
  put [referenceInfo]
  print (Token.dwordOf num)
  finish

/-- Ends the sequence. Only the first call writes anything, a later one repeats the error of a failed
write. -/
def close : Writing Container (Option Error) := do
  let o ← get
  if o.closed then return o.error
  set { o with closed := true }
  if o.tracker.current.isSome then throw .closedInSprite
  put trailer
  let o ← get
  if o.error.isSome then return o.error
  let sink := o.sink.flush
  set { o with sink }
  return if sink.failed then some Sink.full else none

instance : Output Container where
  start := start
  print := print
  finish := finish
  reference := reference
  close := close

end Container

end Grf
