import Grf.Output.Container

/-! # The recorder

The recorder keeps the bytes of each sprite in memory, without headers. A reference to a sprite of the
graphics section is kept as its info byte and its number.
-/

namespace Grf

structure Recorder where
  sprites : Array (List UInt8) := #[]
  references : List (Nat × Int) := []
  tracker : Tracker := {}
  current : Array UInt8 := #[]
  closed : Bool := false
deriving Repr, Inhabited

namespace Recorder

/-- A recorder with an open sprite that never ends, for the bytes of single values. -/
def ofValue : Recorder := { tracker := ⟨some (-1, 0)⟩ }

def track (f : Tracker → Except Fault Tracker) : Writing Recorder Unit := do
  let o ← get
  let tracker ← Writing.lift (f o.tracker)
  set { o with tracker }

def maxSize : Int := 0x1000000000000

def start (size : Int) : Writing Recorder Unit := do
  track (·.start size)
  if size < 0 || maxSize < size then throw .noMemory
  modify fun o => { o with current := #[] }

def print (token : Token) : Writing Recorder Unit := do
  track (·.addToken token)
  modify fun o => { o with current := o.current ++ token.bytes }

def finish : Writing Recorder Unit := do
  track (·.finish)
  modify fun o => { o with sprites := o.sprites.push o.current.toList, current := #[] }

def reference (num : Int) : Writing Recorder Unit := do
  modify fun o => { o with references := (o.sprites.size, num) :: o.references }
  start 5
  print (.byte Container.referenceInfo)
  print (Token.dwordOf num)
  finish

def close : Writing Recorder (Option Error) := do
  modify fun o => { o with closed := true }
  return none

instance : Output Recorder where
  start := start
  print := print
  finish := finish
  reference := reference
  close := close

end Recorder

end Grf
