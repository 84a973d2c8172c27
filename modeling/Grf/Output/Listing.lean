import Grf.Output.Sink
import Grf.Output.Tracker

/-! # The text listing

The listing shows one sprite a line, with continuation lines where a record asks for them. Numbers are
hexadecimal and their width shows in their form, printable runs of text are quoted, and comments stand
after two slashes.
-/

namespace Grf

structure Listing where
  sink : Sink := {}
  tracker : Tracker := {}
  error : Option Error := none
  closed : Bool := false
  line : String := ""
deriving Repr, Inhabited

namespace Listing

def put (o : Listing) (text : String) : Listing :=
  if o.error.isSome then o
  else
    let sink := o.sink.writeText text
    { o with sink, error := if sink.failed then some Sink.full else none }

/-- A new listing with its head. The name of the source is shown if it is not empty. -/
def createOn (sink : Sink) (source : String) : Listing :=
  let o : Listing := { sink }
  let o := o.put "// Automatically generated by grfc\n"
  let o := if source.isEmpty then o else o.put ("// Source: " ++ source ++ "\n")
  o.put "// Format: NFO version 32\n"

def create (source : String) (limit : Option Nat) : Listing := createOn { limit } source

def isQuotable (b : UInt8) : Bool := 0x20 ≤ b && b ≤ 0x7E && b != 0x22 && b != 0x5C

def byteText (b : UInt8) : String := Text.hexNat 2 b.toNat

/-- A run of quotable bytes in quotes, and nothing for an empty run. The run is given in reverse. -/
def quoteRun (run : List UInt8) : List String :=
  if run.isEmpty then []
  else ["\"" ++ String.ofList (run.reverse.map fun b => Char.ofNat b.toNat) ++ "\""]

/-- The words for encoded text: quotable bytes in runs, the others one by one. `run` holds the
quotable bytes just read, the last one first. -/
def textWords (run : List UInt8) : List UInt8 → List String
  | [] => quoteRun run
  | b :: rest =>
    if isQuotable b then textWords (b :: run) rest
    else quoteRun run ++ byteText b :: textWords [] rest

def tokenWords : Token → List String
  | .byte v => [byteText v]
  | .word v => ["\\wx" ++ Text.hexNat 4 v.toNat]
  | .dword v => ["\\dx" ++ Text.hexNat 8 v.toNat]
  | .text bytes => textWords [] bytes
  | .lineEnd comment => if comment.isEmpty then [] else ["// " ++ comment]

/-- The text for a token: a blank before each word, and the break of the line at its end. -/
def tokenText (token : Token) : String :=
  let words := String.join ((tokenWords token).map (" " ++ ·))
  match token with
  | .lineEnd _ => words ++ "\n\t"
  | _ => words

def track (f : Tracker → Except Fault Tracker) : Writing Listing Unit := do
  let o ← get
  let tracker ← Writing.lift (f o.tracker)
  set { o with tracker }

/-- Opens a pseudo sprite. The size is left to the reader of the listing. -/
def start (size : Int) : Writing Listing Unit := do
  track (·.start size)
  modify fun o => { o with line := "-1 * 0\t" }

def print (token : Token) : Writing Listing Unit := do
  track (·.addToken token)
  modify fun o => { o with line := o.line ++ tokenText token }

def finish : Writing Listing Unit := do
  track (·.finish)
  modify fun o =>
    let o := (o.put o.line).put "\n"
    { o with line := "" }

def reference (num : Int) : Writing Listing Unit := do
  start 4
  modify fun o => { o with line := "-1 sprite " ++ Text.decimal num ++ "\t" }
  track (·.add 4)
  finish

/-- Ends the listing. Only the first call writes anything, a later one repeats the error of a failed
write. -/
def close : Writing Listing (Option Error) := do
  let o ← get
  if o.closed then return o.error
  set { o with closed := true }
  if o.tracker.current.isSome then throw .closedInSprite
  if o.error.isSome then return o.error
  let sink := o.sink.flush
  set { o with sink, closed := true }
  return if sink.failed then some Sink.full else none

instance : Output Listing where
  start := start
  print := print
  finish := finish
  reference := reference
  close := close

end Listing

end Grf
