import Grf.Text.Number

/-! # Source positions

A position names a file, a line and a path inside the document, such as `declarations[3].props[1]`.
Any part may be unknown: the line is then zero, the others empty.
-/

namespace Grf

structure Position where
  file : String := ""
  line : Int := 0
  path : String := ""
deriving DecidableEq, Repr, Inhabited

namespace Position

def unknown : Position := {}

def isUnknown (p : Position) : Bool := p == unknown

def text (p : Position) : String :=
  if p.isUnknown then "<unknown position>"
  else if p.line == 0 then
    if p.path.isEmpty then p.file else p.file ++ ":" ++ p.path
  else
    let place := p.file ++ ":" ++ Text.decimal p.line
    if p.path.isEmpty then place else place ++ " (" ++ p.path ++ ")"

/-- The position of a part of what stands at `p`. An index follows the path directly, a name follows
it after a point. -/
def sub (p : Position) (part : String) : Position :=
  { p with
    path := if p.path.isEmpty then part
      else if part.startsWith "[" then p.path ++ part
      else p.path ++ "." ++ part }

def item (p : Position) (i : Nat) : Position :=
  p.sub ("[" ++ toString i ++ "]")

end Position

end Grf
