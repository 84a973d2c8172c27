import Grf.Lowering.Checks
import Grf.Record.Basic

/-! # Graphics tables

A graphics table tells which named record gives the graphics of some items of a feature, by cargo and
by default.
-/

namespace Grf

/-- The graphics of the items `ids` of a feature. -/
structure Graphics where
  feature : Int
  ids : List Int
  livery : Bool
  cargo : List (Int × String)
  default : String
  pos : Position := {}
deriving Repr, Inhabited

namespace Lowering

def lowerGraphics (g : Graphics) : Lowering (List Record) := do
  checkFeature g.feature g.pos
  failIf (g.ids.isEmpty || 0x7F < g.ids.length) .outOfRange g.pos
    ("a graphics table must contain between 1 and 127 ids, not " ++ toString g.ids.length)
  g.ids.forM fun id => failIf (id < 0 || 0xFFFF < id) .outOfRange g.pos
    ("id 0x" ++ Text.hex 0 id ++ " is out of range")
  failIf (0xFF < g.cargo.length) .outOfRange g.pos
    ("too many cargo specific graphics: " ++ toString g.cargo.length)
  let cargo ← g.cargo.zipIdx.mapM fun ((cargo, name), i) => do
    let pos := g.pos.sub ("cargo[" ++ toString i ++ "]")
    failIf (cargo < 0 || 0xFF < cargo) .outOfRange pos
      ("cargo 0x" ++ Text.hex 0 cargo ++ " is out of range")
    addRef none name g.feature pos
    return (cargo, { name : GraphicsRef })
  addRef none g.default g.feature (g.pos.sub "default")
  return [⟨g.pos, .graphicsTable {
    feature := g.feature, ids := g.ids, livery := g.livery, cargo, default := { name := g.default } }⟩]

end Lowering

end Grf
