import Grf.Context

/-! # Checks of numbers

The ranges that numbers of declarations have to lie in before they are written.
-/

namespace Grf.Lowering

def checkFits (v size : Int) (pos : Position) : Lowering Unit :=
  let bits := (8 * size).toNat
  let least : Int := -(Nat.pow 2 (bits - 1) : Nat)
  let most : Int := (Nat.pow 2 bits - 1 : Nat)
  failIf (v < least || most < v) .outOfRange pos
    ("value " ++ Text.decimal v ++ " does not fit in " ++ Text.decimal size ++ " byte(s)")

def checkFeature (feature : Int) (pos : Position) : Lowering Unit :=
  failIf (feature < 0 || 0xFF < feature) .outOfRange pos
    ("feature 0x" ++ Text.hex 0 feature ++ " is out of range")

/-- The position of a part, or that of the whole if the part has none. -/
def positionOr (pos fallback : Position) : Position := if pos.isUnknown then fallback else pos

end Grf.Lowering
