import Grf.Lowering.Assignment
import Grf.Lowering.Checks
import Grf.Lowering.Strings

/-! # Properties

A property table sets properties of one item. A value that depends on parameters is written as zero
and filled in by a patch.
-/

namespace Grf

inductive PropertyValue
  | constant (value : Int)
  | computed (value : Expr)
  | string (name : String)
  | array (items : List Int)
  | missing
deriving Repr, Inhabited

/-- A property of a declaration. `size` is the width of its value or of each item. -/
structure Property where
  num : Int
  size : Int
  value : PropertyValue
  pos : Position := {}
deriving Repr, Inhabited

namespace Lowering

/-- A property in the table with what it needs around the table: string definitions, computations, and
the parameter that is patched in. -/
structure LoweredProperty where
  entry : PropertyEntry
  definitions : List Record := []
  computations : List Record := []
  patchParam : Option Int := none

def lowerProperty (feature : Int) (prop : Property) (pos : Position) : Lowering LoweredProperty := do
  failIf (prop.num < 0 || 0xFF < prop.num) .outOfRange pos
    ("property number 0x" ++ Text.hex 0 prop.num ++ " is out of range")
  failIf (prop.size ≠ 1 && prop.size ≠ 2 && prop.size ≠ 4) .outOfRange pos
    ("invalid size " ++ Text.decimal prop.size ++ " for property 0x" ++ Text.hex 2 prop.num)
  let entry (content : PropertyContent) : PropertyEntry := ⟨prop.num, prop.size, content⟩
  match prop.value with
  | .constant value =>
    checkFits value prop.size pos
    return { entry := entry (.value (.const value)) }
  | .computed value =>
    match value.fold with
    | .const c =>
      checkFits c prop.size pos
      return { entry := entry (.value (.const c)) }
    | value =>
      let (computations, param) ← operandParam value pos
      return { entry := entry (.value (.paramAt param)), computations, patchParam := some param }
  | .string name =>
    failIf (prop.size < 2) .outOfRange pos
      ("string ids do not fit in " ++ Text.decimal prop.size ++ " byte")
    let (id, definitions) ← resolveString feature name pos
    return { entry := entry (.value (.string name id)), definitions }
  | .array items =>
    failIf (0xFF < items.length) .outOfRange pos
      ("too many items for property 0x" ++ Text.hex 2 prop.num)
    items.forM fun item => checkFits item prop.size pos
    return { entry := entry (.items items) }
  | .missing =>
    fail .typeMismatch pos ("invalid value for property 0x" ++ Text.hex 2 prop.num)

def propertyPatches (offset : Int) : List LoweredProperty → List Patch
  | [] => []
  | p :: rest =>
    let here := p.patchParam.toList.map fun param =>
      { param, size := p.entry.size, offset := offset + 1 : Patch }
    here ++ propertyPatches (offset + 1 + p.entry.valueSize) rest

/-- The records that set properties of an item: string definitions, computations, the patches and the
table. -/
def lowerProperties (feature id : Int) (props : List Property) (pos : Position) :
    Lowering (List Record) := do
  if props.isEmpty then return []
  checkFeature feature pos
  failIf (id < 0 || 0xFFFF < id) .outOfRange pos
    ("id 0x" ++ Text.hex 0 id ++ " is out of range [0, 0xFFFF]")
  failIf (0xFF < props.length) .outOfRange pos
    ("too many properties in a single block: " ++ toString props.length)
  let lowered ← props.mapM fun prop => lowerProperty feature prop (positionOr prop.pos pos)
  let table : Record := ⟨pos, .propertyTable feature id (lowered.map (·.entry))⟩
  return lowered.flatMap (·.definitions) ++ lowered.flatMap (·.computations)
    ++ table.withPatches (propertyPatches 7 lowered)

end Lowering

end Grf
