import Grf.Context
import Grf.Record.Basic

/-! # String definitions

A record that writes the id of a string needs the wordings of the string to be defined for its
feature before. They are defined once for each feature, but a definition inside a conditional may be
skipped and does not count for later.
-/

namespace Grf.Lowering

def stringDefinition (feature lang id : Int) (text : String) (pos : Position) : Lowering Record := do
  failIf (lang < 0 || 0x7F < lang) .outOfRange pos
    ("language id 0x" ++ Text.hex 0 lang ++ " is out of range [0x00, 0x7F]")
  match EngineText.size (Text.bytesOf text) true false with
  | .error e =>
    fail .typeMismatch pos
      ("invalid text for language 0x" ++ Text.hex 2 lang ++ ": " ++ e.message)
  | .ok _ => return ⟨pos, .stringDefinition feature lang id text⟩

/-- The string table, which a reference to `name` needs. -/
def stringTable (name : String) (pos : Position) : Lowering StringTable := do
  match (← get).strings with
  | some table => return table
  | none =>
    fail .unknownIdentifier pos ("string " ++ name ++ " cannot be resolved: no string table")

/-- The id of a string, and the definitions of its wordings if the feature does not have them
yet. -/
def resolveString (feature : Int) (name : String) (pos : Position) :
    Lowering (Int × List Record) := do
  let table ← stringTable name pos
  let (id, table) ← lift (table.resolve name pos)
  modify fun c => { c with strings := some table }
  if (← get).definedStrings.contains (feature, id) then return (id, [])
  let wordings ← lift (table.wordings name pos)
  let records ← wordings.mapM fun t => stringDefinition feature t.lang id t.text pos
  modify fun c =>
    if c.inConditional then c else { c with definedStrings := (feature, id) :: c.definedStrings }
  return (id, records)

end Grf.Lowering
