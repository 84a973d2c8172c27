import Grf.Lowering.Assignment
import Grf.Lowering.Strings

/-! # Messages to the player

A builtin message is one record for all languages. A custom message has one record for each
wording of its string.
-/

namespace Grf

/-- A message of a declaration: a builtin one by its number, or a custom one by the name of its
string. -/
structure Message where
  severity : Int
  msgId : Int := 0
  custom : Option String := none
  data : Option String := none
  params : List Expr := []
  pos : Position := {}
deriving Repr, Inhabited

namespace Lowering

def lowerMessage (m : Message) : Lowering (List Record) := do
  let pos := m.pos
  failIf (m.severity < 0 || 3 < m.severity) .outOfRange pos
    ("invalid severity " ++ Text.decimal m.severity)
  failIf (2 < m.params.length) .outOfRange pos "an error message has at most 2 parameters"
  failIf (!m.params.isEmpty && m.data.isNone) .typeMismatch pos
    "the parameters of an error message require a data string"
  if let some data := m.data then
    if let .error e := EngineText.size (Text.bytesOf data) true false then
      fail .typeMismatch (pos.sub "data") ("invalid data string: " ++ e.message)
  let params ← m.params.zipIdx.mapM fun (param, i) =>
    operandParam param (pos.sub ("params[" ++ toString i ++ "]"))
  let before := params.flatMap (·.1)
  let record (lang msgId : Int) (custom : String) : Record :=
    ⟨pos, .errorMessage {
      severity := m.severity, lang, msgId, custom, data := m.data, params := params.map (·.2) }⟩
  match m.custom with
  | none =>
    failIf (m.msgId < 0 || 0x06 < m.msgId) .outOfRange pos
      ("builtin message id 0x" ++ Text.hex 0 m.msgId ++ " is out of range [0, 0x6]")
    return before ++ [record 0x7F m.msgId ""]
  | some name =>
    let table ← stringTable name pos
    let wordings ← lift (table.wordings name pos)
    failIf wordings.isEmpty .unknownIdentifier pos ("string " ++ name ++ " has no translation")
    let records ← wordings.mapM fun t => do
      failIf (t.lang < 0 || 0x7F < t.lang) .outOfRange pos
        ("language id 0x" ++ Text.hex 0 t.lang ++ " is out of range [0x00, 0x7F]")
      if let .error e := EngineText.size (Text.bytesOf t.text) true false then
        fail .typeMismatch pos
          ("invalid text for language 0x" ++ Text.hex 2 t.lang ++ ": " ++ e.message)
      return record t.lang MessageRecord.customId t.text
    return before ++ records

end Lowering

end Grf
