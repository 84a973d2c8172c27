import Grf.Context
import Grf.Record.Basic

/-! # The head of a file and the deactivation of others

The first record of a file is the number of those that follow, the second tells the id, the name and
the description. A deactivation names other files by their ids.
-/

namespace Grf

/-- A GRF id is written as four characters, or as eight hexadecimal digits. -/
def GrfId.parse (s : String) (pos : Position) : Except Failure GrfId :=
  let bytes := Text.bytesOf s
  let digits := bytes.map fun b => Text.digitValue? 16 (Char.ofNat b.toNat)
  let rec pairs : List (Option Nat) → Option (List UInt8)
    | [] => some []
    | some high :: some low :: rest => (pairs rest).map ((high * 16 + low).toUInt8 :: ·)
    | _ => none
  let found := if bytes.length = 4 then some bytes
    else if bytes.length = 8 then pairs digits
    else none
  match found with
  | some bytes => .ok ⟨bytes⟩
  | none =>
    .error (.compile .typeMismatch pos
      ("invalid GRF id " ++ Text.quote s ++ ": 4 characters or 8 hexadecimal digits expected"))

def grfInfo (id : GrfId) (name description : String) (pos : Position) : Except Failure Record := do
  let check (text field : String) : Except Failure Unit :=
    match EngineText.size (Text.bytesOf text) true false with
    | .ok _ => .ok ()
    | .error e =>
      .error (.compile .typeMismatch (pos.sub field) ("invalid " ++ field ++ ": " ++ e.message))
  check name "name"
  check description "description"
  return ⟨pos, .grfInfo id name description⟩

def deactivation (ids : List GrfId) (pos : Position) : Except Failure Record :=
  if ids.isEmpty || 0xFF < ids.length then
    .error (.compile .outOfRange pos
      ("a deactivation list must contain between 1 and 255 GRF ids, not " ++ toString ids.length))
  else .ok ⟨pos, .deactivation ids⟩

end Grf
