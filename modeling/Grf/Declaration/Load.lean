import Grf.Declaration.Decode
import Grf.Declaration.Form
import Grf.Document.Json
import Grf.Document.Yaml.Load
import Grf.Path
import Grf.Text.Fold

/-! # Loading declaration files

The text of a declaration file is read in its format, checked against the form of declaration files
and then decoded.
-/

namespace Grf

inductive DocumentFormat
  | yaml | json
deriving DecidableEq, Repr, Inhabited

namespace DocumentFormat

def name : DocumentFormat → String
  | yaml => "yaml"
  | json => "json"

def ofName (name : String) : Except Failure DocumentFormat :=
  match name with
  | "yaml" => .ok yaml
  | "json" => .ok json
  | _ => .error (.error (.plain ("unknown declaration format " ++ Text.quote name)))

def ofPath (path : String) : DocumentFormat :=
  if Text.equalFold (Path.ending path) ".json" then json else yaml

end DocumentFormat

def DeclarationFile.parse (path text : String) (format : DocumentFormat) :
    Except Failure DeclarationFile := do
  let root ← match format with
    | .yaml => Yaml.load path text
    | .json => JsonValue.load path text
  checkForm root
  root.toFile path

end Grf
