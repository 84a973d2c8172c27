import Grf.Document.Yaml.Fields
import Grf.FileTree
import Grf.StringTable

/-! # Language files

A language file holds the number of a language and the texts of strings in it. The files of a directory
are loaded in natural order. Whatever has been added before a failure stays in the table.
-/

namespace Grf

/-- The content of a language file. The texts are sorted by their names. -/
structure LanguageFile where
  lang : Int
  texts : List (String × String)
deriving Repr, Inhabited, DecidableEq

def LanguageFile.parse (path text : String) : Except Failure LanguageFile :=
  let failed (kind : ErrorKind) (message : String) : Except Failure LanguageFile :=
    .error (.compile kind { file := path } message)
  let read : Option (Option LanguageFile) := do
    let fields ← Yaml.Fields.read? text
    let lang ← fields.int? "lang" 0
    let texts ← fields.texts? "strings"
    if fields.isMissing "lang" then return none
    return some { lang, texts := texts.mergeSort fun a b => !decide (b.1 < a.1) }
  match read with
  | none => failed .typeMismatch "invalid language file"
  | some none => failed .unknownIdentifier "missing language id (lang)"
  | some (some file) => .ok file

namespace StringTable

def loadFile (path text : String) : Loading Unit := do
  match LanguageFile.parse path text with
  | .error e => throw e
  | .ok file =>
    file.texts.forM fun (name, text) =>
      addText file.lang name text { file := path, path := "strings." ++ name }

/-- Adds the texts of all language files in a directory and below it. In messages the directory is
called `shown`. -/
def loadDirectory (files : FileTree) (directory shown : String) : Loading Unit :=
  (Text.naturalSort (files.languageFiles directory)).forM fun path => do
    match files.readFrom directory path with
    | .error e => throw (.error (.wrapped ("failed to read the language file " ++ path) e))
    | .ok content => loadFile (Path.join shown path) (Text.decode content)

end StringTable

end Grf
