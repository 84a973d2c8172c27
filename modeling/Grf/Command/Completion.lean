import Grf.Command.Help
import Grf.FileTree

/-! # Completion

What may stand at the cursor of a command line that is being typed. Before the name of a command is
finished, the commands may; after it the flags, the values of a flag that wants one, and the arguments
of the command. A help flag is offered beside commands and flags.
-/

namespace Grf.Command.Completion

/-- A word of the line. It is finished if a blank follows it. -/
structure Word where
  text : String := ""
  dashes : String := ""
  flag : Option String := none
  value : Option String := none
  isFinished : Bool := false
deriving DecidableEq, Repr, Inhabited

/-- A word of its text. What starts with three dashes or has no name before its equals sign is neither
a flag nor a value. -/
def Word.ofText (text : String) (isFinished : Bool) : Word :=
  let flag (dashes : String) (body : List Char) : Word :=
    if body.head? == some '-' || body.head? == some '=' then { text, isFinished }
    else
      let name := String.ofList (body.takeWhile (· != '='))
      match body.dropWhile (· != '=') with
      | _ :: value => { text, dashes, flag := some name, value := some (String.ofList value), isFinished }
      | [] => { text, dashes, flag := some name, isFinished }
  match text.toList with
  | [] => { isFinished }
  | '-' :: '-' :: body => flag "--" body
  | '-' :: body => flag "-" body
  | _ => { text, value := some text, isFinished }

def words (line : String) : List Word :=
  let parts := (line.splitOn " ").filter (· != "")
  let last := !line.endsWith " "
  (parts.zipIdx).map fun (text, i) => Word.ofText text (!(last && i + 1 == parts.length))

/-! ## Suggestions -/

/-- The help flag for what has been typed, and whether it was meant. -/
def helpFlag (typed : String) : String × Bool :=
  if typed == "" || typed == "-" || typed == "-h" then ("-h", true)
  else if "--help".startsWith typed then ("--help", true)
  else if typed.startsWith "--" then ("--help", false)
  else ("-help", false)

/-- The names that start with what has been typed after the dashes, with a help flag. If there are
none, all names are suggested, unless the help flag was meant. -/
def suggest (dashes typed : String) (names : List String) : List String :=
  let matching := (names.filter (·.startsWith typed)).map (dashes ++ ·)
  let (help, meant) := helpFlag (dashes ++ typed)
  if !matching.isEmpty then
    if help.startsWith (dashes ++ typed) then matching ++ [help] else matching
  else if meant then [help]
  else names.map (dashes ++ ·) ++ [(helpFlag dashes).1]

/-- What a shell makes of a word: a backslash before each blank that is not quoted, and a quote at the
end for each one that is open. -/
def shellForm (word : String) : String :=
  let step (s : List Char × Bool × List UInt8) (b : UInt8) : List Char × Bool × List UInt8 :=
    let (quotes, escaped, out) := s
    let c := Char.ofNat b.toNat
    let isBlank := c == ' ' && !escaped && quotes.isEmpty
    let isQuote := (c == '"' || c == '\'') && !escaped
    let quotes := if !isQuote then quotes
      else match quotes with
        | top :: rest => if top == c then rest else c :: quotes
        | [] => [c]
    (quotes, c == '\\' && !escaped, out ++ (if isBlank then [0x5C] else []) ++ Text.charBytes b.toNat)
  let (quotes, _, out) := (Text.bytesOf word).foldl step ([], false, [])
  Text.decode out ++ String.ofList quotes

/-- The options that start with what has been typed, or all if there are none. -/
def startingWith (typed : String) (options : List String) : List String :=
  let matching := options.filter (·.startsWith typed)
  if matching.isEmpty then options else matching.map shellForm

/-! ## Files -/

/-- A path as it is shown: seen from the working directory, with a slash after a directory, and with
`./` in front if what has been typed starts with a point. -/
def shownPath (files : FileTree) (typed path : String) : String :=
  let plain := Path.clean path
  let plain := if plain != "." && typed.startsWith "." then "./" ++ plain else plain
  if files.isDirectory plain && !plain.endsWith "/" then plain ++ "/" else plain

def directoryOf (files : FileTree) (typed : String) : String :=
  if files.isDirectory typed then shownPath files typed typed
  else if files.isDirectory (Path.parent typed) then shownPath files typed (Path.parent typed)
  else "./"

structure FilePattern where
  ending : String := ""
  onlyDirectories : Bool := false
deriving DecidableEq, Repr, Inhabited

/-- The files and directories in a directory that are offered, and the directory itself. -/
def candidates (files : FileTree) (pattern : FilePattern) (directory : String) : List String :=
  let entries := match files.place directory with
    | .ok place => files.list place
    | .error _ => []
  let offered := entries.filter fun (name, entry) =>
    entry == .directory || (!pattern.onlyDirectories && name.endsWith pattern.ending)
  offered.map (fun (name, _) => Path.join directory name) ++ [directory]

def withoutPoint (path : String) : String := if path.startsWith "./" then (path.drop 2).copy else path

def fits (typed path : String) : Bool :=
  (path == "./" && (typed == "." || typed == ""))
    || (typed == "." && path.startsWith ".")
    || (withoutPoint path).startsWith (withoutPoint typed)

/-- The candidates that fit what has been typed as they are shown, or all if there are none. -/
def matchingFiles (files : FileTree) (pattern : FilePattern) (typed : String) : List String :=
  if typed.endsWith "/.." then []
  else
    let found := candidates files pattern (directoryOf files typed)
    let matching := (found.map (shownPath files typed)).filter (fits typed)
    if matching.isEmpty then found else matching

/-- The files that are offered. If there is only one and it is a directory, its content is. -/
def predictFiles (files : FileTree) (pattern : FilePattern) (typed : String) : List String :=
  match matchingFiles files pattern typed with
  | [one] => if files.isDirectory one then matchingFiles files pattern one else [one]
  | many => many

def predictDeclarations (files : FileTree) (typed : String) : List String :=
  [".yaml", ".yml", ".json"].flatMap fun ending => predictFiles files { ending } typed

/-! ## Commands -/

inductive FlagArgument
  | file
  | directory
  | format
  | nothing
  /-- A switch takes no value, so a declaration file may follow. -/
  | switch
deriving DecidableEq, Repr, Inhabited

def buildArguments : List (String × FlagArgument) :=
  [("o", .file), ("format", .format), ("lang", .directory), ("max-inline-skip", .nothing),
   ("stats", .switch), ("no-cache", .switch)]

def flagArguments : String → List (String × FlagArgument)
  | "build" | "watch" => buildArguments
  | "check" => [("lang", .directory), ("max-inline-skip", .nothing)]
  | _ => []

def takesDeclarations (name : String) : Bool := ["build", "watch", "check"].contains name

structure Cursor where
  files : FileTree
  line : String
deriving Inhabited

def Cursor.options (c : Cursor) (typed : String) : FlagArgument → List String
  | .file => predictFiles c.files {} typed
  | .directory => predictFiles c.files { onlyDirectories := true } typed
  | .format => ["grf", "nfo"]
  | .nothing => []
  | .switch =>
    if c.line.isEmpty || c.line.endsWith "=" then [] else predictDeclarations c.files typed

def Cursor.flagValues (c : Cursor) (command flag typed : String) : List String :=
  match (flagArguments command).lookup flag with
  | some argument => startingWith typed (c.options typed argument)
  | none => []

def Cursor.arguments (c : Cursor) (command typed : String) : List String :=
  if takesDeclarations command then startingWith typed (predictDeclarations c.files typed) else []

def flagsOf (command dashes typed : String) : List String :=
  suggest (if dashes.isEmpty then "-" else dashes) typed ((flagArguments command).map (·.1))

def Cursor.afterCommand (c : Cursor) (command : String) (last before : Word) : List String :=
  let positional (typed : String) := if last.flag.isNone then c.arguments command typed else []
  if last.isFinished then
    match last.value with
    | some _ => flagsOf command last.dashes "" ++ positional ""
    | none =>
      let values := c.flagValues command (last.flag.getD "") ""
      if values.isEmpty then flagsOf command "" "" else values
  else match last.value, last.flag, before.flag, before.value with
    | some typed, some flag, _, _ => c.flagValues command flag typed
    | some typed, none, some flag, none => c.flagValues command flag typed
    | some typed, none, _, _ => positional typed
    | none, flag, _, _ => flagsOf command last.dashes (flag.getD "") ++ positional ""

/-- What may stand at the cursor of a line. The first word is the name of the program. There is no
answer after an unknown command. -/
def Cursor.complete (c : Cursor) : Except Error (List String) :=
  match (words c.line).drop 1 with
  | [] => .ok (suggest "" "" names)
  | first :: rest =>
    if !first.isFinished then
      .ok (if first.text.startsWith "-" then [(helpFlag first.text).1] else suggest "" first.text names)
    else if names.contains first.text then
      let reversed := rest.reverse
      .ok (c.afterCommand first.text (reversed.headD {}) ((reversed.drop 1).headD {}))
    else .error (.plain ("unknown subcommand: " ++ first.text))

def complete (files : FileTree) (line : String) (point : Nat) : Except Error (List String) :=
  Cursor.complete { files, line := Text.decode ((Text.bytesOf line).take point) }

end Grf.Command.Completion
