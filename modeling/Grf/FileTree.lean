import Grf.Error
import Grf.Path
import Grf.Text.Natural

/-! # File trees

The files around a declaration file, as far as the compiler looks at them: a tree of directories and
files, seen from the working directory. A place in it is a list of names. What lies outside of the
working directory has places of its own: `/` is the root, and `..` leads up.
-/

namespace Grf

inductive FileEntry
  | file (content : List UInt8)
  | directory
deriving DecidableEq, Repr, Inhabited

/-- Files and directories by their places. The working directory itself is always there. -/
structure FileTree where
  entries : List (List String × FileEntry) := []
deriving Repr, Inhabited

namespace FileTree

def at? (t : FileTree) (place : List String) : Option FileEntry :=
  if place.isEmpty then some .directory else t.entries.lookup place

def isDirectoryAt (t : FileTree) (place : List String) : Bool := t.at? place == some .directory

def above (place : List String) : List String :=
  match place.getLast? with
  | none | some ".." => place ++ [".."]
  | some _ => place.dropLast

/-- Follows the parts of a path from a place. Every step starts in a directory. -/
def walk (t : FileTree) (place : List String) : List String → Except FileProblem (List String)
  | [] => .ok place
  | part :: rest =>
    match t.at? place with
    | none => .error .notFound
    | some (.file _) => .error .notDirectory
    | some .directory =>
      if part == "" || part == "." then walk t place rest
      else if part == ".." then walk t (above place) rest
      else walk t (place ++ [part]) rest

/-- The place of a path, at which there may be nothing. No path has a zero character in it. -/
def place (t : FileTree) (path : String) : Except FileProblem (List String) :=
  if path.isEmpty then .error .notFound
  else if path.toList.contains '\x00' then .error .invalid
  else t.walk (if Path.isAbsolute path then ["/"] else []) (Path.split path)

def find (t : FileTree) (path : String) : Except FileProblem FileEntry := do
  match t.at? (← t.place path) with
  | some entry => .ok entry
  | none => .error .notFound

def contains (t : FileTree) (path : String) : Bool := (t.find path).isOk

def isDirectory (t : FileTree) (path : String) : Bool :=
  match t.find path with
  | .ok .directory => true
  | _ => false

def read (t : FileTree) (path : String) : Except Error (List UInt8) :=
  match t.find path with
  | .ok (.file content) => .ok content
  | .ok .directory => .error (.file "read" path .isDirectory)
  | .error problem => .error (.file "open" path problem)

def setAt (t : FileTree) (place : List String) (entry : FileEntry) : FileTree :=
  { entries := t.entries.filter (·.1 != place) ++ [(place, entry)] }

def ensureDirectory (t : FileTree) (place : List String) : FileTree :=
  if (t.at? place).isSome then t else t.setAt place .directory

/-- The places on the way to a place, from the first one on and without the place itself. -/
def ancestors (place : List String) : List (List String) :=
  (List.range place.length).map fun n => place.take n

def freePlace (path : String) : List String :=
  if Path.isAbsolute path then "/" :: Path.cleanParts path else Path.cleanParts path

/-- Makes all directories on the way to a path. There is no tree if a file is in the way. -/
def makeWay? (t : FileTree) (path : String) : Option FileTree :=
  let way := ancestors (freePlace path)
  let t := way.foldl ensureDirectory t
  if way.all t.isDirectoryAt then some t else none

/-- Puts an entry at a path, with the directories on the way to it. -/
def put (t : FileTree) (path : String) (entry : FileEntry) : FileTree :=
  let place := freePlace path
  ((ancestors place).foldl ensureDirectory t).setAt place entry

def write (t : FileTree) (path : String) (content : List UInt8) : Except Error FileTree :=
  let failed {α : Type} (problem : FileProblem) : Except Error α := .error (.file "open" path problem)
  let parts := if path.endsWith "/" then (Path.split path).dropLast else Path.split path
  let start := if Path.isAbsolute path then ["/"] else []
  if path.isEmpty then failed .notFound
  else if path.toList.contains '\x00' then failed .invalid
  else match t.walk start parts.dropLast with
    | .error problem => failed problem
    | .ok directory =>
      match t.at? directory with
      | none => failed .notFound
      | some (.file _) => failed .notDirectory
      | some .directory =>
        match t.walk start parts with
        | .error problem => failed problem
        | .ok place =>
          if path.endsWith "/" || t.isDirectoryAt place then failed .isDirectory
          else .ok (t.setAt place (.file content))

def remove (t : FileTree) (path : String) : FileTree :=
  let place := freePlace path
  { entries := t.entries.filter fun (other, _) => !place.isPrefixOf other }

def pathOf : List String → String
  | "/" :: rest => "/" ++ "/".intercalate rest
  | place => "/".intercalate place

/-- The paths at which a tree has something new, with what stands there. -/
def changes (before after : FileTree) : List (String × FileEntry) :=
  (after.entries.filter fun (place, entry) => before.at? place != some entry).map
    fun (place, entry) => (pathOf place, entry)

def changedPaths (before after : FileTree) : List String :=
  (changes before after).map (·.1)
    ++ (before.entries.filter fun (place, _) => (after.at? place).isNone).map (pathOf ·.1)

def list (t : FileTree) (place : List String) : List (String × FileEntry) :=
  let found := t.entries.filterMap fun (other, entry) =>
    match other.getLast? with
    | some name => if other.dropLast == place then some (name, entry) else none
    | none => none
  found.mergeSort fun a b => !decide (b.1 < a.1)

/-- The order in which the places below a directory are visited: the names of one directory first,
then the directories in it. -/
def visitedBefore (a b : List String) : Bool :=
  if a.dropLast == b.dropLast then !decide (b < a) else !decide (b.dropLast < a.dropLast)

def below (t : FileTree) (place : List String) : List (List String) :=
  let found := t.entries.filterMap fun (other, _) =>
    if place.isPrefixOf other && other != place then some (other.drop place.length) else none
  found.mergeSort visitedBefore

def isLanguageName (parts : List String) : Bool :=
  match parts.getLast? with
  | some name => name.endsWith ".yaml" || name.endsWith ".yml"
  | none => false

/-- The places of the language files in a directory and below, seen from there. A directory may have
the name of a language file, and there are none if there is no such directory. -/
def languagePlaces (t : FileTree) (directory : String) : List (List String) :=
  match t.place directory with
  | .ok place => if t.isDirectoryAt place then (t.below place).filter isLanguageName else []
  | .error _ => []

def languageFiles (t : FileTree) (directory : String) : List String :=
  (t.languagePlaces directory).map ("/".intercalate ·)

/-- The content of a file in a directory. Its path is shown as it is seen from there. -/
def readFrom (t : FileTree) (directory path : String) : Except Error (List UInt8) :=
  match t.read (directory ++ "/" ++ path) with
  | .error (.file operation _ problem) => .error (.file operation path problem)
  | result => result

end FileTree

end Grf
