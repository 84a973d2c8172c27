/-! # Paths

A path is text with slashes between its parts. The functions here only look at the text: what stands
at a path is the business of a file tree.

`Path.clean` gives the shortest path to the same place. It is a fold over the parts that keeps the
parts taken so far on a stack, from which a double point takes the last one away.
-/

namespace Grf.Path

def split (path : String) : List String := path.splitOn "/"

def isAbsolute (path : String) : Bool := path.startsWith "/"

/-- Puts a part on the stack of a path, the last part first. Going up from the root stays there, and
going up from the start of a relative path is kept. -/
def push (absolute : Bool) (stack : List String) (part : String) : List String :=
  if part == "" || part == "." then stack
  else if part == ".." then
    match stack with
    | [] => if absolute then [] else [".."]
    | top :: rest => if top == ".." then ".." :: stack else rest
  else part :: stack

def cleanParts (path : String) : List String :=
  ((split path).foldl (push (isAbsolute path)) []).reverse

/-- The path with the given parts. The one without parts is a point. -/
def render (absolute : Bool) (parts : List String) : String :=
  if absolute then "/" ++ "/".intercalate parts
  else if parts.isEmpty then "." else "/".intercalate parts

def clean (path : String) : String := render (isAbsolute path) (cleanParts path)

def join (directory path : String) : String :=
  if directory.isEmpty && path.isEmpty then ""
  else if directory.isEmpty then clean path
  else clean (directory ++ "/" ++ path)

def parent (path : String) : String :=
  clean ("/".intercalate (split path).dropLast ++ if isAbsolute path then "/" else "")

def base (path : String) : String :=
  if path.isEmpty then "."
  else match (split path).reverse.find? (· != "") with
    | some part => part
    | none => "/"

def ending (path : String) : String :=
  let last := path.toList.reverse.takeWhile (· != '/')
  if last.contains '.' then String.ofList ('.' :: (last.takeWhile (· != '.')).reverse) else ""

def withoutEnding (path : String) : String :=
  String.ofList (path.toList.take (path.length - (ending path).length))

def dropCommon : List String → List String → List String × List String
  | a :: as, b :: bs => if a == b then dropCommon as bs else (a :: as, b :: bs)
  | as, bs => (as, bs)

/-- The parts that lead from a directory to a path. There are none if only one of the two starts at
the root, or if the way down to the directory is not known. -/
def relativeParts? (directory path : String) : Option (List String) :=
  if isAbsolute directory != isAbsolute path then none
  else
    let (up, down) := dropCommon (cleanParts directory) (cleanParts path)
    if up.contains ".." then none else some (up.map (fun _ => "..") ++ down)

def inside? (directory path : String) : Option (List String) :=
  (relativeParts? directory path).filter fun parts => parts.head? != some ".."

end Grf.Path
