import Grf.Command.Run

/-! # The program

Loads the files that a command may look at, runs the command, prints what it prints and writes what it
writes. While a file is watched this is done again each time something changes.
-/

namespace Grf.Main

open Grf.Command

/-- Loads what stands at a path. Below a directory these are the directories and the language files. -/
partial def loadAll (tree : FileTree) (path : String) : IO FileTree := do
  let place := (← IO.currentDir) / path
  if ← place.isDir then
    let mut tree := tree.put path .directory
    for entry in ← place.readDir do
      let name := Path.join path entry.fileName
      if (← entry.path.isDir) || FileTree.isLanguageName [entry.fileName] then
        tree ← loadAll tree name
    return tree
  else if ← place.pathExists then
    return tree.put path (.file (← IO.FS.readBinFile place).toList)
  else return tree

/-- Loads the names in a directory, and in those below it as deep as asked. -/
def loadNames (tree : FileTree) (path : String) : Nat → IO FileTree
  | 0 => return tree
  | depth + 1 => do
    let place := (← IO.currentDir) / path
    if !(← place.isDir) then return tree
    let mut tree := tree.put path .directory
    for entry in ← place.readDir do
      let name := Path.join path entry.fileName
      if ← entry.path.isDir then tree ← loadNames (tree.put name .directory) name depth
      else tree := tree.put name (.file [])
    return tree

def loadAround (tree : FileTree) (path : String) : IO FileTree := do
  if path.isEmpty then return tree
  let parent := Path.parent path
  let isThere ← ((← IO.currentDir) / parent).isDir
  loadAll (if isThere then tree.put parent .directory else tree) path

/-- The paths that arguments may stand for, values of flags included. -/
def pathsOf (args : List String) : List String :=
  args ++ args.filterMap fun arg =>
    match arg.splitOn "=" with
    | _ :: value :: rest => some ("=".intercalate (value :: rest))
    | _ => none

def load (env : Surroundings) (args : List String) : IO FileTree := do
  match env.lookup? "COMP_LINE" with
  | none | some "" =>
    let own := env.settingsPaths ++ [env.cachePath]
    let tree ← (own ++ pathsOf args).foldlM loadAround {}
    match loadSettings env tree with
    | .ok settings => loadAround tree settings.langDir
    | .error _ => return tree
  | some line =>
    let words := pathsOf (line.splitOn " ")
    let directories := "." :: (words ++ words.map Path.parent).filter (· != "")
    directories.foldlM (fun tree path => loadNames tree path 2) {}

def save (before after : FileTree) : IO Unit := do
  for (path, entry) in FileTree.changes before after do
    match entry with
    | .directory => IO.FS.createDirAll path
    | .file content => IO.FS.writeBinFile path (ByteArray.mk content.toArray)

def finish (before : FileTree) (s : Session) : IO Unit := do
  let err ← IO.getStderr
  for entry in s.log.reverse do
    err.putStrLn entry.line
  err.putStr s.complaints
  let out ← IO.getStdout
  out.putStr s.printed
  out.flush
  save before s.files

/-- Time between two looks at the files that are watched, in milliseconds. -/
def watchInterval : UInt32 := 200

/-- Looks at the files again and again, and builds when one that matters has changed. -/
partial def watch (env : Surroundings) (args : List String) (w : Watcher) (before : FileTree) :
    IO Unit := do
  IO.sleep watchInterval
  let files ← load env args
  match (FileTree.changedPaths before files).find? w.isRelevant with
  | none => watch env args w before
  | some path =>
    match w.changed env path { files } with
    | .ok w s =>
      finish files s
      watch env args w files
    | .error .. => return

def letters : List Char := "0123456789ABCDEFGHJKMNPQRSTVWXYZ".toList

def compilationName : IO String := do
  let picked ← (List.replicate 26 ()).mapM fun _ => do
    return letters.getD (← IO.rand 0 31) '0'
  return String.ofList picked

def readEnvironment : IO (List (String × String)) := do
  let found ← variableNames.mapM fun name => do
    return (← IO.getEnv name).map (name, ·)
  return found.filterMap id

end Grf.Main

open Grf in
def main (args : List String) : IO UInt32 := do
  let environment ← Main.readEnvironment
  let isTerminal ← (← IO.getStderr).isTty
  let env := Command.Surroundings.ofEnvironment environment isTerminal (← Main.compilationName)
  let files ← Main.load env args
  let (outcome, s) := Command.execute env args { files }
  Main.finish files s
  match outcome with
  | .exit status => return status.toUInt32
  | .watching w =>
    Main.watch env args w s.files
    return 0
