import Grf.Command.Session

/-! # Watching

A watcher builds a declaration file again each time a file changes that its output depends on. It keeps
the parsed files of earlier builds. A failed build is printed and watching goes on.
-/

namespace Grf.Command

structure BuildRequest where
  input : String
  output : String
  options : BuildOptions
  settings : Settings
deriving Repr, Inhabited

/-- Runs a build and writes its output to a file, which is left alone if the build fails. -/
def runBuild (env : Surroundings) (request : BuildRequest) (workshop : Workshop) :
    Action (Except Failure Statistics × Workshop) := do
  let files := (← get).files
  match build env.compilation request.options files request.input workshop with
  | .error e w =>
    note request.settings w.log.reverse
    return (.error e, w)
  | .ok statistics w =>
    note request.settings w.log.reverse
    match files.write request.output w.destination.received.toList with
    | .ok files =>
      modify fun s => { s with files }
      return (.ok statistics, w)
    | .error e => return (.error (.error (.wrapped "failed to write the output file" e)), w)

structure Watcher where
  request : BuildRequest
  parsed : ParseCache DeclarationFile := {}
deriving Inhabited

namespace Watcher

def maxParsed : Nat := 16

/-- Whether a change at a path may change the output: it is the input, or a language file. -/
def isRelevant (w : Watcher) (path : String) : Bool :=
  let langDir := w.request.options.langDir
  Path.clean path == Path.clean w.request.input
    || (!langDir.isEmpty && match Path.inside? langDir path with
      | some parts => FileTree.isLanguageName parts
      | none => false)

def succeeded (request : BuildRequest) (statistics : Statistics) : LogEntry :=
  { level := .info, message := "build succeeded"
    fields := [("output", .text request.output), ("size", .number statistics.outputSize)] }

def rebuild (env : Surroundings) (w : Watcher) : Action (Watcher × Option Fault) := do
  let parsed := if maxParsed < w.parsed.size then w.parsed.clear else w.parsed
  let (result, workshop) ← runBuild env w.request { parsed := some parsed }
  let w := { w with parsed := workshop.parsed.getD parsed }
  match result with
  | .ok statistics =>
    note w.request.settings [succeeded w.request statistics]
    return (w, none)
  | .error (.error e) =>
    report env e
    return (w, none)
  | .error (.fault f) => return (w, some f)

/-- What has to be there to be watched: the directory of the input and, if there is one, the directory
of the language files. -/
def check (files : FileTree) (request : BuildRequest) : Except Error Unit := do
  let langDir := request.options.langDir
  if !langDir.isEmpty then
    match files.find langDir with
    | .ok _ => pure ()
    | .error problem => throw (.file "lstat" langDir problem)
  match files.find (Path.parent request.input) with
  | .ok _ => pure ()
  | .error problem => throw (.wrapped "failed to watch directories" (.plain problem.text))

/-- Starts to watch, with a first build. A fault in it ends the command. There is no watcher if
something is missing. -/
def start (env : Surroundings) (request : BuildRequest) : Action (Option Watcher) := do
  match check (← get).files request with
  | .error e =>
    report env e
    return none
  | .ok _ =>
    let (w, fault) ← rebuild env { request }
    match fault with
    | some f => throw f
    | none => return some w

/-- What to do after a change at a path. A fault in a later build is printed like an error. -/
def changed (env : Surroundings) (w : Watcher) (path : String) : Action Watcher := do
  if w.isRelevant path then
    let (w, fault) ← rebuild env w
    match fault with
    | some f => report env (.plain f.message)
    | none => pure ()
    return w
  else return w

end Watcher

end Grf.Command
