import Grf.Cache.Build
import Grf.Cache.Parse
import Grf.Declaration.Load
import Grf.Statistics

/-! # Builds

A build reads a declaration file, compiles it and delivers the output to a destination. It may use two
caches: the build cache, which keeps the output by everything it depends on, and the parse cache, which
keeps parsed files by their content.

A build is a computation over the caches and the destination. What it has changed there stays when it
fails.
-/

namespace Grf

structure BuildOptions extends CompileOptions where
  /-- The format of the output, the default one if it is empty. -/
  format : String := ""
deriving DecidableEq, Repr, Inhabited

structure Workshop where
  outputs : Option BuildCache := none
  parsed : Option (ParseCache DeclarationFile) := none
  destination : Sink := {}
  /-- The log, the last entry first. -/
  log : List LogEntry := []
deriving Inhabited

abbrev Building := EStateM Failure Workshop

namespace Building

def fail {α : Type} (e : Error) : Building α := throw (.error e)

def lift {α : Type} : Except Failure α → Building α
  | .ok a => pure a
  | .error e => throw e

def note (entries : List LogEntry) : Building Unit :=
  modify fun w => { w with log := entries.reverse ++ w.log }

def readDeclarations (files : FileTree) (path : String) : Except Failure (List UInt8) :=
  match files.read path with
  | .ok content => .ok content
  | .error e => .error (.error (.wrapped "failed to read declaration file" e))

def parseContent (path : String) (content : List UInt8) : Except Failure DeclarationFile :=
  DeclarationFile.parse path (Text.decode content) (DocumentFormat.ofPath path)

def parse (path : String) (content : List UInt8) : Building DeclarationFile := do
  match (← get).parsed with
  | none => lift (parseContent path content)
  | some cache =>
    match cache.get? path content with
    | some file => return file
    | none =>
      let file ← lift (parseContent path content)
      modify fun w => { w with parsed := some (cache.put path content file) }
      return file

def readLanguages (files : FileTree) (directory : String) :
    Except Failure (List (String × List UInt8)) :=
  (files.languageFiles directory).mapM fun path =>
    match files.readFrom directory path with
    | .ok content => .ok (path, content)
    | .error e => .error (.error (.wrapped "failed to read language file" e))

/-- Everything that an output depends on: the compiler, the options, the declaration file and the
language files. -/
def keyParts (options : BuildOptions) (format path : String) (content : List UInt8)
    (languages : List (String × List UInt8)) : List (List UInt8) :=
  [Text.bytesOf Version.current.text, Text.bytesOf format,
    Text.bytesOf (Text.decimal options.maxInlineSkip), Text.bytesOf path, content]
  ++ (languages.mergeSort fun a b => !decide (b.1 < a.1)).flatMap
    fun (name, content) => [Text.bytesOf name, content]

def outputKey (options : BuildOptions) (format : String) (files : FileTree) (path : String)
    (content : List UInt8) : Except Failure (List UInt8) := do
  let languages ← if options.langDir.isEmpty then pure [] else readLanguages files options.langDir
  return buildKey (keyParts options format path content languages)

def deliveryError : Error := .wrapped "failed to write the output" Sink.full

def deliver (output : List UInt8) : Building Unit := do
  let w ← get
  let destination := w.destination.deliver output.toArray
  set { w with destination := { destination with failed := w.destination.failed } }
  if destination.failed then fail deliveryError

def outputOf (c : Compilation) (format : String) : Except Failure (List UInt8) :=
  match format with
  | "grf" => c.container none
  | "nfo" => c.listing none
  | _ => .error (.error (.plain ("unknown output format " ++ Text.quote format)))

def compileAndDeliver (id : String) (options : BuildOptions) (format : String) (files : FileTree)
    (path : String) (content : List UInt8) : Building (Statistics × List UInt8) := do
  let file ← parse path content
  let compilation ← lift (compile id options.toCompileOptions files file)
  note compilation.log
  let output ← lift (outputOf compilation format)
  deliver output
  return ({ Statistics.ofCompilation compilation with format, outputSize := output.length }, output)

def delivered (path format : String) (size : Nat) : LogEntry :=
  { level := .info, message := "output written"
    fields := [("size", .number size), ("format", .text format), ("src", .text path)] }

/-- The output of a key in the build cache. A cache that cannot be read has none. -/
def cached (cache : BuildCache) (path : String) (key : List UInt8) :
    Building (Option (List UInt8)) := do
  match cache.get key with
  | .ok (some output) =>
    note [{ level := .debug, message := "output found in the build cache", fields := [("src", .text path)] }]
    return some output
  | .ok none => return none
  | .error e =>
    note [{ level := .warn, message := "failed to read the build cache", fields := [("error", .text e.message)] }]
    return none

def keep (cache : BuildCache) (key output : List UInt8) : Building Unit := do
  match cache.put key output with
  | .ok cache => modify fun w => { w with outputs := some cache }
  | .error e => fail (.wrapped "failed to update the build cache" e)

end Building

open Building

def build (id : String) (options : BuildOptions) (files : FileTree) (path : String) :
    Building Statistics := do
  let format := if options.format.isEmpty then "grf" else options.format
  let content ← lift (readDeclarations files path)
  match (← get).outputs with
  | none =>
    let (statistics, _) ← compileAndDeliver id options format files path content
    note [delivered path format statistics.outputSize]
    return statistics
  | some cache =>
    let key ← lift (outputKey options format files path content)
    match ← cached cache path key with
    | some output =>
      deliver output
      return { source := path, format, cached := true, outputSize := output.length }
    | none =>
      let (statistics, output) ← compileAndDeliver id options format files path content
      keep cache key output
      note [delivered path format statistics.outputSize]
      return statistics

def check (id : String) (options : BuildOptions) (files : FileTree) (path : String) :
    Building Compilation := do
  let content ← lift (readDeclarations files path)
  let file ← parse path content
  let compilation ← lift (compile id options.toCompileOptions files file)
  note compilation.log
  return compilation

end Grf
