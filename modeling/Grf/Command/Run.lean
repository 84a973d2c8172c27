import Grf.Command.Completion
import Grf.Command.Flag
import Grf.Command.Watch

/-! # Running commands

A command ends with a status, zero if it succeeded, except for a watcher, which goes on.
-/

namespace Grf.Command

/-- How a command ends. -/
inductive Outcome
  | exit (status : Nat)
  | watching (watcher : Watcher)
deriving Inhabited

def langFlag (s : Settings) : Flag := ⟨"lang", "directory of the language files", .text s.langDir⟩

/-- The flag for the longest run of records that is skipped without a label. -/
def skipFlag (s : Settings) : Flag :=
  ⟨"max-inline-skip", "maximum number of sprites skipped without a label", .number s.maxInlineSkip⟩

def buildFlags (s : Settings) : List Flag :=
  [⟨"o", "output file, the extension of the format replaces the extension of the input by default",
      .text ""⟩,
   ⟨"format", "output format: grf or nfo", .text s.outputFormat⟩, langFlag s, skipFlag s,
   ⟨"stats", "print the statistics of the build as JSON", .switch false⟩,
   ⟨"no-cache", "do not use the build cache", .switch false⟩]

def checkFlags (s : Settings) : List Flag := [langFlag s, skipFlag s]

def showHelp (name : String) (flags : List Flag) : Action Unit :=
  print (description name ++ "\n\noptions:\n" ++ describeFlags flags)

def showUsage (name : String) (flags : List Flag) (failure : FlagFailure) : Action Unit :=
  let mistake := match failure with
    | .help => ""
    | .mistake message => message ++ "\n"
  complain (mistake ++ "Usage of " ++ name ++ ":\n" ++ describeFlags flags)

def applyFlags (s : Settings) (a : Arguments) : Settings :=
  { s with
    outputFormat := a.text "format" s.outputFormat
    langDir := a.text "lang" s.langDir
    maxInlineSkip := a.number "max-inline-skip" s.maxInlineSkip }

def buildOptions (s : Settings) : BuildOptions :=
  { maxInlineSkip := s.maxInlineSkip, langDir := s.langDir, format := s.outputFormat }

/-- Runs a command with its arguments, unless they ask for help or are wrong. -/
def withArguments (name : String) (flags : List Flag) (settings : Settings) (args : List String)
    (run : Arguments → Settings → Action Outcome) : Action Outcome := do
  if args.contains "-h" || args.contains "--help" then
    showHelp name flags
    return .exit 0
  match readArguments flags args with
  | .error failure =>
    showUsage name flags failure
    return .exit 1
  | .ok arguments =>
    let settings := applyFlags settings arguments
    match settings.validate with
    | .error e =>
      complain (e.message ++ "\n")
      return .exit 1
    | .ok _ => run arguments settings

def defaultOutput (input format : String) : String := Path.withoutEnding input ++ "." ++ format

def withRequest (name : String) (settings : Settings) (args : List String)
    (run : Arguments → BuildRequest → Action Outcome) : Action Outcome :=
  withArguments name (buildFlags settings) settings args fun arguments settings => do
    match arguments.plain with
    | [input] =>
      if input.isEmpty then refuse
      else
        let given := arguments.text "o" ""
        let output := if given.isEmpty then defaultOutput input settings.outputFormat else given
        run arguments { input, output, options := buildOptions settings, settings }
    | _ => refuse
where
  refuse : Action Outcome := do
    complain "a single declaration file is expected\n"
    return .exit 1

def reportFailure (env : Surroundings) : Failure → Action Unit
  | .error e => report env e
  | .fault f => throw f

def runBuildCommand (env : Surroundings) (arguments : Arguments) (request : BuildRequest) :
    Action Outcome := do
  let outputs ← if arguments.switch "no-cache" then pure none else openCache env
  let (result, workshop) ← runBuild env request { outputs }
  match workshop.outputs with
  | some cache => saveCache env cache
  | none => pure ()
  match result with
  | .error failure =>
    reportFailure env failure
    return .exit 1
  | .ok statistics =>
    if arguments.switch "stats" then print (statistics.toJson.render ++ "\n")
    return .exit 0

def checkFile (env : Surroundings) (settings : Settings) (path : String) : Action Bool := do
  match check env.compilation (buildOptions settings) (← get).files path {} with
  | .ok _ w =>
    note settings w.log.reverse
    print (path ++ ": ok\n")
    return true
  | .error failure w =>
    note settings w.log.reverse
    reportFailure env failure
    return false

def runCheckCommand (env : Surroundings) (arguments : Arguments) (settings : Settings) :
    Action Outcome := do
  if arguments.plain.isEmpty then
    complain "missing declaration file\n"
    return .exit 1
  let results ← arguments.plain.mapM (checkFile env settings)
  let failed := results.countP (!·)
  if failed = 0 then return .exit 0
  complain (toString failed ++ " of " ++ toString results.length ++ " file(s) failed\n")
  return .exit 1

def runWatchCommand (env : Surroundings) (request : BuildRequest) : Action Outcome := do
  match ← Watcher.start env request with
  | some watcher =>
    note request.settings
      [{ level := .info, message := "watching for changes", fields := [("input", .text request.input)] }]
    return .watching watcher
  | none => return .exit 1

def runWithSettings (env : Surroundings) (name : String) (args : List String) : Action Outcome := do
  match loadSettings env (← get).files with
  | .error e =>
    complain (e.message ++ "\n")
    return .exit 1
  | .ok settings =>
    match name with
    | "build" => withRequest name settings args (runBuildCommand env)
    | "check" => withArguments name (checkFlags settings) settings args (runCheckCommand env)
    | _ => withRequest name settings args fun _ => runWatchCommand env

def run (env : Surroundings) (args : List String) : Action Outcome := do
  let (name, args) := select args
  if !names.contains name then
    complain ("unknown command '" ++ name ++ "'\n" ++ generalHelp)
    return .exit 1
  match name with
  | "help" =>
    print generalHelp
    return .exit 0
  | "version" =>
    print (Version.current.text ++ "\n")
    return .exit 0
  | "install-completions" =>
    complain "Did not find any shells to install\n"
    return .exit 1
  | "uninstall-completions" =>
    complain "Did not find any shells to uninstall\n"
    return .exit 1
  | _ => runWithSettings env name args

def readPoint? (s : String) : Option Nat :=
  let (negative, digits) := Text.splitSign s.toList
  match Text.readDigits? 10 digits with
  | some n => if negative && n != 0 then none else some n
  | none => none

def runCompletion (line point : String) : Action Outcome := do
  match readPoint? point with
  | none =>
    complain ("COMP_POINT env should be integer, got: " ++ point ++ "\n")
    return .exit 2
  | some n =>
    match Completion.complete (← get).files line n with
    | .ok options => print (String.join (options.map (· ++ "\n")))
    | .error e => print ("\n" ++ e.message ++ "\n")
    return .exit 0

def respond (env : Surroundings) (args : List String) : Action Outcome :=
  match env.lookup? "COMP_LINE" with
  | none | some "" => run env args
  | some line => runCompletion line ((env.lookup? "COMP_POINT").getD "")

def execute (env : Surroundings) (args : List String) (s : Session) : Outcome × Session :=
  match respond env args s with
  | .ok outcome s => (outcome, s)
  | .error f s =>
    (.exit 1, { s with complaints := s.complaints ++ "internal compiler error: " ++ f.message ++ "\n" })

end Grf.Command
