import Grf.Build
import Grf.Settings

/-! # Sessions of the command line

A command reads and writes files and prints. All of this is the state of a session, so that a command
is a computation without effects of its own. What it cannot change are its surroundings: the
environment, and where the settings and the build cache are kept.
-/

namespace Grf.Command

structure Surroundings where
  environment : List (String × String) := []
  /-- Where the settings are looked for, in order. -/
  settingsPaths : List String := []
  cachePath : String := ""
  isTerminal : Bool := false
  compilation : String := ""
deriving Repr, Inhabited

structure Session where
  files : FileTree := {}
  printed : String := ""
  complaints : String := ""
  /-- The log, the last entry first. -/
  log : List LogEntry := []
deriving Inhabited

abbrev Action := EStateM Fault Session

def print (text : String) : Action Unit := modify fun s => { s with printed := s.printed ++ text }

def complain (text : String) : Action Unit :=
  modify fun s => { s with complaints := s.complaints ++ text }

def Surroundings.lookup? (env : Surroundings) (name : String) : Option String :=
  env.environment.lookup name

/-- Whether a variable of the environment is on: set, and not to an empty text, `0` or `false`. -/
def Surroundings.isOn (env : Surroundings) (name : String) : Bool :=
  match env.lookup? name with
  | some value => !(["", "0", "false"].contains value)
  | none => false

def variableNames : List String :=
  ["GRFC_LOG_LEVEL", "NO_COLOR", "FORCE_COLOR", "COLORTERM", "TERM", "COMP_LINE", "COMP_POINT", "HOME",
   "XDG_CONFIG_HOME", "XDG_CONFIG_DIRS", "XDG_CACHE_HOME"]

/-- The directory that a variable names, or else one in the home directory. -/
def homeDirectory (environment : List (String × String)) (name default : String) : String :=
  match environment.lookup name with
  | none | some "" => Path.join ((environment.lookup "HOME").getD "") default
  | some directory => directory

/-- Surroundings with the usual places of the settings and of the build cache. -/
def Surroundings.ofEnvironment (environment : List (String × String)) (isTerminal : Bool)
    (compilation : String) : Surroundings :=
  let shared := ((environment.lookup "XDG_CONFIG_DIRS").getD "/etc/xdg").splitOn ":"
  let directories := homeDirectory environment "XDG_CONFIG_HOME" ".config" :: shared
  { environment, isTerminal, compilation
    settingsPaths := directories.map (Path.join · "grfc/config.yaml")
    cachePath := Path.join (homeDirectory environment "XDG_CACHE_HOME" ".cache") "grfc/build-cache.db" }

def Surroundings.isColoured (env : Surroundings) : Bool :=
  let manyColours := env.lookup? "COLORTERM" == some "truecolor"
    || 1 < (((env.lookup? "TERM").getD "").splitOn "256color").length
  !env.isOn "NO_COLOR" && (env.isOn "FORCE_COLOR" || (env.isTerminal && manyColours))

def Surroundings.colour (env : Surroundings) (number : Nat) (text : String) : String :=
  if env.isColoured then "\x1b[" ++ toString number ++ "m" ++ text ++ "\x1b[0m" else text

def brightWhite : Nat := 97

def red : Nat := 31

/-- An error as it is printed. A compile error shows its position and its kind in colours. -/
def errorText (env : Surroundings) (e : Error) : String :=
  let plain := env.colour red "error: " ++ e.message ++ "\n"
  match e.compileError? with
  | none => plain
  | some c =>
    if c.pos.isUnknown then plain
    else env.colour brightWhite (c.pos.text ++ ": ") ++ env.colour red (c.kind.name ++ ": ")
      ++ c.message ++ "\n"

def report (env : Surroundings) (e : Error) : Action Unit := complain (errorText env e)

/-- The settings from the first file that exists, with the level of the log from the environment. -/
def loadSettings (env : Surroundings) (files : FileTree) : Except Error Settings := do
  let settings ← match env.settingsPaths.find? files.contains with
    | some path => Settings.loadFile files path
    | none => pure {}
  let settings := match env.lookup? "GRFC_LOG_LEVEL" with
    | some level => if level.isEmpty then settings else { settings with logLevel := level }
    | none => settings
  settings.validate
  return settings

def levelNumber : LogLevel → Int
  | .debug => 0
  | .info => 1
  | .warn => 2

def note (settings : Settings) (entries : List LogEntry) : Action Unit :=
  match settings.level with
  | .ok level =>
    modify fun s => { s with log := (entries.filter (level ≤ levelNumber ·.level)).reverse ++ s.log }
  | .error _ => pure ()

/-- The build cache of the session. The way to its file is made, and there is none if that fails or if
the file is something else. -/
def openCache (env : Surroundings) : Action (Option BuildCache) := do
  let s ← get
  match s.files.makeWay? env.cachePath with
  | none => return none
  | some files =>
    set { s with files }
    return BuildCache.openAt? files env.cachePath

def saveCache (env : Surroundings) (cache : BuildCache) : Action Unit :=
  modify fun s => { s with files := s.files.put env.cachePath (.file cache.encode) }

end Grf.Command
