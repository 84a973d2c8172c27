import Grf.Context
import Grf.Document.Yaml.Fields
import Grf.FileTree
import Grf.Text.Fold

/-! # Settings

The settings of the compiler, with the file they are read from. A field that the file does not have
keeps its default, and a field that is not known is an error.
-/

namespace Grf

structure Settings where
  maxInlineSkip : Int := Context.defaultInlineSkip
  outputFormat : String := "grf"
  logLevel : String := "info"
  /-- The directory of the language files, empty if there is none. -/
  langDir : String := ""
deriving DecidableEq, Repr, Inhabited

/-- The names of the levels of the log from minus one on. The empty one stands for entries without a
level. -/
def levelNames : List String :=
  ["trace", "debug", "info", "warn", "error", "fatal", "panic", "", "disabled"]

def levelName (level : Int) : String :=
  match levelNames[(level + 1).toNat]? with
  | some name => if level < -1 then Text.decimal level else name
  | none => Text.decimal level

def readDecimal? (s : String) : Option Int := do
  let (negative, digits) := match s.toList with
    | '-' :: rest => (true, rest)
    | '+' :: rest => (false, rest)
    | rest => (false, rest)
  let n ← Text.readDigits? 10 digits
  return if negative then -n else n

/-- The level with a name, in either case, or with a number of eight bits. -/
def readLevel? (s : String) : Option Int :=
  match levelNames.findIdx? (Text.equalFold s) with
  | some i => some ((i : Int) - 1)
  | none => (readDecimal? s).filter fun n => -128 ≤ n ∧ n ≤ 127

namespace Settings

def fieldNames : List String := ["max_inline_skip", "output_format", "log_level", "lang_dir"]

def parse? (text : String) : Option Settings := do
  let fields ← Yaml.Fields.read? text
  let defaults : Settings := {}
  let maxInlineSkip ← fields.int? "max_inline_skip" defaults.maxInlineSkip
  let outputFormat ← fields.text? "output_format" defaults.outputFormat
  let logLevel ← fields.text? "log_level" defaults.logLevel
  let langDir ← fields.text? "lang_dir" defaults.langDir
  guard (fields.entries.all fun (name, _) => fieldNames.contains name)
  return { maxInlineSkip, outputFormat, logLevel, langDir }

def loadFile (files : FileTree) (path : String) : Except Error Settings :=
  match files.read path with
  | .error e => .error (.wrapped "failed to read the configuration file" e)
  | .ok content =>
    match parse? (Text.decode content) with
    | some settings => .ok settings
    | none => .error (.settings (path ++ ": a mapping of settings is expected"))

def level (s : Settings) : Except Error Int :=
  match readLevel? s.logLevel with
  | some level => .ok level
  | none => .error (.settings ("invalid log level " ++ Text.quote s.logLevel))

def outputFormats : List String := ["grf", "nfo"]

def validate (s : Settings) : Except Error Unit :=
  let maxSkip := Context.firstShortLabel - 1
  if s.maxInlineSkip < 1 || (maxSkip : Int) < s.maxInlineSkip then
    .error (.settings ("max_inline_skip should be in the range [1, " ++ toString maxSkip ++ "], not " ++
      Text.decimal s.maxInlineSkip))
  else if !outputFormats.contains s.outputFormat then
    .error (.settings ("unknown output format " ++ Text.quote s.outputFormat))
  else s.level.map fun _ => ()

end Settings

end Grf
