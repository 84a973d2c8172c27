import Grf.Text.Quoted

/-! # Log entries

While it compiles, the compiler notes what it does and what may be of interest. An entry has a level, a
message and named values.
-/

namespace Grf

inductive LogLevel
  | debug | info | warn
deriving DecidableEq, Repr, Inhabited

def LogLevel.name : LogLevel → String
  | debug => "debug"
  | info => "info"
  | warn => "warn"

inductive LogValue
  | text (value : String)
  | number (value : Int)
deriving DecidableEq, Repr, Inhabited

structure LogEntry where
  level : LogLevel
  message : String
  fields : List (String × LogValue) := []
deriving DecidableEq, Repr, Inhabited

def LogLevel.mark : LogLevel → String
  | debug => "DBG"
  | info => "INF"
  | warn => "WRN"

/-- A value in a line of the log. A text is quoted if it has anything but plain characters. -/
def LogValue.line : LogValue → String
  | text value =>
    if value.toList.all fun c => ' ' < c && c ≤ '~' && c != '"' && c != '\\' then value
    else Text.quote value
  | number value => Text.decimal value

def LogEntry.line (e : LogEntry) : String :=
  " ".intercalate ([e.level.mark, e.message] ++ e.fields.map fun (name, value) => name ++ "=" ++ value.line)

end Grf
