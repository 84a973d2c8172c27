import Grf.Text.Decimal
import Grf.Text.Quoted

/-! # Flags of the command line

A flag is a text, a number or a switch. Flags stand before the other arguments, with one dash or two.
The value of a flag follows after an equals sign or as the next argument, and a switch takes a value
only after an equals sign. Two dashes alone end the flags.
-/

namespace Grf.Command

inductive FlagValue
  | text (value : String)
  | number (value : Int)
  | switch (value : Bool)
deriving DecidableEq, Repr, Inhabited

/-- A flag with its description. Its default tells what kind of value it has. -/
structure Flag where
  name : String
  usage : String
  default : FlagValue
deriving DecidableEq, Repr, Inhabited

def FlagValue.kindName : FlagValue → String
  | text _ => "string"
  | number _ => "int"
  | switch _ => ""

/-- The remark on a default, if it is not the empty one of its kind. -/
def FlagValue.remark : FlagValue → String
  | text value => if value.isEmpty then "" else " (default " ++ Text.quote value ++ ")"
  | number value => if value = 0 then "" else " (default " ++ Text.decimal value ++ ")"
  | switch value => if value then " (default true)" else ""

/-- The description of a flag. A short one stands in the line of the flag. -/
def Flag.describe (f : Flag) : String :=
  let head := "  -" ++ f.name ++ (if f.default.kindName.isEmpty then "" else " " ++ f.default.kindName)
  let gap := if head.utf8ByteSize ≤ 4 then "\t" else "\n    \t"
  head ++ gap ++ f.usage ++ f.default.remark ++ "\n"

def describeFlags (flags : List Flag) : String :=
  String.join ((flags.mergeSort fun a b => !decide (b.name < a.name)).map Flag.describe)

inductive ValueProblem
  | malformed | outOfRange
deriving DecidableEq, Repr, Inhabited

def ValueProblem.text : ValueProblem → String
  | malformed => "parse error"
  | outOfRange => "value out of range"

/-- Reads digits of a base from `n` on, underscores aside. -/
def readMagnitude (base n : Nat) : List Char → Except ValueProblem Nat
  | [] => .ok n
  | c :: rest =>
    if c == '_' then readMagnitude base n rest
    else match Text.digitValue? base c with
      | none => .error .malformed
      | some d =>
        let v := n * base + d
        if 0x10000000000000000 ≤ v then .error .outOfRange else readMagnitude base v rest

def splitBase : List Char → Nat × List Char
  | '0' :: mark :: d :: rest =>
    match mark.toLower with
    | 'b' => (2, d :: rest)
    | 'o' => (8, d :: rest)
    | 'x' => (16, d :: rest)
    | _ => (8, mark :: d :: rest)
  | '0' :: rest => (8, rest)
  | digits => (10, digits)

def readNumber (s : String) : Except ValueProblem Int := do
  let (negative, digits) := Text.splitSign s.toList
  if digits.isEmpty then throw .malformed
  let (base, rest) := splitBase digits
  let n ← readMagnitude base 0 rest
  if digits.contains '_' && !Text.underscoresOk digits then throw .malformed
  let v : Int := if negative then -n else n
  match Text.inInt64? v with
  | some v => return v
  | none => throw .outOfRange

def onWords : List String := ["1", "t", "T", "true", "TRUE", "True"]

def offWords : List String := ["0", "f", "F", "false", "FALSE", "False"]

def readSwitch (s : String) : Except ValueProblem Bool :=
  if onWords.contains s then .ok true
  else if offWords.contains s then .ok false
  else .error .malformed

/-- What ends the reading of flags before its time: a wish for help, or a mistake. -/
inductive FlagFailure
  | help
  | mistake (message : String)
deriving DecidableEq, Repr, Inhabited

/-- An argument that is a flag, without its dashes: its name, and the value after an equals sign. -/
def splitFlag (body : List Char) : String × Option String :=
  let name := body.takeWhile (· != '=')
  match body.dropWhile (· != '=') with
  | _ :: value => (String.ofList name, some (String.ofList value))
  | [] => (String.ofList name, none)

inductive Argument
  | plain
  | endOfFlags
  | flag (body : List Char)
deriving DecidableEq, Repr, Inhabited

def Argument.ofText (s : String) : Argument :=
  match s.toList with
  | '-' :: '-' :: [] => .endOfFlags
  | '-' :: '-' :: body => .flag body
  | '-' :: c :: body => .flag (c :: body)
  | _ => .plain

def readValue (f : Flag) (value : String) : Except FlagFailure FlagValue :=
  let invalid (problem : ValueProblem) : Except FlagFailure FlagValue :=
    .error (.mistake ("invalid value " ++ Text.quote value ++ " for flag -" ++ f.name ++ ": " ++ problem.text))
  match f.default with
  | .text _ => .ok (.text value)
  | .number _ =>
    match readNumber value with
    | .ok n => .ok (.number n)
    | .error problem => invalid problem
  | .switch _ =>
    match readSwitch value with
    | .ok b => .ok (.switch b)
    | .error problem =>
      .error (.mistake ("invalid boolean value " ++ Text.quote value ++ " for -" ++ f.name ++ ": " ++
        problem.text))

def Flag.isSwitch (f : Flag) : Bool :=
  match f.default with
  | .switch _ => true
  | _ => false

/-- Flags that were set, the last one first, and the other arguments. -/
structure Arguments where
  set : List (String × FlagValue) := []
  plain : List String := []
deriving DecidableEq, Repr, Inhabited

def findFlag (flags : List Flag) (name : String) : Except FlagFailure Flag :=
  match flags.find? (·.name == name) with
  | some f => .ok f
  | none =>
    if name == "help" || name == "h" then .error .help
    else .error (.mistake ("flag provided but not defined: -" ++ name))

/-- Reads arguments up to the first one that is no flag. `fuel` is at least their number. -/
def readFlags (flags : List Flag) (set : List (String × FlagValue)) :
    Nat → List String → Except FlagFailure Arguments
  | 0, args => .ok { set, plain := args }
  | _, [] => .ok { set }
  | fuel + 1, arg :: rest =>
    match Argument.ofText arg with
    | .plain => .ok { set, plain := arg :: rest }
    | .endOfFlags => .ok { set, plain := rest }
    | .flag body =>
      if body.head? == some '-' || body.head? == some '=' then
        .error (.mistake ("bad flag syntax: " ++ arg))
      else
        let (name, value) := splitFlag body
        match findFlag flags name with
        | .error e => .error e
        | .ok f =>
          match value, rest with
          | some value, _ => do readFlags flags ((name, ← readValue f value) :: set) fuel rest
          | none, _ =>
            if f.isSwitch then readFlags flags ((name, .switch true) :: set) fuel rest
            else match rest with
              | value :: rest => do readFlags flags ((name, ← readValue f value) :: set) fuel rest
              | [] => .error (.mistake ("flag needs an argument: -" ++ name))

def readArguments (flags : List Flag) (args : List String) : Except FlagFailure Arguments :=
  readFlags flags [] args.length args

namespace Arguments

def text (a : Arguments) (name default : String) : String :=
  match a.set.lookup name with
  | some (.text value) => value
  | _ => default

def number (a : Arguments) (name : String) (default : Int) : Int :=
  match a.set.lookup name with
  | some (.number value) => value
  | _ => default

def switch (a : Arguments) (name : String) : Bool := a.set.lookup name == some (.switch true)

end Arguments

end Grf.Command
