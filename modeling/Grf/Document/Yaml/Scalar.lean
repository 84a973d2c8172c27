import Grf.Text.Number

/-! # Plain scalars of YAML

A plain scalar stands for a null, a truth value, a number or a text, by its spelling alone.
`Scalar.ofPlain` tells which. A number may have underscores between its digits. What looks like an
integer but has digits outside of its base is zero, and what is too large is the largest number.
-/

namespace Grf.Yaml

/-- The value of a scalar. Floating-point numbers keep their text. -/
inductive Scalar
  | null
  | bool (value : Bool)
  | int (value : Int)
  | float (text : String)
  | infinity (text : String)
  | nan (text : String)
  | string (value : String)
  | merge
deriving DecidableEq, Repr, Inhabited

namespace Scalar

def keyText : Scalar → String
  | null => "null"
  | bool value => if value then "true" else "false"
  | int value => Text.decimal value
  | float text => text
  | infinity text => text
  | nan text => text
  | string value => value
  | merge => "<<"

/-- Whether a character may stand in a number at place `i`, after a decimal point or not, inside an
exponent or not. `mark` is the place of a base mark, and `isHex` tells that there is the mark of
hexadecimal digits. The result is what is known after the character. -/
def numberChar? (mark : Nat) (isHex : Bool) (i : Nat) (point exponent : Bool) (c : Char) :
    Option (Bool × Bool) :=
  if c.isDigit || c == '_' then some (point, exponent)
  else if c == 'x' || c == 'o' then if i = mark then some (point, exponent) else none
  else if (Text.digitValue? 16 c).isSome then
    if isHex || (c == 'b' && i = mark) then some (point, exponent)
    else if (c == 'e' || c == 'E') && point then some (point, true)
    else none
  else if c == '.' then if point then none else some (true, exponent)
  else if c == '-' || c == '+' then if i = 0 || exponent then some (point, exponent) else none
  else none

/-- Whether characters from place `i` on continue a number. The result tells whether there is a
decimal point. -/
def numberRest? (mark : Nat) (isHex : Bool) (i : Nat) (point exponent : Bool) :
    List Char → Option Bool
  | [] => some point
  | c :: rest =>
    match numberChar? mark isHex i point exponent c with
    | some (point, exponent) => numberRest? mark isHex (i + 1) point exponent rest
    | none => none

def number? (s : List Char) : Option Bool :=
  match s with
  | [] | ['-'] | ['.'] | ['+'] | ['_'] | '_' :: _ => none
  | '-' :: rest =>
    let isHex := match rest with
      | '0' :: 'x' :: _ :: _ => true
      | _ => false
    numberRest? 2 isHex 0 false false s
  | _ =>
    let isHex := match s with
      | '0' :: 'x' :: _ :: _ => true
      | _ => false
    numberRest? 1 isHex 0 false false s

def maxUnsigned : Nat := 0xFFFFFFFFFFFFFFFF

/-- The number that digits of a base write from `n` on: zero after a wrong digit, the largest number
once it is passed. -/
def readDigits (base n : Nat) : List Char → Nat
  | [] => n
  | c :: rest =>
    match Text.digitValue? base c with
    | none => 0
    | some d => if maxUnsigned < n * base + d then maxUnsigned else readDigits base (n * base + d) rest

def signed (negative : Bool) (n : Nat) : Int :=
  if negative then max Text.minInt64 (-n) else min Text.maxInt64 n

def basedDigits : List Char → Nat × List Char
  | '0' :: 'b' :: rest => (2, rest)
  | '0' :: 'x' :: rest => (16, rest)
  | '0' :: 'o' :: rest => (8, rest)
  | '0' :: c :: rest => (8, c :: rest)
  | digits => (10, digits)

/-- The value of an integer. A sign makes it a number in the signed range. -/
def readInteger (s : List Char) : Int :=
  match s.filter (· != '_') with
  | '-' :: rest =>
    let (base, digits) := basedDigits rest
    signed true (readDigits base 0 digits)
  | '+' :: rest => signed false (readDigits 10 0 rest)
  | digits =>
    let (base, digits) := basedDigits digits
    readDigits base 0 digits

def ofPlain (s : String) : Scalar :=
  if ["null", "Null", "NULL", "~"].contains s then null
  else if ["true", "True", "TRUE"].contains s then bool true
  else if ["false", "False", "FALSE"].contains s then bool false
  else if [".inf", ".Inf", ".INF", "-.inf", "-.Inf", "-.INF"].contains s then infinity s
  else if [".nan", ".NaN", ".NAN"].contains s then nan s
  else match number? s.toList with
    | some true => float s
    | some false => int (readInteger s.toList)
    | none => string s

end Scalar

end Grf.Yaml
