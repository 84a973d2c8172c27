import Grf.Document.Node
import Grf.Text.Decimal

/-! # JSON documents

A JSON text as a tree, in which numbers keep their text. `JsonValue.toNode` makes it a document: the keys
of an object are sorted, of equal ones the last counts, and numbers have to be integers.
-/

namespace Grf

inductive JsonValue
  | null
  | bool (value : Bool)
  | number (text : String)
  | string (value : String)
  | array (items : List JsonValue)
  | object (entries : List (String × JsonValue))
deriving Repr, Inhabited

namespace JsonValue

def isSpace (c : Char) : Bool := c == ' ' || c == '\n' || c == '\t' || c == '\r'

def skip (cs : List Char) : List Char := cs.dropWhile isSpace

def isNumberChar (c : Char) : Bool :=
  c.isDigit || c == '.' || c == 'e' || c == 'E' || c == '+' || c == '-'

/-- The first number that rounds to infinity as a floating-point number of 64 bits. -/
def floatLimit : Nat := Nat.pow 2 1024 - Nat.pow 2 970

/-- Whether a decimal number is too large for a floating-point number of 64 bits. -/
def isTooLarge (whole fraction : List Char) (exponent : Int) : Bool :=
  let digits := (whole ++ fraction).dropWhile (· == '0')
  let scale := exponent - fraction.length
  let magnitude : Int := digits.length + scale
  if digits.isEmpty || magnitude < 300 then false
  else if 320 < magnitude then true
  else
    let n := (Text.readDigits? 10 digits).getD 0
    let power := Nat.pow 10 scale.natAbs
    if 0 ≤ scale then floatLimit ≤ n * power else floatLimit * power ≤ n

def isNumber (cs : List Char) : Bool :=
  match Text.decimalParts? (if cs.head? = some '-' then cs.drop 1 else cs) with
  | some (whole, fraction, exponent) => !isTooLarge whole fraction exponent
  | none => false

def integer? (text : String) : Option Int :=
  match text.toList with
  | '-' :: digits => (Text.readDigits? 10 digits).bind fun n => Text.inInt64? (-n)
  | digits => (Text.readDigits? 10 digits).bind fun n => Text.inInt64? n

/-- The number of four hexadecimal digits. Another character counts as zero. -/
def unit (a b c d : Char) : Nat :=
  [a, b, c, d].foldl (fun n c => n * 16 + (Text.digitValue? 16 c).getD 0) 0

def charOf (n : Nat) : Char := if n.isValidChar then Char.ofNat n else Text.replacement

def isHigh (n : Nat) : Bool := 0xD800 ≤ n && n < 0xDC00

def isLow (n : Nat) : Bool := 0xDC00 ≤ n && n < 0xE000

def escaped? : Char → Option Char
  | '"' => some '"'
  | '\\' => some '\\'
  | '/' => some '/'
  | 'b' => some (Char.ofNat 0x08)
  | 'f' => some (Char.ofNat 0x0C)
  | 'n' => some '\n'
  | 'r' => some '\r'
  | 't' => some '\t'
  | _ => none

/-- The rest of a string after its value so far, the last character first, with the characters after
the closing quote. -/
def readString (value : List Char) : List Char → Option (String × List Char)
  | [] => none
  | '"' :: rest => some (String.ofList value.reverse, rest)
  | '\\' :: 'u' :: a :: b :: c :: d :: rest =>
    let high := unit a b c d
    match rest with
    | '\\' :: 'u' :: e :: f :: g :: h :: after =>
      let low := unit e f g h
      if isHigh high && isLow low then
        readString (charOf (0x10000 + (high - 0xD800) * 0x400 + (low - 0xDC00)) :: value) after
      else readString (charOf high :: value) ('\\' :: 'u' :: e :: f :: g :: h :: after)
    | rest => readString (charOf high :: value) rest
  | '\\' :: c :: rest =>
    match escaped? c with
    | some c => readString (c :: value) rest
    | none => none
  | '\\' :: [] => none
  | c :: rest => if c.toNat = 0 then none else readString (c :: value) rest
termination_by cs => cs.length
decreasing_by all_goals (simp; try omega)

mutual

def value : Nat → List Char → Option (JsonValue × List Char)
  | 0, _ => none
  | fuel + 1, cs =>
    match skip cs with
    | '\x7b' :: rest =>
      match skip rest with
      | '\x7d' :: after => some (object [], after)
      | rest => (members fuel rest).map fun (entries, rest) => (object entries, rest)
    | '[' :: rest =>
      match skip rest with
      | ']' :: after => some (array [], after)
      | rest => (elements fuel rest).map fun (items, rest) => (array items, rest)
    | '"' :: rest => (readString [] rest).map fun (s, rest) => (string s, rest)
    | 't' :: 'r' :: 'u' :: 'e' :: rest => some (bool true, rest)
    | 'f' :: 'a' :: 'l' :: 's' :: 'e' :: rest => some (bool false, rest)
    | 'n' :: 'u' :: 'l' :: 'l' :: rest => some (null, rest)
    | c :: rest =>
      if c == '-' || c.isDigit then
        let text := c :: rest.takeWhile isNumberChar
        if isNumber text then some (number (String.ofList text), rest.dropWhile isNumberChar) else none
      else none
    | [] => none

def members : Nat → List Char → Option (List (String × JsonValue) × List Char)
  | 0, _ => none
  | fuel + 1, cs => do
    let (key, rest) ← match skip cs with
      | '"' :: rest => readString [] rest
      | 'n' :: 'u' :: 'l' :: 'l' :: rest => some ("", rest)
      | _ => none
    let ':' :: rest := skip rest | none
    let (v, rest) ← value fuel rest
    match skip rest with
    | '\x7d' :: rest => return ([(key, v)], rest)
    | ',' :: rest =>
      let (entries, rest) ← members fuel rest
      return ((key, v) :: entries, rest)
    | _ => none

def elements : Nat → List Char → Option (List JsonValue × List Char)
  | 0, _ => none
  | fuel + 1, cs => do
    let (v, rest) ← value fuel cs
    match skip rest with
    | ']' :: rest => return ([v], rest)
    | ',' :: rest =>
      let (items, rest) ← elements fuel rest
      return (v :: items, rest)
    | _ => none

end

/-- The first value of a text and the characters after it. A separator before the value is passed
over. -/
def read? (text : String) : Option (JsonValue × List Char) :=
  let cs := skip text.toList
  let cs := match cs with
    | ',' :: rest => rest
    | ':' :: rest => rest
    | cs => cs
  value (cs.length + 1) cs

/-- Whether something follows a document. A closing bracket is not looked at. -/
def hasMore (rest : List Char) : Bool :=
  match skip rest with
  | [] | '\x7d' :: _ | ']' :: _ => false
  | c :: _ => c.toNat ≠ 0

/-- Puts an entry at its place among entries sorted by key, in the place of one with the same key. -/
def putEntry {α : Type} (key : String) (v : α) : List (String × α) → List (String × α)
  | [] => [(key, v)]
  | (k, w) :: rest =>
    if key < k then (key, v) :: (k, w) :: rest
    else if key = k then (key, v) :: rest
    else (k, w) :: putEntry key v rest

mutual

def toNode (pos : Position) : JsonValue → Except Failure Node
  | null => .ok (.null pos)
  | bool b => .ok (.bool b pos)
  | number text =>
    match integer? text with
    | some v => .ok (.int v pos)
    | none => invalid pos ("only integers are supported, found " ++ text)
  | string s => .ok (.string s pos)
  | array items => return .sequence (← toItems pos 0 items) pos
  | object entries => do
    let sorted := (entryNodes pos entries).foldl (fun sorted (key, n) => putEntry key n sorted) []
    let nodes ← sorted.mapM fun (key, n) => return (key, ← n)
    return .mapping nodes pos

def toItems (pos : Position) (i : Nat) : List JsonValue → Except Failure (List Node)
  | [] => .ok []
  | item :: rest => return (← toNode (pos.item i) item) :: (← toItems pos (i + 1) rest)

def entryNodes (pos : Position) : List (String × JsonValue) → List (String × Except Failure Node)
  | [] => []
  | (key, v) :: rest => (key, toNode (pos.sub key) v) :: entryNodes pos rest

end

def load (file text : String) : Except Failure Node :=
  match read? text with
  | none => invalid { file } "invalid JSON"
  | some (v, rest) =>
    if hasMore rest then invalid { file } "unexpected data after the JSON document"
    else v.toNode { file }

end JsonValue

end Grf
