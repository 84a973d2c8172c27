/-! # Terminal escape sequences

An escape sequence starts with the escape character or its one-character form, followed by marks. Then
comes either a title, which is letters, digits and semicolons closed by a bell, or a command, which is
groups of at most four digits and a final character. `stripAnsi` removes all of them.
-/

namespace Grf.Text

def isAnsiStart (c : Char) : Bool := c == '\x1b' || c == Char.ofNat 0x9B

def isAnsiMark (c : Char) : Bool := "[]()#;?".toList.contains c

def isAnsiTitle (c : Char) : Bool := c.isAlphanum || c == ';'

def isAnsiFinal (c : Char) : Bool :=
  c.isDigit || ('A' ≤ c && c ≤ 'P') || ('f' ≤ c && c ≤ 'n') || "RZctqry=><~".toList.contains c

/-- The rests of a text after at most `n` of its leading digits, the shortest rest first. -/
def afterDigits : Nat → List Char → List (List Char)
  | n + 1, c :: rest => if c.isDigit then afterDigits n rest ++ [c :: rest] else [c :: rest]
  | _, s => [s]

/-- The rests of a text after groups of a semicolon and at most four digits, longer matches first. The
bound `n` on the number of groups is the length of the text. -/
def afterGroups : Nat → List Char → List (List Char)
  | n + 1, ';' :: rest => (afterDigits 4 rest).flatMap (afterGroups n) ++ [';' :: rest]
  | _, s => [s]

def afterFinal? : List Char → Option (List Char)
  | c :: rest => if isAnsiFinal c then some rest else none
  | [] => none

def afterCommand? (s : List Char) : Option (List Char) :=
  let groups := match s with
    | c :: rest => if c.isDigit then (afterDigits 3 rest).flatMap (afterGroups s.length) else []
    | [] => []
  (groups ++ [s]).findSome? afterFinal?

def afterTitle? (s : List Char) : Option (List Char) :=
  match s.dropWhile isAnsiTitle with
  | '\x07' :: rest => some rest
  | _ => none

/-- The rest after the escape sequence whose first character has been read. -/
def afterEscape? (s : List Char) : Option (List Char) :=
  let s := s.dropWhile isAnsiMark
  afterTitle? s <|> afterCommand? s

/-- Removes escape sequences. `n` bounds the number of characters left. -/
def stripAnsiChars : Nat → List Char → List Char
  | n + 1, c :: rest =>
    match if isAnsiStart c then afterEscape? rest else none with
    | some rest => stripAnsiChars n rest
    | none => c :: stripAnsiChars n rest
  | _, _ => []

def stripAnsi (s : String) : String :=
  String.ofList (stripAnsiChars s.length s.toList)

end Grf.Text
