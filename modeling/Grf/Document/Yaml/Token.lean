import Grf.Document.Yaml.Scalar

/-! # Tokens of YAML

The text of a YAML file as tokens with their lines and columns. The tokens of block collections are
the dashes and colons, their nesting is in the columns.

A plain scalar may go on in the next lines as long as these are indented more than the key or dash
before it. Each line break in it is one space, as in quoted scalars. `Scanner` keeps the plain text
that has been read and the indentation that the next line is compared with.
-/

namespace Grf.Yaml

/-- What a token is. A scalar is plain if it is neither quoted nor a block of lines. -/
inductive Lexeme
  | scalar (value : Scalar) (plain : Bool)
  | entry | colon | comma
  | mapStart | mapEnd | seqStart | seqEnd
  | block | anchor | aliasOf | tag
  | documentStart | documentEnd
  | unsupported
deriving DecidableEq, Repr, Inhabited

/-- A token with its place. Lines and columns count from one. -/
structure Token where
  lexeme : Lexeme
  line : Nat
  column : Nat
deriving DecidableEq, Repr, Inhabited

def Token.isPlainText (t : Token) : Bool :=
  match t.lexeme with
  | .scalar (.string _) plain => plain
  | _ => false

inductive Shift
  | up | same | down | none
deriving DecidableEq, Repr

structure Scanner where
  line : Nat := 1
  column : Nat := 1
  /-- The spaces at the start of the line. -/
  indent : Nat := 0
  /-- Whether only spaces have been read in the line. -/
  atStart : Bool := true
  /-- The indentation of the line before. -/
  lastIndent : Nat := 0
  /-- The column of the last key or dash in that line, zero if it has none. -/
  parentColumn : Nat := 0
  flowMaps : Int := 0
  flowSeqs : Int := 0
  inAnchor : Bool := false
  /-- The plain text so far, the last character first. -/
  text : List Char := []
  start : Nat × Nat := (1, 1)
  /-- The line breaks since the last token. -/
  breaks : Nat := 0
  previous : Char := ' '
  /-- The tokens, the last one first. -/
  tokens : List Token := []

namespace Scanner

def isBreak (c : Char) : Bool := c == '\n' || c == '\r'

def isBlank (c : Char) : Bool := c == ' ' || c == '\t'

def nextLine (s : Scanner) : Scanner :=
  { s with line := s.line + 1, column := 1, indent := 0, atStart := true, inAnchor := false }

def advance (s : Scanner) (chars : List Char) : Scanner :=
  chars.foldl (fun s c => if isBreak c then s.nextLine else { s with column := s.column + 1 }) s

def push (s : Scanner) (lexeme : Lexeme) : Scanner :=
  { s with tokens := ⟨lexeme, s.line, s.column⟩ :: s.tokens, breaks := 0 }

def pending (s : Scanner) : List Char := (s.text.dropWhile isBlank).reverse

def isIdle (s : Scanner) : Bool := s.pending.isEmpty

def flush (s : Scanner) : Scanner :=
  if s.isIdle then s
  else
    let lexeme := .scalar (Scalar.ofPlain (String.ofList s.pending)) true
    { s with
      tokens := ⟨lexeme, s.start.1, s.start.2⟩ :: s.tokens
      text := []
      breaks := 0 }

/-- Adds a character to the plain text, which does not start with a space. -/
def addText (s : Scanner) (c : Char) : Scanner :=
  if s.text.isEmpty then
    if c == ' ' then s else { s with text := [c], start := (s.line, s.column) }
  else { s with text := c :: s.text }

def shift (s : Scanner) : Shift :=
  let byIndent := if s.lastIndent < s.indent then Shift.up
    else if s.lastIndent = s.indent then .same else .down
  if s.parentColumn = 0 then byIndent
  else if s.parentColumn < s.column then .up
  else if s.parentColumn ≠ s.column || byIndent ≠ .same then .down
  else .same

def enter (s : Scanner) (c : Char) : Scanner × Shift :=
  if !s.atStart then (s, .none)
  else if c == ' ' then ({ s with indent := s.indent + 1 }, .none)
  else
    let shift := s.shift
    let s := { s with atStart := false }
    if isBreak c then (s, shift) else ({ s with lastIndent := s.indent, parentColumn := 0 }, shift)

def settle (s : Scanner) : Shift → Scanner
  | .down => s.flush
  | .same => if s.breaks ≤ 1 then s.flush else s
  | _ => s

/-! ## Quoted scalars -/

/-- The number of hexadecimal digits, where any other character counts by its distance from zero. -/
def codeOf (digits : List Char) : Int :=
  digits.foldl (fun n c =>
    let d : Int := match Text.digitValue? 16 c with
      | some d => d
      | none => c.toNat - 48
    n * 16 + d) 0

def charOf (code : Int) : Char :=
  if 0 ≤ code && (code.toNat).isValidChar then Char.ofNat code.toNat else Char.ofNat 0xFFFD

def escaped? : Char → Option (List Char)
  | 'b' => some [Char.ofNat 0x08]
  | 'e' => some [Char.ofNat 0x1B]
  | 'f' => some [Char.ofNat 0x0C]
  | 'n' => some ['\n']
  | 'r' => some ['\r']
  | 'v' => some [Char.ofNat 0x0B]
  | 'L' => some [Char.ofNat 0xE2, Char.ofNat 0x80, Char.ofNat 0xA8]
  | 'N' => some [Char.ofNat 0xC2, Char.ofNat 0x85]
  | 'P' => some [Char.ofNat 0xE2, Char.ofNat 0x80, Char.ofNat 0xA9]
  | '_' => some [Char.ofNat 0xC2, Char.ofNat 0xA0]
  | '"' => some ['"']
  | '\\' => some ['\\']
  | _ => none

/-- The rest of a scalar in double quotes: its value after `value`, the last character first, and the
characters after the quote. Spaces at the start of a further line do not count. A backslash before any
other character stands for itself. -/
def readDouble (value : List Char) (fresh : Bool) : List Char → Option (List Char × List Char)
  | [] => none
  | '"' :: rest => some (value, rest)
  | '\\' :: 'x' :: a :: b :: rest => readDouble (charOf (codeOf [a, b]) :: value) false rest
  | '\\' :: 'u' :: a :: b :: c :: d :: rest =>
    readDouble (charOf (codeOf [a, b, c, d]) :: value) false rest
  | '\\' :: 'U' :: a :: b :: c :: d :: e :: f :: g :: h :: rest =>
    readDouble (charOf (codeOf [a, b, c, d, e, f, g, h]) :: value) false rest
  | '\\' :: '\n' :: rest => readDouble value true rest
  | '\\' :: c :: rest =>
    if c == 'x' || c == 'u' || c == 'U' then none
    else match escaped? c with
      | some chars => readDouble (chars.reverse ++ value) false rest
      | none =>
        if isBreak c then readDouble (' ' :: '\\' :: value) true rest
        else readDouble (c :: '\\' :: value) false rest
  | c :: rest =>
    if isBreak c then readDouble (' ' :: value) true rest
    else if c == ' ' && fresh then readDouble value true rest
    else readDouble (c :: value) false rest

/-- The rest of a scalar in single quotes, in which a quote is written twice. -/
def readSingle (value : List Char) (fresh : Bool) : List Char → Option (List Char × List Char)
  | [] => none
  | '\'' :: '\'' :: rest => readSingle ('\'' :: value) false rest
  | '\'' :: rest => some (value, rest)
  | c :: rest =>
    if isBreak c then readSingle (' ' :: value) true rest
    else if c == ' ' && fresh then readSingle value true rest
    else readSingle (c :: value) false rest

/-- A quoted scalar. Without a closing quote, the rest of the text is lost. -/
def quoted (s : Scanner) (q : Char) (rest : List Char) : Scanner × List Char :=
  match if q == '"' then readDouble [] false rest else readSingle [] false rest with
  | none => (s.advance rest, [])
  | some (value, after) =>
    let token := s.push (.scalar (.string (String.ofList value.reverse)) false)
    (token.advance (q :: rest.take (rest.length - after.length)), after)

/-! ## Blocks of lines -/

def splitLines : List Char → List (List Char × Option Char)
  | [] => []
  | c :: rest =>
    if isBreak c then ([], some c) :: splitLines rest
    else match splitLines rest with
      | [] => [([c], none)]
      | (line, stop) :: lines => (c :: line, stop) :: lines

def joinLines (lines : List (List Char × Option Char)) : List Char :=
  lines.flatMap fun (line, stop) => line ++ stop.toList

/-- The lines that belong to a block and those after it. The first line with text sets the
indentation, a line with text that is indented less ends the block. `ends` tells whether the first
line with text, with its indentation, is outside of the block already. -/
def blockLines (ends : Nat → Bool) : Option Nat → List (List Char × Option Char) →
    List (List Char × Option Char) × List (List Char × Option Char)
  | _, [] => ([], [])
  | indent?, (line, stop) :: rest =>
    let indent := (line.takeWhile (· == ' ')).length
    let next (indent? : Option Nat) :=
      let (block, after) := blockLines ends indent? rest
      ((line, stop) :: block, after)
    if line.all (· == ' ') then next indent?
    else match indent? with
      | none => if ends indent then ([], (line, stop) :: rest) else next (some indent)
      | some first => if indent < first then ([], (line, stop) :: rest) else next indent?

/-- The text of a block before blanks at its end are removed. In a folded block a line break is a
space. -/
def blockText (folded : Bool) (indent : Nat) (lines : List (List Char × Option Char)) : List Char :=
  let text := lines.flatMap fun (line, stop) =>
    line.drop indent ++ stop.toList.map fun c => if folded then ' ' else c
  if folded then text.dropWhile (· == ' ') else text

def blockIndent (lines : List (List Char × Option Char)) : Nat :=
  match lines.find? fun (line, _) => !line.all (· == ' ') with
  | some (line, _) => (line.takeWhile (· == ' ')).length
  | none => (lines.map fun (line, _) => line.length).foldl max 0

/-- The mark after the sign of a block, if the rest of the line has nothing else. -/
def blockMark? (line : List Char) : Option (List Char) :=
  let mark := ((line.takeWhile (· != '#')).reverse.dropWhile (· == ' ')).reverse
  match mark with
  | [] => some mark
  | [c] => if c == '+' || c == '-' || c.isDigit then some mark else none
  | _ => none

/-- Removes what a block has too much at its end: blanks, and with a minus sign the line breaks. -/
def trimBlock (mark text : List Char) : List Char :=
  let text := text.reverse.dropWhile isBlank
  (if mark = ['-'] then text.dropWhile (· == '\n') else text).reverse

/-- A block of lines after its sign. A sign that is not followed by a block is passed over. -/
def block (s : Scanner) (folded : Bool) (rest : List Char) : Scanner × List Char :=
  match splitLines rest with
  | (head, some _) :: lines =>
    match blockMark? head with
    | none => ({ s with breaks := 0 }, rest)
    | some mark =>
      let first := (s.push .block).nextLine
      let ends (indent : Nat) : Bool :=
        match { first with indent, column := indent + 1 }.shift with
        | .down => true
        | .same => indent = 0
        | _ => false
      let (body, after) := blockLines ends none lines
      let indent := blockIndent body
      let text := blockText folded indent body
      -- the very last character of the text does not belong to a folded block
      let text := if folded && after.isEmpty && !(body.all fun (_, stop) => stop.isSome)
        then text.dropLast else text
      let value := trimBlock mark text
      let s := { first with line := first.line + body.length, lastIndent := indent, parentColumn := 0 }
      let lexeme := .scalar (.string (String.ofList value)) false
      let s := if value.isEmpty && !after.isEmpty then s else s.push lexeme
      (s, joinLines after)
  | _ => ({ s with breaks := 0 }, rest)

def separates (s : Scanner) (rest : List Char) : Bool :=
  0 < s.flowMaps || match rest with
    | [] | [_] => true
    | c :: _ => c == ' ' || isBreak c

def sign (s : Scanner) (lexeme : Lexeme) : Scanner :=
  let s := s.push lexeme
  { s with column := s.column + 1 }

def plain (s : Scanner) (c : Char) : Scanner :=
  let s := s.addText c
  { s with column := s.column + 1 }

def lineBreak (s : Scanner) (isLast : Bool) : Scanner :=
  let s := if isBlank s.previous then { s with text := s.text.dropWhile isBlank } else s
  let s := if isLast || s.inAnchor then s.flush else s
  { s.addText ' ' with breaks := s.breaks + 1 }.nextLine

def colon (s : Scanner) : Scanner :=
  let keyColumn : Option Nat :=
    if !s.isIdle then some s.start.2
    else match s.tokens with
      | ⟨.scalar (.string _) false, _, column⟩ :: _ => some column
      | _ => none
  let s := s.flush
  { s.sign .colon with parentColumn := keyColumn.getD s.parentColumn }

/-- Reads from one character on. The result is the state and the characters that are left. -/
def step (s : Scanner) (c : Char) (rest : List Char) : Scanner × List Char :=
  let (s, shift) := s.enter c
  let s := s.settle shift
  let idle := s.isIdle
  let inFlow := decide (0 < s.flowMaps) || decide (0 < s.flowSeqs)
  match c with
  | '{' => if idle then ({ s.sign .mapStart with flowMaps := s.flowMaps + 1 }, rest) else (s.plain c, rest)
  | '}' =>
    if idle || 0 < s.flowMaps then ({ s.flush.sign .mapEnd with flowMaps := s.flowMaps - 1 }, rest)
    else (s.plain c, rest)
  | '[' => if idle then ({ s.sign .seqStart with flowSeqs := s.flowSeqs + 1 }, rest) else (s.plain c, rest)
  | ']' =>
    if idle || 0 < s.flowSeqs then ({ s.flush.sign .seqEnd with flowSeqs := s.flowSeqs - 1 }, rest)
    else (s.plain c, rest)
  | ',' => if inFlow then (s.flush.sign .comma, rest) else (s.plain c, rest)
  | ':' => if s.separates rest then (s.colon, rest) else (s.plain c, rest)
  | '.' =>
    match s.indent = 0 && s.column = 1, rest with
    | true, '.' :: '.' :: after =>
      if after.head? = some '.' then (s.plain c, rest)
      else ((s.flush.push .documentEnd).advance ['.', '.', '.'], after)
    | _, _ => (s.plain c, rest)
  | '-' =>
    match s.indent = 0 && s.column = 1, rest with
    | true, '-' :: '-' :: after =>
      if after.head? = some '-' then (s.plain c, rest)
      else ((s.flush.push .documentStart).advance ['-', '-', '-'], after)
    | _, next :: _ =>
      if idle && (next == ' ' || isBreak next) then
        ({ s.sign .entry with parentColumn := s.column }, rest)
      else (s.plain c, rest)
    | _, [] => (s.plain c, rest)
  | '<' =>
    match idle, rest with
    | true, '<' :: after =>
      if after.head? = some '<' then (s.plain c, rest)
      else
        ({ (s.push (.scalar .merge true)).advance ['<', '<'] with parentColumn := s.column }, after)
    | _, _ => (s.plain c, rest)
  | '|' => if idle then s.block false rest else (s.plain c, rest)
  | '>' => if idle then s.block true rest else (s.plain c, rest)
  | '!' =>
    if idle then
      let name := rest.takeWhile fun c => c != ' ' && !isBreak c
      ((s.push .tag).advance (c :: name), rest.drop name.length)
    else (s.plain c, rest)
  | '%' => if idle && s.indent = 0 then (s.sign .unsupported, rest) else (s.plain c, rest)
  | '?' => if idle && rest.head? = some ' ' then (s.sign .unsupported, rest) else (s.plain c, rest)
  | '&' => if idle then ({ s.sign .anchor with inAnchor := true }, rest) else (s.plain c, rest)
  | '*' => if idle then (s.sign .aliasOf, rest) else (s.plain c, rest)
  | '#' =>
    if idle || s.previous == ' ' then
      let comment := rest.takeWhile fun c => !isBreak c
      ({ s.flush.nextLine with breaks := 0 }, rest.drop (comment.length + 1))
    else (s.plain c, rest)
  | '\'' => if idle then s.quoted c rest else (s.plain c, rest)
  | '"' => if idle then s.quoted c rest else (s.plain c, rest)
  | ' ' =>
    if s.inAnchor then ({ s.flush with column := s.column + 1, inAnchor := false }, rest)
    else if s.atStart then ({ s with column := s.column + 1 }, rest)
    else (s.plain c, rest)
  | c =>
    if isBreak c then
      let rest := match c, rest with
        | '\r', '\n' :: after => after
        | _, _ => rest
      (s.lineBreak rest.isEmpty, rest)
    else (s.plain c, rest)

/-- Reads at most `fuel` times from the first of the characters that are left. Each time takes at least
one character. -/
def run : Nat → Scanner → List Char → Scanner
  | 0, s, _ => s.flush
  | _ + 1, s, [] => s.flush
  | fuel + 1, s, c :: rest =>
    let (s, rest) := s.step c rest
    run fuel { s with previous := c } rest

end Scanner

def tokens (text : String) : List Token :=
  (Scanner.run text.length {} text.toList).tokens.reverse

end Grf.Yaml
