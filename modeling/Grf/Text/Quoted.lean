import Grf.Text.Number
import Grf.Text.Printable
import Grf.Text.Utf8

/-! # Quoted text

A text is quoted for a message so that every byte of it can be told from the message: quotes and
backslashes are escaped, printable characters stand for themselves, the usual control characters
have their letters, other characters are written as code points, and a byte that belongs to no
character is written in hexadecimal.
-/

namespace Grf.Text

def lowerHex (width n : Nat) : String :=
  String.ofList ((padZeros width (hexDigits n)).map Char.toLower)

/-- The letter that follows the backslash for a character with an escape of its own. -/
def escapeLetter? (n : Nat) : Option Char :=
  match n with
  | 0x07 => some 'a'
  | 0x08 => some 'b'
  | 0x09 => some 't'
  | 0x0A => some 'n'
  | 0x0B => some 'v'
  | 0x0C => some 'f'
  | 0x0D => some 'r'
  | 0x22 => some '"'
  | 0x5C => some '\\'
  | _ => none

def quoteCodePoint (n : Nat) : String :=
  match escapeLetter? n with
  | some letter => String.ofList ['\\', letter]
  | none =>
    if isPrintable n then String.singleton (Char.ofNat n)
    else if n < 0x20 || n == 0x7F then "\\x" ++ lowerHex 2 n
    else if n < 0x10000 then "\\u" ++ lowerHex 4 n
    else "\\U" ++ lowerHex 8 n

def quoteInside : List UInt8 → List String
  | [] => []
  | b :: rest =>
    match decodeFirst? b rest with
    | some (n, extra) => quoteCodePoint n :: quoteInside (rest.drop extra)
    | none => ("\\x" ++ byteHex b) :: quoteInside rest
termination_by bytes => bytes.length
decreasing_by all_goals (simp; try omega)

def quoteBytes (bytes : List UInt8) : String :=
  "\"" ++ String.join (quoteInside bytes) ++ "\""

def quote (s : String) : String := quoteBytes (bytesOf s)

end Grf.Text
