/-! # Numbers as text

Integers are shown in decimal or in upper-case hexadecimal. A width pads with zeros on the left and
counts the sign, so a negative number of width two is a minus sign and its digits. Reading follows
the usual literal forms: an optional sign, then a decimal number, or a number with one of the marks
`0x`, `0o`, `0b`, or an octal number after a plain leading zero.
-/

namespace Grf.Text

def hexDigit (n : Nat) : Char :=
  if n < 10 then Char.ofNat (48 + n) else Char.ofNat (55 + n)

def hexDigits (n : Nat) : List Char :=
  if n < 16 then [hexDigit n] else hexDigits (n / 16) ++ [hexDigit (n % 16)]

def padZeros (width : Nat) (digits : List Char) : List Char :=
  List.replicate (width - digits.length) '0' ++ digits

def hexNat (width n : Nat) : String :=
  String.ofList (padZeros width (hexDigits n))

/-- `v` in upper-case hexadecimal with at least `width` characters, the sign included. -/
def hex (width : Nat) (v : Int) : String :=
  if v < 0 then "-" ++ hexNat (width - 1) v.natAbs else hexNat width v.natAbs

def decimal (v : Int) : String :=
  if v < 0 then "-" ++ toString v.natAbs else toString v.natAbs

def byteHex (b : UInt8) : String :=
  String.ofList ((padZeros 2 (hexDigits b.toNat)).map Char.toLower)

def bytesHex (bytes : List UInt8) : String :=
  String.join (bytes.map byteHex)

/-- The value of `c` as a digit of the given base, if it is one. Letters count from ten, in either
case. -/
def digitValue? (base : Nat) (c : Char) : Option Nat :=
  let v := if c.isDigit then some (c.toNat - 48)
    else if 'a' ≤ c ∧ c ≤ 'z' then some (c.toNat - 87)
    else if 'A' ≤ c ∧ c ≤ 'Z' then some (c.toNat - 55)
    else none
  v.filter (· < base)

/-- The number written by digits of the given base. There has to be at least one digit. -/
def readDigits? (base : Nat) (digits : List Char) : Option Nat :=
  if digits.isEmpty then none
  else digits.foldlM (fun n c => (digitValue? base c).map (n * base + ·)) 0

/-- An unsigned literal whose base is shown by its first characters. A zero that is followed by no
known mark and a digit starts an octal number. -/
def readUnsigned? : List Char → Option Nat
  | ['0'] => some 0
  | '0' :: mark :: d :: rest =>
    match mark.toLower with
    | 'x' => readDigits? 16 (d :: rest)
    | 'o' => readDigits? 8 (d :: rest)
    | 'b' => readDigits? 2 (d :: rest)
    | _ => readDigits? 8 (mark :: d :: rest)
  | '0' :: rest => readDigits? 8 rest
  | digits => readDigits? 10 digits

def minInt64 : Int := -9223372036854775808

def maxInt64 : Int := 9223372036854775807

def inInt64? (v : Int) : Option Int :=
  if minInt64 ≤ v ∧ v ≤ maxInt64 then some v else none

/-- An integer literal of at most 64 bits with an optional sign, in any of the bases of
`readUnsigned?`. -/
def readInteger? (s : String) : Option Int :=
  match s.toList with
  | '-' :: rest => (readUnsigned? rest).bind fun n => inInt64? (-(n : Int))
  | '+' :: rest => (readUnsigned? rest).bind fun n => inInt64? (n : Int)
  | rest => (readUnsigned? rest).bind fun n => inInt64? (n : Int)

end Grf.Text
