import Grf.Text.Number

/-! # Decimal numbers

Decimal numbers with a point and an exponent, as exact fractions. Underscores may stand between
digits, and after the mark of a base.
-/

namespace Grf.Text

/-- The parts of a decimal number without its sign: the digits before the point, those after it, and
the exponent. -/
def decimalParts? (cs : List Char) : Option (List Char × List Char × Int) := do
  let whole := cs.takeWhile Char.isDigit
  let rest := cs.dropWhile Char.isDigit
  let (fraction, rest) := match rest with
    | '.' :: rest => (rest.takeWhile Char.isDigit, rest.dropWhile Char.isDigit)
    | rest => ([], rest)
  guard (!whole.isEmpty || !fraction.isEmpty)
  match rest with
  | [] => return (whole, fraction, 0)
  | c :: rest =>
    guard (c == 'e' || c == 'E')
    let (negative, digits) := match rest with
      | '-' :: rest => (true, rest)
      | '+' :: rest => (false, rest)
      | rest => (false, rest)
    let n ← Text.readDigits? 10 digits
    return (whole, fraction, if negative then -n else n)

/-- Whether the underscores of a number stand in their places, after what is known of the character
before: whether it was a digit, and whether it was an underscore. -/
def underscoresFit (isHex afterDigit afterUnderscore : Bool) : List Char → Bool
  | [] => !afterUnderscore
  | c :: rest =>
    if (digitValue? (if isHex then 16 else 10) c).isSome then underscoresFit isHex true false rest
    else if c == '_' then afterDigit && underscoresFit isHex false true rest
    else !afterUnderscore && underscoresFit isHex false false rest

/-- Whether the underscores of a number without its sign stand between digits, or after the mark of a
base. -/
def underscoresOk : List Char → Bool
  | '0' :: mark :: rest =>
    if ['b', 'o', 'x'].contains mark.toLower then underscoresFit (mark.toLower == 'x') true false rest
    else underscoresFit false true false (mark :: rest)
  | cs => underscoresFit false false false cs

/-- The sign of a number, true for a minus, and the number without it. -/
def splitSign : List Char → Bool × List Char
  | '-' :: rest => (true, rest)
  | '+' :: rest => (false, rest)
  | rest => (false, rest)

def readFraction? (s : List Char) : Option (Bool × Nat × Nat) := do
  let (negative, s) := splitSign s
  guard (!s.contains '_' || underscoresOk s)
  let (whole, fraction, exponent) ← decimalParts? (s.filter (· != '_'))
  let digits ← readDigits? 10 (whole ++ fraction)
  let e := exponent - fraction.length
  let power := Nat.pow 10 e.natAbs
  return if e < 0 then (negative, digits, power) else (negative, digits * power, 1)

end Grf.Text
