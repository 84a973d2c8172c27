import Grf.Text.Number

/-! # Floating-point numbers as text

A decimal number is rounded to the nearest floating-point number of 64 bits, `m * 2 ^ q` with `m` below
`2 ^ 53`, and shown with the fewest digits that are rounded back to it. Everything is exact arithmetic
on natural numbers.

A number from a million on, or below a ten-thousandth, is shown with an exponent.
-/

namespace Grf.Text

def powFraction (base : Nat) (exponent : Int) : Nat × Nat :=
  let power := Nat.pow base exponent.natAbs
  if exponent < 0 then (1, power) else (power, 1)

/-- `num / den` rounded to the nearest natural number, a half goes to the even neighbour. -/
def roundQuotient (num den : Nat) : Nat :=
  let n := num / den
  let rest := 2 * (num % den)
  if rest < den || (rest == den && n % 2 == 0) then n else n + 1

/-- The largest `e` with `base ^ e ≤ num / den`, for a positive number, when `guess` is at most one
too large. -/
def adjustExponent (base num den : Nat) (guess : Int) : Int :=
  let (a, b) := powFraction base guess
  if den * a ≤ num * b then guess else guess - 1

/-- The nearest floating-point number of a positive number `num / den`: the integer `m` and the
exponent `q` of its value `m * 2 ^ q`. -/
def nearestFloat (num den : Nat) : Nat × Int :=
  let e := adjustExponent 2 num den ((num.log2 : Int) - den.log2)
  let q := max (e - 52) (-1074)
  let (a, b) := powFraction 2 q
  let m := roundQuotient (num * b) (den * a)
  if m = 0x20000000000000 then (0x10000000000000, q + 1) else (m, q)

def roundsTo (num den : Nat) (m : Nat) (q : Int) : Bool := nearestFloat num den == (m, q)

def digitCount (n : Nat) : Nat := (toString n).length

def decimalExponent (num den : Nat) : Int :=
  adjustExponent 10 num den ((digitCount num : Int) - digitCount den)

def floatFraction (m : Nat) (q : Int) : Nat × Nat :=
  let (a, b) := powFraction 2 q
  (m * a, b)

/-- The decimal number `d * 10 ^ k` with `d` of `n` digits that is rounded to `m * 2 ^ q`, the nearer
one if there are two. -/
def decimalOfLength? (m : Nat) (q : Int) (n : Nat) : Option (Nat × Int) :=
  let (num, den) := floatFraction m q
  let k := decimalExponent num den - n + 1
  let (a, b) := powFraction 10 k
  let low := num * b / (den * a)
  let fits (d : Nat) : Bool := d != 0 && roundsTo (d * a) b m q
  let nearLow : Bool := 2 * (num * b % (den * a)) ≤ den * a
  if fits low && (nearLow || !fits (low + 1)) then some (low, k)
  else if fits (low + 1) then some (low + 1, k)
  else none

/-- The digits of the shortest decimal number that is rounded to `m * 2 ^ q`, and the exponent of its
first digit. -/
def shortestDigits (m : Nat) (q : Int) : List Char × Int :=
  let found := (List.range' 1 17).findSome? (decimalOfLength? m q)
  let (d, k) := found.getD (0, 0)
  let digits := (toString d).toList
  let short := (digits.reverse.dropWhile (· == '0')).reverse
  (short, k + digits.length - 1)

def exponentText (e : Int) : String :=
  (if e < 0 then "e-" else "e+") ++ String.ofList (padZeros 2 (toString e.natAbs).toList)

def layoutFloat (digits : List Char) (e : Int) : String :=
  if e < -4 || 6 ≤ e then
    let fraction := digits.drop 1
    String.ofList (digits.take 1) ++ (if fraction.isEmpty then "" else "." ++ String.ofList fraction)
      ++ exponentText e
  else if e < 0 then "0." ++ String.ofList (List.replicate (e.natAbs - 1) '0' ++ digits)
  else
    let whole := digits.take (e.natAbs + 1)
    let fraction := digits.drop (e.natAbs + 1)
    String.ofList (whole ++ List.replicate (e.natAbs + 1 - whole.length) '0')
      ++ if fraction.isEmpty then "" else "." ++ String.ofList fraction

def positiveFloatText (num den : Nat) : String :=
  let (m, q) := nearestFloat num den
  if m = 0 then "0"
  else if 971 < q then "Inf"
  else
    let (digits, e) := shortestDigits m q
    layoutFloat digits e

end Grf.Text
