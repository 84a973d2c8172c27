/-! # Reading code points from bytes

Text that comes as bytes may be broken. `decodeFirst?` reads one code point from the front of a byte
list. It accepts exactly the shortest forms of the code points that are characters, so a surrogate,
a number above `0x10FFFF`, an overlong form or a sequence that is cut short is refused.
-/

namespace Grf.Text

def isContinuation (b : UInt8) : Bool := 0x80 ≤ b && b < 0xC0

/-- The code point formed by a lead byte, of which `lead` is the payload, and the continuation bytes
`tail`. -/
def joinPayload (lead : Nat) (tail : List UInt8) : Nat :=
  tail.foldl (fun n b => n * 64 + (b.toNat - 0x80)) lead

/-- Whether `n` may be written with `extra` continuation bytes: it needs that many, and it is a
character. -/
def isCharOfWidth (extra n : Nat) : Bool :=
  match extra with
  | 1 => 0x80 ≤ n
  | 2 => 0x800 ≤ n && !(0xD800 ≤ n && n < 0xE000)
  | _ => 0x10000 ≤ n && n ≤ 0x10FFFF

/-- The number of continuation bytes a lead byte asks for and the payload of the lead byte. -/
def leadByte? (b : UInt8) : Option (Nat × Nat) :=
  if 0xC0 ≤ b && b < 0xE0 then some (1, b.toNat - 0xC0)
  else if 0xE0 ≤ b && b < 0xF0 then some (2, b.toNat - 0xE0)
  else if 0xF0 ≤ b && b < 0xF8 then some (3, b.toNat - 0xF0)
  else none

/-- The code point that starts at byte `b`, with the number of bytes of `rest` it takes. -/
def decodeFirst? (b : UInt8) (rest : List UInt8) : Option (Nat × Nat) :=
  if b < 0x80 then some (b.toNat, 0)
  else do
    let (extra, lead) ← leadByte? b
    let tail := rest.take extra
    let n := joinPayload lead tail
    if tail.length = extra ∧ tail.all isContinuation ∧ isCharOfWidth extra n then
      some (n, extra)
    else none

def charBytes (n : Nat) : List UInt8 :=
  (String.singleton (Char.ofNat n)).toUTF8.toList

def bytesOf (s : String) : List UInt8 := s.toUTF8.toList

/-- The character that stands for a byte that belongs to no character. -/
def replacement : Char := Char.ofNat 0xFFFD

/-- The characters that bytes stand for. A byte that starts no code point is replaced. -/
def decodeChars : List UInt8 → List Char
  | [] => []
  | b :: rest =>
    match decodeFirst? b rest with
    | some (n, extra) => Char.ofNat n :: decodeChars (rest.drop extra)
    | none => replacement :: decodeChars rest
termination_by bytes => bytes.length
decreasing_by all_goals simp only [List.length_drop, List.length_cons]; omega

def decode (bytes : List UInt8) : String := String.ofList (decodeChars bytes)

end Grf.Text
