import Grf.Text.Quoted

/-! # Text as the game engine stores it

A text of a declaration may hold escape sequences: `\\`, `\"`, `\n` for a line break of the engine,
`\XX` for one byte and `\UXXXX` for a code point. Encoding replaces them and copies all other
characters. A text with a character outside printable ASCII, or with a code point escape, starts
with a two-byte marker that tells the engine to read it as UTF-8.

`size` and `encode` walk over the same pieces: the first counts the bytes, the second writes them.
-/

namespace Grf

inductive TextError
  | brokenUtf8 (index : Nat)
  | trailingBackslash
  | shortCodePoint
  | badEscape (escape : List UInt8)
  | notAscii
deriving DecidableEq, Repr, Inhabited

namespace TextError

def kind : TextError → String
  | brokenUtf8 _ => "invalid UTF-8 sequence"
  | trailingBackslash | shortCodePoint | badEscape _ => "invalid escape sequence"
  | notAscii => "expected an ASCII string"

def message (e : TextError) : String :=
  match e with
  | brokenUtf8 index => e.kind ++ " at byte " ++ toString index
  | trailingBackslash => e.kind ++ ": trailing backslash"
  | shortCodePoint => e.kind ++ ": \\U requires 4 hexadecimal digits"
  | badEscape escape => e.kind ++ ": " ++ Text.quoteBytes escape
  | notAscii => e.kind

end TextError

namespace EngineText

/-- The marker of a text that is read as UTF-8: the code point `U+00DE`. -/
def marker : List UInt8 := [0xC3, 0x9E]

def lineBreak : UInt8 := 0x0D

/-- One piece of a text: a plain character with its bytes, an escaped byte or an escaped code
point. -/
inductive Piece
  | plain (codePoint : Nat) (bytes : List UInt8)
  | byte (value : UInt8)
  | codePoint (value : Nat)
deriving DecidableEq, Repr

namespace Piece

def bytes : Piece → List UInt8
  | plain _ bytes => bytes
  | byte value => [value]
  | codePoint value => Text.charBytes value

def codePointWidth (n : Nat) : Nat :=
  if n < 0x80 then 1 else if n < 0x800 then 2 else if n < 0x10000 then 3 else 4

def size : Piece → Nat
  | plain _ bytes => bytes.length
  | byte _ => 1
  | codePoint value => codePointWidth value

/-- Whether a piece makes its text one that needs the marker. An escaped byte never does. -/
def needsMarker : Piece → Bool
  | plain n _ => n < 0x20 || 0x7E < n
  | byte _ => false
  | codePoint _ => true

end Piece

def readHexBytes? (digits : List UInt8) : Option Nat :=
  Text.readDigits? 16 (digits.map fun b => Char.ofNat b.toNat)

def isChar (n : Nat) : Bool := n < 0xD800 || (0xE000 ≤ n && n ≤ 0x10FFFF)

/-- The escape sequence whose backslash is followed by `rest`, with the number of bytes of `rest`
that belong to it. -/
def escape (rest : List UInt8) : Except TextError (Piece × Nat) :=
  match rest with
  | [] => .error .trailingBackslash
  | 0x5C :: _ => .ok (.byte 0x5C, 1)
  | 0x22 :: _ => .ok (.byte 0x22, 1)
  | 0x6E :: _ => .ok (.byte lineBreak, 1)
  | 0x55 :: digits =>
    if digits.length < 4 then .error .shortCodePoint
    else match (readHexBytes? (digits.take 4)).filter isChar with
      | some n => .ok (.codePoint n, 5)
      | none => .error (.badEscape (0x5C :: rest.take 5))
  | _ :: second =>
    if second.isEmpty then .error (.badEscape (0x5C :: rest))
    else match readHexBytes? (rest.take 2) with
      | some n => .ok (.byte n.toUInt8, 2)
      | none => .error (.badEscape (0x5C :: rest.take 2))

/-- The piece that starts with byte `b` at the given index, with the number of bytes of `rest` that
belong to it. -/
def piece (index : Nat) (b : UInt8) (rest : List UInt8) : Except TextError (Piece × Nat) :=
  if b = 0x5C then escape rest
  else match Text.decodeFirst? b rest with
    | some (n, extra) => .ok (.plain n (b :: rest.take extra), extra)
    | none => .error (.brokenUtf8 index)

/-- The bytes of the pieces of a text and whether one of them needs the marker. -/
def sizePieces (index : Nat) : List UInt8 → Except TextError (Nat × Bool)
  | [] => .ok (0, false)
  | b :: rest => do
    let (p, extra) ← piece index b rest
    let (size, wide) ← sizePieces (index + 1 + extra) (rest.drop extra)
    return (p.size + size, p.needsMarker || wide)
termination_by bytes => bytes.length
decreasing_by simp only [List.length_drop, List.length_cons]; omega

def encodePieces (index : Nat) : List UInt8 → Except TextError (List UInt8 × Bool)
  | [] => .ok ([], false)
  | b :: rest => do
    let (p, extra) ← piece index b rest
    let (bytes, wide) ← encodePieces (index + 1 + extra) (rest.drop extra)
    return (p.bytes ++ bytes, p.needsMarker || wide)
termination_by bytes => bytes.length
decreasing_by simp only [List.length_drop, List.length_cons]; omega

/-- The number of bytes of the encoded text. `finalZero` adds a closing zero, `forceAscii` refuses a
text that needs the marker. -/
def size (text : List UInt8) (finalZero forceAscii : Bool) : Except TextError Nat := do
  let (n, wide) ← sizePieces 0 text
  if wide && forceAscii then throw .notAscii
  return n + (if wide then marker.length else 0) + (if finalZero then 1 else 0)

def encode (text : List UInt8) (finalZero forceAscii : Bool) : Except TextError (List UInt8) := do
  let (bytes, wide) ← encodePieces 0 text
  if wide && forceAscii then throw .notAscii
  return (if wide then marker else []) ++ bytes ++ (if finalZero then [0] else [])

end EngineText

end Grf
