import Grf.Fault

/-! # Tokens

A record is written as a list of tokens: numbers of one, two or four bytes, encoded text, and the
ends of lines of the listing format. The bytes of a token are the same in every format, low bytes
first. The listing also shows how wide each number is and where the lines end.
-/

namespace Grf

inductive Token
  | byte (value : UInt8)
  | word (value : UInt16)
  | dword (value : UInt32)
  | text (bytes : List UInt8)
  | lineEnd (comment : String)
deriving DecidableEq, Repr, Inhabited

namespace Token

def byteOf (v : Int) : Token := byte (UInt8.ofBitVec (BitVec.ofInt 8 v))

def wordOf (v : Int) : Token := word (UInt16.ofBitVec (BitVec.ofInt 16 v))

def dwordOf (v : Int) : Token := dword (UInt32.ofBitVec (BitVec.ofInt 32 v))

/-- An extended byte: a single byte below `0xFF`, else `0xFF` and a word. -/
def extended (v : Int) : List Token :=
  if v < 0xFF then [byteOf v] else [byteOf 0xFF, wordOf v]

def extendedSize (v : Int) : Nat := if v < 0xFF then 1 else 3

/-- The low `size` bytes of an integer. Only the sizes one, two and four exist. -/
def sized (v : Int) (size : Int) : Except Fault Token :=
  if size = 1 then .ok (byteOf v)
  else if size = 2 then .ok (wordOf v)
  else if size = 4 then .ok (dwordOf v)
  else .error (.invalidValueSize size)

def ofText (s : List UInt8) (finalZero forceAscii : Bool) : Except Fault Token :=
  match EngineText.encode s finalZero forceAscii with
  | .ok bytes => .ok (text bytes)
  | .error e => .error (.unwritableText e)

def bytes : Token → List UInt8
  | byte v => [v]
  | word v => [v.toUInt8, (v >>> 8).toUInt8]
  | dword v => [v.toUInt8, (v >>> 8).toUInt8, (v >>> 16).toUInt8, (v >>> 24).toUInt8]
  | text bytes => bytes
  | lineEnd _ => []

def bytesOfAll (tokens : List Token) : List UInt8 := tokens.flatMap bytes

end Token

end Grf
