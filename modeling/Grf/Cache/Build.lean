import Grf.Digest.Sha256
import Grf.FileTree

/-! # The build cache

The build cache keeps outputs by the digest of everything they depend on. Before the digest is taken,
each part is written with its length in front, so that the same bytes cut in another way give another
message.

A cache can be closed, and then it only answers with an error. It is kept in a file: a head that tells
it from other files, then each key, the length of its output and the output.
-/

namespace Grf

def lengthBytes (n : Nat) : List UInt8 :=
  (List.range 8).map fun i => (n / Nat.pow 256 i % 256).toUInt8

def buildMessage (parts : List (List UInt8)) : List UInt8 :=
  parts.flatMap fun part => lengthBytes part.length ++ part

def buildKey (parts : List (List UInt8)) : List UInt8 := Sha256.digest (buildMessage parts)

structure BuildCache where
  /-- The outputs by their keys, at most one for each. -/
  outputs : List (List UInt8 × List UInt8) := []
  isOpen : Bool := true
deriving DecidableEq, Repr, Inhabited

namespace BuildCache

def get (c : BuildCache) (key : List UInt8) : Except Error (Option (List UInt8)) :=
  if c.isOpen then .ok (c.outputs.lookup key) else .error .cacheClosed

def put (c : BuildCache) (key output : List UInt8) : Except Error BuildCache :=
  if c.isOpen then
    .ok { c with outputs := (key, output) :: c.outputs.filter (·.1 != key) }
  else .error .cacheClosed

def clear (c : BuildCache) : Except Error BuildCache :=
  if c.isOpen then .ok { c with outputs := [] } else .error .cacheClosed

def close (c : BuildCache) : BuildCache := { c with isOpen := false }

def reopen (c : BuildCache) : BuildCache := { c with isOpen := true }

def fileHead : List UInt8 := Text.bytesOf "GRF build cache\n"

def encode (c : BuildCache) : List UInt8 :=
  fileHead ++ c.outputs.flatMap fun (key, output) => key ++ lengthBytes output.length ++ output

def readLength : List UInt8 → Nat
  | [] => 0
  | b :: rest => b.toNat + 256 * readLength rest

def decodeOutputs (bytes : List UInt8) : Option (List (List UInt8 × List UInt8)) :=
  if bytes.isEmpty then some []
  else if bytes.length < 40 then none
  else
    let length := readLength ((bytes.drop 32).take 8)
    let rest := bytes.drop 40
    if rest.length < length then none
    else (decodeOutputs (rest.drop length)).map ((bytes.take 32, rest.take length) :: ·)
termination_by bytes.length
decreasing_by simp only [List.length_drop]; omega

def decode? (content : List UInt8) : Option BuildCache :=
  if content.isEmpty then some {}
  else if fileHead.isPrefixOf content then
    (decodeOutputs (content.drop fileHead.length)).map fun outputs => { outputs }
  else none

/-- The cache in the file at a path, an empty one if there is no file. There is none if something else
is there. -/
def openAt? (files : FileTree) (path : String) : Option BuildCache :=
  match files.find path with
  | .ok (.file content) => decode? content
  | .error .notFound => some {}
  | _ => none

end BuildCache

end Grf
