import Grf.Digest.Sha256
import Grf.Text.Utf8

/-! # The parse cache

The parse cache keeps values that have been made from named content, by the digest of the name, a zero
byte and the content.
-/

namespace Grf

def contentMessage (name : String) (content : List UInt8) : List UInt8 :=
  Text.bytesOf name ++ 0 :: content

def contentKey (name : String) (content : List UInt8) : List UInt8 :=
  Sha256.digest (contentMessage name content)

structure ParseCache (α : Type) where
  values : List (List UInt8 × α) := []
deriving Repr, Inhabited

namespace ParseCache

variable {α : Type}

def get? (c : ParseCache α) (name : String) (content : List UInt8) : Option α :=
  c.values.lookup (contentKey name content)

def put (c : ParseCache α) (name : String) (content : List UInt8) (value : α) : ParseCache α :=
  let key := contentKey name content
  { values := (key, value) :: c.values.filter (·.1 != key) }

def size (c : ParseCache α) : Nat := c.values.length

def clear (_ : ParseCache α) : ParseCache α := {}

end ParseCache

end Grf
