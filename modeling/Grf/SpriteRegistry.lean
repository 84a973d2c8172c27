import Grf.Error

/-! # The graphics section

The sprites of the graphics section are numbered from one in the order in which they are declared.
Records refer to them by name.
-/

namespace Grf

/-- A sprite of the graphics section. The file is empty if the sprite has no source image. -/
structure Sprite where
  name : String
  file : String
  num : Nat
  pos : Position
deriving Repr, Inhabited, DecidableEq

/-- The sprites in the order of their numbers, and the names that records refer to. -/
structure SpriteRegistry where
  sprites : Array Sprite := #[]
  used : List String := []
deriving Repr, Inhabited

namespace SpriteRegistry

def find? (r : SpriteRegistry) (name : String) : Option Sprite := r.sprites.find? (·.name == name)

def add (r : SpriteRegistry) (name file : String) (pos : Position) :
    Except Failure (Nat × SpriteRegistry) :=
  if name.isEmpty then
    .error (.compile .unknownIdentifier pos "a sprite must have a name")
  else match r.find? name with
    | some previous =>
      .error (.compile .duplicateIdentifier pos
        ("sprite " ++ name ++ " is already defined at " ++ previous.pos.text))
    | none =>
      let num := r.sprites.size + 1
      .ok (num, { r with sprites := r.sprites.push { name, file, num, pos } })

def number (r : SpriteRegistry) (name : String) (pos : Position) :
    Except Failure (Nat × SpriteRegistry) :=
  match r.find? name with
  | some sprite =>
    .ok (sprite.num, { r with used := if r.used.contains name then r.used else name :: r.used })
  | none => .error (.compile .unknownIdentifier pos ("sprite " ++ name ++ " is not defined"))

def unused (r : SpriteRegistry) : List Sprite :=
  r.sprites.toList.filter fun sprite => !r.used.contains sprite.name

end SpriteRegistry

end Grf
