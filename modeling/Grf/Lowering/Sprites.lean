import Grf.Lowering.Checks
import Grf.Record.Basic
import Grf.Word64

/-! # Sprite tables, sprite groups and replacements

A sprite table announces sets of real sprites, which follow it. Sprite groups refer to the sets of the
last table of their feature by name. A replacement announces ranges of base sprites and is followed by
the real sprites that take their places.
-/

namespace Grf

structure SpriteSet where
  name : String
  sprites : List String
  pos : Position := {}
deriving Repr, Inhabited

structure SpriteGroup where
  name : String
  feature : Int
  loaded : List String
  loading : List String
  pos : Position := {}
deriving Repr, Inhabited

/-- Sprites that replace the base sprites from `first` on. -/
structure ReplaceBlock where
  first : Int
  sprites : List String
  pos : Position := {}
deriving Repr, Inhabited

namespace Lowering

def realSprite (name : String) (pos : Position) : Lowering Record := do
  match (← get).sprites with
  | none =>
    fail .unknownIdentifier pos ("sprite " ++ name ++ " cannot be resolved: no sprite registry")
  | some sprites =>
    let (num, sprites) ← lift (sprites.number name pos)
    modify fun c => { c with sprites := some sprites }
    return ⟨pos, .realSprite name num⟩

def realSprites (names : List String) (pos : Position) : Lowering (List Record) :=
  names.zipIdx.mapM fun (name, j) => realSprite name (pos.sub ("sprites[" ++ toString j ++ "]"))

/-- The sprites of the sets from number `i` on, `names` are the names of the sets before. The result
has the names of all sets. -/
def lowerSets (count : Nat) (pos : Position) (names : List (String × Nat)) (i : Nat) :
    List SpriteSet → Lowering (List Record × List (String × Nat))
  | [] => return ([], names)
  | set :: rest => do
    let setPos := positionOr set.pos (pos.sub ("sets[" ++ toString i ++ "]"))
    failIf (set.sprites.length ≠ count) .outOfRange setPos
      ("sprite set " ++ set.name ++ " has " ++ toString set.sprites.length ++
        " sprites but the sets of the table have " ++ toString count)
    failIf (!set.name.isEmpty && (names.lookup set.name).isSome) .duplicateIdentifier setPos
      ("sprite set " ++ set.name ++ " is defined twice")
    let names := if set.name.isEmpty then names else (set.name, i) :: names
    let sprites ← realSprites set.sprites setPos
    let (others, names) ← lowerSets count pos names (i + 1) rest
    return (sprites ++ others, names)

def lowerSpriteSets (feature : Int) (sets : List SpriteSet) (pos : Position) :
    Lowering (List Record) := do
  checkFeature feature pos
  failIf (sets.isEmpty || 0xFF < sets.length) .outOfRange pos
    ("a sprite table must contain between 1 and 255 sets, not " ++ toString sets.length)
  let first := sets.headD { name := "", sprites := [] }
  let count := first.sprites.length
  failIf (count = 0) .outOfRange pos ("sprite set " ++ first.name ++ " is empty")
  failIf (0xFFFF < count) .outOfRange pos ("too many sprites per set: " ++ toString count)
  let (sprites, names) ← lowerSets count pos [] 0 sets
  modify fun c => { c with spriteSets := (feature, names) :: c.spriteSets.filter (·.1 != feature) }
  return ⟨pos, .spriteTable feature sets.length count⟩ :: sprites

def spriteSetNumber (feature : Int) (name : String) (pos : Position) : Lowering Nat := do
  match (← get).spriteSets.lookup feature with
  | none =>
    fail .unknownIdentifier pos ("no sprite set is defined for feature 0x" ++ Text.hex 2 feature)
  | some sets =>
    match sets.lookup name with
    | some num => return num
    | none =>
      fail .unknownIdentifier pos
        ("sprite set " ++ name ++ " is not defined for feature 0x" ++ Text.hex 2 feature)

def lowerSpriteGroup (g : SpriteGroup) : Lowering (List Record) := do
  checkFeature g.feature g.pos
  failIf (g.loaded.isEmpty && g.loading.isEmpty) .outOfRange g.pos
    ("sprite group " ++ g.name ++ " selects no sprite set")
  failIf (0xFF < g.loaded.length || 0xFF < g.loading.length) .outOfRange g.pos
    ("too many sprite sets in sprite group " ++ g.name)
  let numbers (names : List String) (field : String) : Lowering (List Nat) :=
    names.zipIdx.mapM fun (name, i) =>
      spriteSetNumber g.feature name (g.pos.sub (field ++ "[" ++ toString i ++ "]"))
  let loaded ← numbers g.loaded "loaded"
  let loading ← numbers g.loading "loading"
  let node ← define g.name g.feature g.pos
  return [⟨g.pos, .spriteGroup { node, name := g.name, feature := g.feature, loaded, loading }⟩]

def lowerBlock (block : ReplaceBlock) (pos : Position) : Lowering ((Nat × Int) × List Record) := do
  let count := block.sprites.length
  failIf (count = 0 || 0xFF < count) .outOfRange pos
    ("a replaced range must contain between 1 and 255 sprites, not " ++ toString count)
  failIf (block.first < 0 || 0xFFFF < wrap64 (block.first + count - 1)) .outOfRange pos
    ("replaced range starting at " ++ Text.decimal block.first ++ " is out of range")
  return ((count, block.first), ← realSprites block.sprites pos)

def lowerReplace (blocks : List ReplaceBlock) (pos : Position) : Lowering (List Record) := do
  failIf (blocks.isEmpty || 0xFF < blocks.length) .outOfRange pos
    ("a replace table must contain between 1 and 255 ranges, not " ++ toString blocks.length)
  let lowered ← blocks.zipIdx.mapM fun (block, i) =>
    lowerBlock block (positionOr block.pos (pos.sub ("ranges[" ++ toString i ++ "]")))
  return ⟨pos, .rangeReplace (lowered.map (·.1))⟩ :: lowered.flatMap (·.2)

end Lowering

end Grf
