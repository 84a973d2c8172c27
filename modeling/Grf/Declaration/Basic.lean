import Grf.Lowering.Conditional
import Grf.Lowering.Graphics
import Grf.Lowering.Header
import Grf.Lowering.Message
import Grf.Lowering.Properties
import Grf.Lowering.Sprites
import Grf.Lowering.Switch

/-! # Declarations

What a declaration file holds: the header of the output file, the sprites and texts, and the
declarations, which may be nested in conditionals and loops.
-/

namespace Grf

/-- A branch of a conditional with declarations of type `α`. The last branch may have no condition. -/
structure IfBranch (α : Type) where
  cond : Option Expr
  body : List α
  pos : Position
deriving Repr, Inhabited

inductive Declaration
  | properties (feature id : Int) (props : List Property) (pos : Position)
  | spriteSets (feature : Int) (sets : List SpriteSet) (pos : Position)
  | spriteGroup (group : SpriteGroup)
  | switch (table : Switch)
  | graphics (table : Graphics)
  | message (message : Message)
  | assign (param value : Expr) (pos : Position)
  | conditional (branches : List (IfBranch Declaration)) (pos : Position)
  | loop (cond : Expr) (body : List Declaration) (pos : Position)
  | deactivate (ids : List String) (pos : Position)
  | replace (blocks : List ReplaceBlock) (pos : Position)
deriving Repr, Inhabited

namespace Declaration

def kind : Declaration → String
  | properties .. => "properties"
  | spriteSets .. => "sprite_sets"
  | spriteGroup _ => "sprite_group"
  | switch _ => "switch"
  | graphics _ => "graphics"
  | message _ => "error"
  | assign .. => "assign"
  | conditional .. => "if"
  | loop .. => "while"
  | deactivate .. => "deactivate"
  | replace .. => "replace"

def pos : Declaration → Position
  | properties _ _ _ pos => pos
  | spriteSets _ _ pos => pos
  | spriteGroup group => group.pos
  | switch table => table.pos
  | graphics table => table.pos
  | message m => m.pos
  | assign _ _ pos => pos
  | conditional _ pos => pos
  | loop _ _ pos => pos
  | deactivate _ pos => pos
  | replace _ pos => pos

mutual

def walk : Declaration → List Declaration
  | d@(conditional branches _) => d :: walkBranches branches
  | d@(loop _ body _) => d :: walkAll body
  | d => [d]

def walkAll : List Declaration → List Declaration
  | [] => []
  | d :: rest => d.walk ++ walkAll rest

def walkBranches : List (IfBranch Declaration) → List Declaration
  | [] => []
  | ⟨_, body, _⟩ :: rest => walkAll body ++ walkBranches rest

end

end Declaration

/-- The header of the output file. The requirement is a version constraint on the compiler, empty if
there is none. -/
structure GrfHeader where
  id : String
  name : String
  description : String := ""
  requires : String := ""
  pos : Position := {}
deriving Repr, Inhabited, DecidableEq

/-- A sprite of the graphics section. The file may be empty. -/
structure SpriteEntry where
  name : String
  file : String := ""
  pos : Position := {}
deriving Repr, Inhabited, DecidableEq

structure TextEntry where
  lang : Int
  name : String
  text : String
  pos : Position := {}
deriving Repr, Inhabited, DecidableEq

structure DeclarationFile where
  path : String
  header : GrfHeader
  sprites : List SpriteEntry := []
  strings : List TextEntry := []
  declarations : List Declaration := []
deriving Repr, Inhabited

end Grf
