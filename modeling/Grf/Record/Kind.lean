import Grf.Fault

/-! # Kinds of records

A record is a sprite of the output, most are pseudo sprites that hold one action. The kind of a record
tells which of the two skip actions can skip it, and whether it has to be skipped at all when the body
it stands in is not executed.
-/

namespace Grf

inductive Kind
  | spriteCount
  | grfInfo
  | propertyTable
  | spriteTable
  | spriteGroup
  | decisionTable
  | graphicsTable
  | stringDefinition
  | bytePatchTable
  | skip
  | rangeReplace
  | errorMessage
  | paramAssignment
  | deactivation
  | jumpTarget
  | realSprite
deriving DecidableEq, Repr, Inhabited

structure Capabilities where
  /-- Whether a skip by action 7 passes over the record. -/
  byAction7 : Bool := false
  /-- Whether a skip by action 9 passes over the record. -/
  byAction9 : Bool := false
  /-- Whether the record may not stay outside of skipped runs. -/
  needsSkip : Bool := false
deriving DecidableEq, Repr, Inhabited

namespace Kind

def all : List Kind :=
  [spriteCount, grfInfo, propertyTable, spriteTable, spriteGroup, decisionTable, graphicsTable,
    stringDefinition, bytePatchTable, skip, rangeReplace, errorMessage, paramAssignment, deactivation,
    jumpTarget, realSprite]

def ofNumber? (n : Int) : Option Kind :=
  if 1 ≤ n then all[(n - 1).toNat]? else none

def ofNumber (n : Int) : Except Fault Kind :=
  match ofNumber? n with
  | some kind => .ok kind
  | none => .error (.unknownKind n)

def name : Kind → String
  | spriteCount => "sprite count"
  | grfInfo => "GRF info (action 8)"
  | propertyTable => "property table (action 0)"
  | spriteTable => "sprite table (action 1)"
  | spriteGroup => "sprite group (action 2)"
  | decisionTable => "decision table (varaction2)"
  | graphicsTable => "graphics table (action 3)"
  | stringDefinition => "string definition (action 4)"
  | bytePatchTable => "byte-patch table (action 6)"
  | skip => "skip (action 7/9)"
  | rangeReplace => "range replace (action A)"
  | errorMessage => "error message (action B)"
  | paramAssignment => "parameter assignment (action D)"
  | deactivation => "deactivation (action E)"
  | jumpTarget => "jump target (action 10)"
  | realSprite => "real sprite"

/-- The name shown for a number of a kind, also for a number that no kind has. -/
def nameOfNumber (n : Int) : String :=
  match ofNumber? n with
  | some kind => kind.name
  | none => "Kind(" ++ Text.decimal n ++ ")"

def capabilities : Kind → Capabilities
  | spriteCount | grfInfo => { needsSkip := true }
  | propertyTable | spriteTable | spriteGroup | decisionTable | graphicsTable | stringDefinition
  | skip | rangeReplace | errorMessage | paramAssignment | realSprite =>
    { byAction7 := true, byAction9 := true, needsSkip := true }
  | bytePatchTable => { byAction9 := true, needsSkip := true }
  | deactivation => { byAction7 := true, needsSkip := true }
  | jumpTarget => { byAction7 := true }

end Kind

end Grf
