import Grf.Expr.Write
import Grf.Position
import Grf.Record.Kind

/-! # Records

The records a declaration is lowered to, in the order in which they are written. A record knows its
size before it is written: `Record.size` is the number announced for the sprite, and `Record.tokens`
is what the sprite holds.

References to named records are bound to ids between lowering and writing. Until then they have a
negative id.
-/

namespace Grf

/-- The id of a GRF file: four bytes, written in order. -/
structure GrfId where
  bytes : List UInt8
deriving DecidableEq, Repr, Inhabited

/-- A request to write the value of a parameter over `size` bytes of the next record, `offset` bytes
from its start. -/
structure Patch where
  param : Int
  size : Int
  offset : Int
deriving DecidableEq, Repr, Inhabited

/-- What a property is set to: one value, or a list of constants after their count. -/
inductive PropertyContent
  | value (value : Expr)
  | items (items : List Int)
deriving Repr, Inhabited

/-- A property in a property table. `size` is the width of its value or of each item. -/
structure PropertyEntry where
  num : Int
  size : Int
  content : PropertyContent
deriving Repr, Inhabited

def PropertyEntry.valueSize (e : PropertyEntry) : Int :=
  match e.content with
  | .value value => value.size e.size
  | .items items => 1 + items.length * e.size

/-- A group of sprite sets, by their numbers in the last sprite table of the feature. `node` is the
definition of its name and `id` the id that has been bound to it. -/
structure GroupRecord where
  node : Nat
  name : String
  id : Int := -1
  feature : Int
  loaded : List Nat
  loading : List Nat
deriving Repr, Inhabited

inductive StreamItem
  | op (operator : Operator)
  | operand (value : Expr)
deriving Repr, Inhabited

def StreamItem.text : StreamItem → String
  | .op operator => operator.name
  | .operand value => value.text

/-- The result of a range of a decision table: a number for the caller, or a named record. -/
inductive TableResult
  | callback (value : Int)
  | ref (name : String) (id : Int)
deriving DecidableEq, Repr, Inhabited

def TableResult.callbackFlag : Int := 0x8000

def TableResult.word : TableResult → Int
  | callback value => value + callbackFlag
  | ref _ id => id

structure TableRange where
  min : Int
  max : Int
  result : TableResult
deriving DecidableEq, Repr, Inhabited

/-- A decision table: a stream that computes a value, and the ranges that select a result by it. -/
structure TableRecord where
  node : Nat
  name : String
  id : Int := -1
  feature : Int
  related : Bool
  varSize : Int
  stream : List StreamItem
  streamSize : Int
  ranges : List TableRange
  default : TableResult
deriving Repr, Inhabited

/-- The type byte of a decision table, by its width and the object it is about. -/
def TableRecord.typeByte (t : TableRecord) : Int :=
  (if t.varSize = 2 then 0x85 else if t.varSize = 4 then 0x89 else 0x81)
    + (if t.related then 1 else 0)

/-- A reference of a graphics table to a named record. -/
structure GraphicsRef where
  name : String
  id : Int := -1
deriving DecidableEq, Repr, Inhabited

structure GraphicsRecord where
  feature : Int
  ids : List Int
  livery : Bool
  cargo : List (Int × GraphicsRef)
  default : GraphicsRef
deriving Repr, Inhabited

/-- The test of a skip: the records are skipped if it is true. `size` is the number of bytes of the
parameter that are compared, for a bit test it is one and the value is the number of the bit. -/
structure SkipCondition where
  param : Int
  size : Int
  cond : Int
  value : Int
deriving DecidableEq, Repr, Inhabited

namespace SkipCondition

def bitSet : Int := 0x00

def bitClear : Int := 0x01

def equal : Int := 0x02

def notEqual : Int := 0x03

def less : Int := 0x04

def greater : Int := 0x05

/-- A test that is always true: a bit of the parameter that reads as all ones. -/
def always : SkipCondition := { param := 0x9A, size := 1, cond := bitSet, value := 0 }

def text (c : SkipCondition) : String :=
  "param[0x" ++ Text.hex 2 c.param ++ "] cond " ++ Text.decimal c.cond ++ " 0x" ++ Text.hex 0 c.value

end SkipCondition

/-- The two actions that skip records. They differ in which records they can skip. -/
inductive SkipAction
  | action7 | action9
deriving DecidableEq, Repr, Inhabited

def SkipAction.code : SkipAction → Int
  | action7 => 0x07
  | action9 => 0x09

/-- A message to the player. The custom text is written if the message is not a builtin one. -/
structure MessageRecord where
  severity : Int
  lang : Int
  msgId : Int
  custom : String := ""
  data : Option String := none
  params : List Int := []
deriving DecidableEq, Repr, Inhabited

def MessageRecord.customId : Int := 0xFF

/-- `target` becomes `src1` or, with an operation, `src1` and `src2` combined. A source that is
`dataSource` stands for the data. -/
structure AssignRecord where
  target : Int
  op : Int := 0
  src1 : Int := 0
  src2 : Int := 0
  data : Int := 0
deriving DecidableEq, Repr, Inhabited

namespace AssignRecord

def dataSource : Int := 0xFF

def targetOffset : Int := 1

def src1Offset : Int := 3

def hasData (a : AssignRecord) : Bool := a.src1 == dataSource || a.src2 == dataSource

end AssignRecord

inductive RecordBody
  | spriteCount (count : Int)
  | grfInfo (id : GrfId) (name description : String)
  | propertyTable (feature id : Int) (entries : List PropertyEntry)
  | spriteTable (feature : Int) (sets sprites : Nat)
  | spriteGroup (group : GroupRecord)
  | decisionTable (table : TableRecord)
  | graphicsTable (table : GraphicsRecord)
  | stringDefinition (feature lang id : Int) (text : String)
  | bytePatchTable (patches : List Patch)
  | skip (action : SkipAction) (condition : SkipCondition) (target : Int)
  | rangeReplace (ranges : List (Nat × Int))
  | errorMessage (message : MessageRecord)
  | paramAssignment (assignment : AssignRecord)
  | deactivation (ids : List GrfId)
  | jumpTarget (label : Int)
  | realSprite (name : String) (num : Nat)
deriving Repr, Inhabited

/-- A record and the position of the declaration it comes from. -/
structure Record where
  pos : Position
  body : RecordBody
deriving Repr, Inhabited

/-- The number of bytes of a text with its closing zero, none for a text that cannot be encoded. -/
def textSize (text : String) : Int :=
  match EngineText.size (Text.bytesOf text) true false with
  | .ok n => n
  | .error _ => 0

namespace Record

def kind (r : Record) : Kind :=
  match r.body with
  | .spriteCount _ => .spriteCount
  | .grfInfo .. => .grfInfo
  | .propertyTable .. => .propertyTable
  | .spriteTable .. => .spriteTable
  | .spriteGroup _ => .spriteGroup
  | .decisionTable _ => .decisionTable
  | .graphicsTable _ => .graphicsTable
  | .stringDefinition .. => .stringDefinition
  | .bytePatchTable _ => .bytePatchTable
  | .skip .. => .skip
  | .rangeReplace _ => .rangeReplace
  | .errorMessage _ => .errorMessage
  | .paramAssignment _ => .paramAssignment
  | .deactivation _ => .deactivation
  | .jumpTarget _ => .jumpTarget
  | .realSprite .. => .realSprite

def total (sizes : List Int) : Int := sizes.foldr (· + ·) 0

/-- The number of bytes of a pseudo sprite. A real sprite has no size of its own. -/
def size? (r : Record) : Option Int :=
  match r.body with
  | .spriteCount _ => some 4
  | .grfInfo _ name description => some (6 + textSize name + textSize description)
  | .propertyTable _ _ entries => some (7 + total (entries.map fun e => 1 + e.valueSize))
  | .spriteTable _ _ sprites => some (3 + Token.extendedSize sprites)
  | .spriteGroup g => some (5 + 2 * (g.loaded.length + g.loading.length))
  | .decisionTable t => some (4 + t.streamSize + 1 + t.ranges.length * (2 + 2 * t.varSize) + 2)
  | .graphicsTable t =>
    some (3 + total (t.ids.map fun id => (Token.extendedSize id : Int)) + 1 + 3 * t.cargo.length + 2)
  | .stringDefinition _ _ _ text => some (6 + textSize text)
  | .bytePatchTable patches =>
    some (2 + total (patches.map fun p => (2 + Token.extendedSize p.offset : Int)))
  | .skip _ condition _ => some (5 + condition.size)
  | .rangeReplace ranges => some (2 + 3 * ranges.length)
  | .errorMessage m =>
    some (4 + m.params.length + (if m.msgId = MessageRecord.customId then textSize m.custom else 0)
      + (m.data.map textSize).getD 0)
  | .paramAssignment a => some (if a.hasData then 9 else 5)
  | .deactivation ids => some (2 + 4 * ids.length)
  | .jumpTarget _ => some 2
  | .realSprite .. => none

def constantAssignment (target value : Int) (pos : Position) : Record :=
  ⟨pos, .paramAssignment { target, src1 := AssignRecord.dataSource, data := value }⟩

def ofLabel (label : Int) (pos : Position) : Record := ⟨pos, .jumpTarget label⟩

def jumpTo (label : Int) (pos : Position) : Record := ⟨pos, .skip .action9 .always label⟩

def withPatches (r : Record) (patches : List Patch) : List Record :=
  if patches.isEmpty then [r] else [⟨r.pos, .bytePatchTable patches⟩, r]

end Record

end Grf
