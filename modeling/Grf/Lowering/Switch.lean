import Grf.Lowering.Checks
import Grf.Lowering.Stream

/-! # Decision tables

A switch computes a value and selects a result by the range the value falls in. A result is a number
for the caller or a named record. A result that has to be computed becomes a table of its own, which
returns the computed value.
-/

namespace Grf

structure SwitchRange where
  min : Int
  max : Int
  result : Option Expr
  pos : Position := {}
deriving Repr, Inhabited

structure Switch where
  name : String
  feature : Int
  related : Bool
  varSize : Int
  expr : Expr
  ranges : List SwitchRange
  default : Option Expr
  pos : Position := {}
deriving Repr, Inhabited

namespace Lowering

structure TableHead where
  node : Nat
  stream : Stream
  before : List Record

def lowerTableHead (s : Switch) : Lowering TableHead := do
  checkFeature s.feature s.pos
  failIf (0xFF < s.ranges.length) .outOfRange s.pos
    ("too many ranges in " ++ s.name ++ ": " ++ toString s.ranges.length)
  let node ← define s.name s.feature s.pos
  log .debug "lowering decision table" [("switch", .text s.name)]
  let (stream, before) ← lowerStream node s.feature s.expr s.varSize s.pos
  return { node, stream, before }

/-- The records of a table: the tables of its results, the computations of temporary parameters, the
patches and the table. -/
def tableRecords (s : Switch) (head : TableHead) (results : List Record) (ranges : List TableRange)
    (default : TableResult) : List Record :=
  let table : Record := ⟨s.pos, .decisionTable {
    node := head.node, name := s.name, feature := s.feature, related := s.related
    varSize := s.varSize, stream := head.stream.items, streamSize := head.stream.size
    ranges, default }⟩
  results ++ head.before
    ++ table.withPatches (head.stream.patches.map fun p => { p with offset := p.offset + 4 })

def lowerComputed (s : Switch) : Lowering (List Record) := do
  let head ← lowerTableHead s
  return tableRecords s head [] [] (.callback 0)

def maxCallback : Int := 0x7FFF

/-- A result that has to be computed, and the records of its table. -/
def computedResult (s : Switch) (node : Nat) (pos : Position) (e : Expr) :
    Lowering (TableResult × List Record) := do
  let name ← generateName s.name
  let records ← lowerComputed { s with name, expr := e, ranges := [], default := none, pos }
  addRef (some node) name s.feature pos
  return (.ref name (-1), records)

/-- A result, and the records of its table if it has to be computed. -/
def lowerResult (s : Switch) (node : Nat) (result : Option Expr) (pos : Position) :
    Lowering (TableResult × List Record) := do
  match result.map Expr.fold with
  | none => fail .invalidRangeResult pos ("missing result in " ++ s.name)
  | some (.const c) =>
    failIf (c < 0 || maxCallback < c) .outOfRange pos
      ("callback result " ++ Text.decimal c ++ " is out of range [0, 0x" ++ Text.hex 0 maxCallback ++
        "]")
    return (.callback c, [])
  | some (.record name _) =>
    addRef (some node) name s.feature pos
    return (.ref name (-1), [])
  | some r@(.binary ..) | some r@(.var _) | some r@(.param _) | some r@(.not _) =>
    computedResult s node pos r
  | some r => fail .invalidRangeResult pos (r.text ++ " is not a valid result")

def lowerRange (s : Switch) (node : Nat) (r : SwitchRange) (pos : Position) :
    Lowering (TableRange × List Record) := do
  failIf (r.max < r.min) .outOfRange pos
    ("empty range " ++ Text.decimal r.min ++ ".." ++ Text.decimal r.max)
  checkFits r.min s.varSize pos
  checkFits r.max s.varSize pos
  let (result, records) ← lowerResult s node r.result pos
  return (⟨r.min, r.max, result⟩, records)

def lowerSwitch (s : Switch) : Lowering (List Record) := do
  let head ← lowerTableHead s
  let ranges ← s.ranges.zipIdx.mapM fun (r, i) =>
    lowerRange s head.node r (positionOr r.pos (s.pos.sub ("ranges[" ++ toString i ++ "]")))
  let (default, others) ← lowerResult s head.node s.default (s.pos.sub "default")
  return tableRecords s head (ranges.flatMap (·.2) ++ others) (ranges.map (·.1)) default

end Lowering

end Grf
