import Grf.Expr.Simplify
import Grf.Lowering.Assignment
import Grf.Lowering.Strings

/-! # Operand streams

A decision table computes its value by a stream of operands and operators, from left to right: the
first operand is the value, and each operator combines the value with the operand after it. The right
side of an operator has to be one operand. A right side that is more is computed first and kept in a
scratch slot: `right STO_TMP slot VAL2 left op load slot`.

Parameters are patched into the operands. The places of the patches are relative to the start of the
stream until the table is put together.
-/

namespace Grf

structure Stream where
  items : List StreamItem := []
  patches : List Patch := []
  size : Int := 0
deriving Repr, Inhabited

namespace Stream

def ofOperand (operand : Expr) (width : Int) : Stream :=
  let patches := match operand with
    | .var v => Lowering.patchesOf v width 0
    | _ => []
  { items := [.operand operand], patches, size := operand.size width }

def ofOp (op : Operator) : Stream := { items := [.op op], size := 1 }

def append (s t : Stream) : Stream :=
  { items := s.items ++ t.items
    patches := s.patches ++ t.patches.map fun p => { p with offset := p.offset + s.size }
    size := s.size + t.size }

instance : Append Stream := ⟨append⟩

end Stream

def Expr.spills : Expr → Nat
  | binary _ left right => right.spills + (if right.isSimple then 0 else 1) + left.spills
  | var ⟨_, some arg, _, _, _, _, _⟩ => arg.spills
  | _ => 0
termination_by structural e => e

namespace Lowering

/-- Checks a field of a variable: a constant, or a parameter with a constant number. -/
def checkVarField (pos : Position) : Option Expr → Lowering Unit
  | none | some (.const _) => pure ()
  | some (.param (.const num)) => checkParamNumber num pos
  | some (.param _) =>
    fail .typeMismatch pos "fields of variables cannot read parameters with a computed number"
  | some field => fail .typeMismatch pos ("invalid variable field: " ++ field.text)

def checkVar (v : VarRead Expr) (pos : Position) : Lowering Unit := do
  failIf (v.num < 0 || 0xFF < v.num) .outOfRange pos
    ("variable number 0x" ++ Text.hex 0 v.num ++ " is out of range")
  failIf (v.div.isSome && v.mod.isSome) .typeMismatch pos
    ("variable 0x" ++ Text.hex 2 v.num ++ " has both a divisor and a modulo")
  [v.mask, v.add, v.div, v.mod].forM (checkVarField pos)

/-- The stream of a simplified expression and the records that have to come before its table. `node`
is the definition of the table, and `slot` the number of the first scratch slot. -/
def lowerOperands (node : Nat) (feature width : Int) (pos : Position) :
    Expr → Nat → Lowering (Stream × List Record)
  | .const c, _ => return (.ofOperand (.var (Expr.constantVar c)) width, [])
  | .param number, _ => do
    let (records, param) ← operandParam (.param number) pos
    let operand : Expr := .var { num := VarRead.constantNum, mask := some (.paramAt param) }
    return (.ofOperand operand width, records)
  | .string name _, _ => do
    let (id, records) ← resolveString feature name pos
    return (.ofOperand (.var (Expr.constantVar id)) width, records)
  | .record name _, _ => do
    addRef (some node) name feature pos
    return (.ofOperand (.var (Expr.procedureCall (.recordRef name))) width, [])
  | .var ⟨num, arg, shift, mask, add, div, mod⟩, slot => do
    let v : VarRead Expr := ⟨num, arg, shift, mask, add, div, mod⟩
    checkVar v pos
    match arg with
    | none => return (.ofOperand (.var v) width, [])
    | some (.const c) =>
      failIf (c < 0 || 0xFF < c) .outOfRange pos
        ("parameter 0x" ++ Text.hex 0 c ++ " of variable 0x" ++ Text.hex 2 num ++ " is out of range")
      return (.ofOperand (.var v) width, [])
    | some (.param (.const index)) =>
      checkParamNumber index pos
      return (.ofOperand (.var v) width, [])
    | some arg =>
      -- the parameter is computed first, and another variable reads this one with it
      failIf (num < 0x60 || 0x7F < num) .typeMismatch pos
        ("variable 0x" ++ Text.hex 2 num ++ " does not take a parameter")
      let (stream, records) ← lowerOperands node feature width pos arg slot
      let indirect : VarRead Expr :=
        { v with num := VarRead.computedParamNum, param := some (.const num) }
      return (stream ++ .ofOp .val2 ++ .ofOperand (.var indirect) width, records)
  | e@(.store _), _ => return (.ofOperand e width, [])
  | e@(.load _), _ => return (.ofOperand e width, [])
  | .binary op left right, slot => do
    if op.tableCode?.isNone then
      fail .unsupportedOperator pos ("operator " ++ op.name ++ " is not supported in decision tables")
    let (rightStream, before) ← lowerOperands node feature width pos right slot
    let next := slot + right.spills
    if right.isSimple then
      let (leftStream, others) ← lowerOperands node feature width pos left next
      return (leftStream ++ .ofOp op ++ rightStream, before ++ others)
    else
      let spill := rightStream ++ .ofOp .stoTmp ++ .ofOperand (.store (.spill next)) width ++ .ofOp .val2
      let (leftStream, others) ← lowerOperands node feature width pos left (next + 1)
      return (spill ++ leftStream ++ .ofOp op ++ .ofOperand (.load (.spill next)) width,
        before ++ others)
  | e@(.not _), _ => fail .typeMismatch pos (e.text ++ " cannot be used in a decision table")
termination_by structural e => e

def lowerStream (node : Nat) (feature : Int) (e : Expr) (width : Int) (pos : Position) :
    Lowering (Stream × List Record) := do
  failIf (width ≠ 1 && width ≠ 2 && width ≠ 4) .outOfRange pos
    ("invalid variable size " ++ Text.decimal width)
  lowerOperands node feature width pos (e.forTable width) 0

end Lowering

end Grf
