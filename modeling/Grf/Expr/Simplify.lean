import Grf.Expr.Fold
import Grf.Word64

/-! # Expressions for decision tables

A decision table computes fewer operators than an expression may use, and it computes more than an
operation in one operand. `Expr.forTable` brings an expression into this form: comparisons and bit
tests are put together from three-way comparisons, masks and shifts, and operations on a variable and
a constant become fields of the variable.
-/

namespace Grf

namespace VarRead

def constantMask? (v : VarRead Expr) (width : Int) : Option Int :=
  match v.mask with
  | none => some (fullMask width)
  | some mask => mask.constant?

/-- A mask over the value of a variable, if nothing follows its own mask. -/
def foldAnd? (v : VarRead Expr) (c width : Int) : Option (VarRead Expr) := do
  guard (!v.hasPostOp)
  let mask ← v.constantMask? width
  let mask := Word.ofInt mask &&& Word.ofInt c &&& Word.ofInt (fullMask width)
  return { v with mask := some (.const mask.toNat) }

/-- A constant added to the value of a variable, if no division follows. -/
def foldAdd? (v : VarRead Expr) (c : Int) : Option (VarRead Expr) := do
  guard (v.div.isNone && v.mod.isNone)
  match v.add with
  | none => return { v with add := some (.const c) }
  | some (.const a) => return { v with add := some (.const (Word.ofInt (a + c)).toInt) }
  | some _ => none

/-- A parameter added to the value of a variable, if nothing is added yet and no division follows. -/
def foldAddParam? (v : VarRead Expr) (operand : Expr) : Option (VarRead Expr) := do
  guard (v.div.isNone && v.mod.isNone && v.add.isNone && operand.paramNumber?.isSome)
  return { v with add := some operand }

/-- The value of a variable divided by a constant or reduced modulo one, if that has not been done
yet. The division is unsigned, and the divisor positive. -/
def foldDivision? (v : VarRead Expr) (modulo : Bool) (c : Int) : Option (VarRead Expr) := do
  guard (0 < c && v.div.isNone && v.mod.isNone)
  return if modulo then { v with mod := some (.const c) } else { v with div := some (.const c) }

/-- The value of a variable shifted to the right, if nothing follows its mask and the shift can be
written. -/
def foldShift? (v : VarRead Expr) (c width : Int) : Option (VarRead Expr) := do
  let shift := wrap64 (v.shift + c)
  guard (0 ≤ c && !v.hasPostOp && shift ≤ maxShift)
  let mask ← v.constantMask? width
  let mask := Word.ofInt mask >>> (min c 32).toNat
  return { v with shift, mask := some (.const mask.toNat) }

/-- An operation on the value of a variable as fields of the variable, where that can be done. -/
def foldInto? (v : VarRead Expr) (op : Operator) (operand : Expr) (width : Int) :
    Option (VarRead Expr) :=
  match op, operand.constant? with
  | .and, some c => v.foldAnd? c width
  | .add, some c => v.foldAdd? c
  | .sub, some c => v.foldAdd? (wrap64 (-c))
  | .add, none => v.foldAddParam? operand
  | .divU, some c => v.foldDivision? false c
  | .modU, some c => v.foldDivision? true c
  | .shrU, some c => v.foldShift? c width
  | _, _ => none

end VarRead

namespace Expr

/-- The operands with a constant on the right, if they may be exchanged. -/
def constantRight (op : Operator) (left right : Expr) : Expr × Expr :=
  if op.isCommutative && left.constant?.isSome && right.constant?.isNone then (right, left)
  else (left, right)

/-- An operation that a decision table computes, on simplified operands: a constant, a field of a
variable or an operation. -/
def tableOp (width : Int) (op : Operator) (left right : Expr) : Expr :=
  match foldBinary op left right with
  | const c => const c
  | _ =>
    let (left, right) := constantRight op left right
    match left with
    | var v => ((v.foldInto? op right width).map var).getD (binary op left right)
    | _ => binary op left right

def bitTest (width : Int) (left right : Expr) : Expr :=
  tableOp width .and (tableOp width .shrU left right) (const 1)

/-- A comparison or bit test on simplified operands, by operations of decision tables. A three-way
comparison is zero for less, one for equal and two for greater. -/
def tableTest (width : Int) (op : Operator) (left right : Expr) : Expr :=
  let cmp := binary .cmp left right
  let one := const 1
  match op with
  | .eq => tableOp width .and cmp one
  | .ne => tableOp width .xor (tableOp width .and cmp one) one
  | .lt => tableOp width .xor (tableOp width .minU cmp one) one
  | .gt => tableOp width .shrU cmp one
  | .le => tableOp width .xor (tableOp width .shrU cmp one) one
  | .ge => tableOp width .minU cmp one
  | .hasBit => bitTest width left right
  | .notHasBit => tableOp width .xor (bitTest width left right) one
  | _ => tableOp width op left right

def simplifyBinary (width : Int) (op : Operator) (left right : Expr) : Expr :=
  match foldBinary op left right with
  | const c => const c
  | _ =>
    let (left, right) := constantRight op left right
    tableTest width op left right

/-- A folded expression by operations of decision tables on values of `width` bytes. -/
def simplify (width : Int) : Expr → Expr
  | binary op left right => simplifyBinary width op (left.simplify width) (right.simplify width)
  | not operand => simplifyBinary width .eq (operand.simplify width) (const 0)
  | var ⟨num, some arg, shift, mask, add, div, mod⟩ =>
    var ⟨num, some (arg.simplify width), shift, mask, add, div, mod⟩
  | param number => param number.fold
  | e => e
termination_by structural e => e

def forTable (e : Expr) (width : Int) : Expr := e.fold.simplify width

end Expr

end Grf
