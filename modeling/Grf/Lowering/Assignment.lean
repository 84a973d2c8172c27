import Grf.Context
import Grf.Expr.Fold
import Grf.Record.Basic
import Grf.Word64

/-! # Parameter assignments

An assignment record combines two sources, each a parameter or the one constant the record can hold.
Operands that are more than that are computed in temporary parameters first. A parameter whose number
is computed takes its number from a temporary parameter by a patch.

`operandParam` finds a parameter that holds the value of an expression, and `lowerAssignment` is the
assignment of a declaration.
-/

namespace Grf.Lowering

def checkParamNumber (num : Int) (pos : Position) : Lowering Unit :=
  failIf (num < 0 || 0xFF < num) .outOfRange pos
    ("parameter number 0x" ++ Text.hex 0 num ++ " is out of range [0x00, 0xFF]")

/-- An assignment with the records that have to come before it and the patches it needs. -/
structure Assigned where
  before : List Record
  assignment : AssignRecord
  patches : List Patch := []

def Assigned.records (a : Assigned) (pos : Position) : List Record :=
  a.before ++ Record.withPatches ⟨pos, .paramAssignment a.assignment⟩ a.patches

/-- A parameter that holds the value of `e`. A parameter with a constant number is that parameter,
anything else is assigned to a temporary one, which `assign` does. -/
def holding (e : Expr) (pos : Position) (assign : Int → Lowering Assigned) :
    Lowering (List Record × Int) :=
  match e.paramNumber? with
  | some num => do
    checkParamNumber num pos
    return ([], num)
  | none => do
    let tmp ← popTemp pos
    let assigned ← assign tmp
    return (assigned.records pos, tmp)

/-- The source byte of an operand, with the records that compute it and the constant if the operand is
taken from the data of the record. The data can serve one operand. -/
def source (e : Expr) (pos : Position) (dataUsed : Bool) (assign : Int → Lowering Assigned) :
    Lowering (List Record × Int × Option Int) := do
  match e, dataUsed with
  | .const c, false => return ([], AssignRecord.dataSource, some c)
  | .var _, _ | .string .., _ | .record .., _ =>
    fail .typeMismatch pos (e.text ++ " cannot be used in a parameter assignment")
  | _, _ =>
    let (records, param) ← holding e pos assign
    return (records, param, none)

def combined (target : Int) (code : Nat) (first : Lowering (List Record × Int × Option Int))
    (second : Bool → Lowering (List Record × Int × Option Int)) : Lowering Assigned := do
  let (before1, src1, data1) ← first
  let (before2, src2, data2) ← second data1.isSome
  return {
    before := before1 ++ before2
    assignment := { target, op := code, src1, src2, data := (data1 <|> data2).getD 0 } }

/-- The assignment of the value of a folded expression to a parameter. A right shift is a left shift
by the negated count. -/
def assign (pos : Position) : Expr → Int → Lowering Assigned
  | .const value, target =>
    return { before := [], assignment := { target, src1 := AssignRecord.dataSource, data := value } }
  | .param number, target =>
    match number with
    | .const num => do
      checkParamNumber num pos
      return { before := [], assignment := { target, src1 := num } }
    | _ => do
      let (before, tmp) ← holding number pos (assign pos number)
      return {
        before
        assignment := { target }
        patches := [{ param := tmp, size := 1, offset := AssignRecord.src1Offset }] }
  | .binary op left right, target =>
    match op.assignCode? with
    | none =>
      fail .unsupportedOperator pos
        ("operator " ++ op.name ++ " is not supported in parameter assignments")
    | some code =>
      combined target code (source left pos false (assign pos left)) fun dataUsed =>
        if op = .shr ∨ op = .shrU then
          match right with
          | .const c =>
            let negated := wrap64 (-c)
            source (.const negated) pos dataUsed fun tmp =>
              return { before := []
                       assignment := { target := tmp, src1 := AssignRecord.dataSource, data := negated } }
          | _ =>
            source (.binary .sub (.const 0) right) pos dataUsed fun tmp =>
              combined tmp 0x02 (return ([], AssignRecord.dataSource, some 0)) fun used =>
                source right pos used (assign pos right)
        else source right pos dataUsed (assign pos right)
  | e@(.not _), _ =>
    fail .unsupportedOperator pos
      ("logical negation cannot be computed in a parameter assignment: " ++ e.text)
  | e@(.string ..), _ | e@(.record ..), _ | e@(.var _), _ | e@(.store _), _ | e@(.load _), _ =>
    fail .typeMismatch pos (e.text ++ " cannot be assigned to a parameter")
termination_by structural e => e

/-- A parameter that holds the value of an expression, and the records that compute it. -/
def operandParam (e : Expr) (pos : Position) : Lowering (List Record × Int) :=
  holding e.fold pos (assign pos e.fold)

def lowerAssignment (target value : Expr) (pos : Position) : Lowering (List Record) := do
  match target.fold with
  | .const num =>
    checkParamNumber num pos
    let assigned ← assign pos value.fold num
    return assigned.records pos
  | target =>
    let (before, tmp) ← operandParam target pos
    let assigned ← assign pos value.fold 0
    let patch : Patch := { param := tmp, size := 1, offset := AssignRecord.targetOffset }
    return before ++ { assigned with patches := patch :: assigned.patches }.records pos

/-- The requests for the parameter reads among the values that a variable writes, `offset` bytes from
the start of the patched record. -/
def patchesOf (v : VarRead Expr) (width offset : Int) : List Patch :=
  (Expr.fields v width).filterMap fun field =>
    match field.value with
    | .param number =>
      some { param := number.constant?.getD 0, size := field.size, offset := offset + field.offset }
    | _ => none

end Grf.Lowering
