import Grf.Lowering.Assignment

/-! # Conditions

A skip compares a parameter with a constant, both without a sign. A condition of a declaration is
brought into this form where that is possible, and is computed in a temporary parameter otherwise. As
the records are skipped if the test is true, the test is the negation of the condition.
-/

namespace Grf

/-- A comparison with a constant, which is taken as a word without a sign. -/
structure Comparison where
  op : Operator
  left : Expr
  value : Word

namespace Comparison

def flipped : Operator → Operator
  | .lt => .gt
  | .gt => .lt
  | .le => .ge
  | .ge => .le
  | op => op

def ofBinary? (op : Operator) (left right : Expr) : Option Comparison :=
  if !op.isComparison then none
  else match left.constant?, right.constant? with
    | some _, some _ => none
    | some c, none => some ⟨flipped op, right, Word.ofInt c⟩
    | none, some c => some ⟨op, left, Word.ofInt c⟩
    | none, none => none

def maxWord : Word := 0xFFFFFFFF

/-- The truth value of a comparison that has the same one for every word. -/
def constant? (c : Comparison) : Option Bool :=
  if c.op = .lt ∧ c.value = 0 then some false
  else if c.op = .gt ∧ c.value = maxWord then some false
  else if c.op = .ge ∧ c.value = 0 then some true
  else if c.op = .le ∧ c.value = maxWord then some true
  else none

/-- The test that is true if the comparison is false: its code and the number to compare with. -/
def negation (c : Comparison) : Int × Int :=
  let value : Int := c.value.toNat
  match c.op with
  | .eq => (SkipCondition.notEqual, value)
  | .ne => (SkipCondition.equal, value)
  | .le => (SkipCondition.greater, value)
  | .ge => (SkipCondition.less, value)
  | .lt => (SkipCondition.greater, value - 1)
  | .gt => (SkipCondition.less, value + 1)
  | _ => (0, value)

end Comparison

def constantCondition? (cond : Expr) : Option Bool :=
  match cond.fold with
  | .const v => some (v ≠ 0)
  | .binary op left right => (Comparison.ofBinary? op left right).bind (·.constant?)
  | _ => none

namespace Lowering

def testOf (e : Expr) (size cond value : Int) (pos : Position) :
    Lowering (List Record × SkipCondition) := do
  let (records, param) ← operandParam e pos
  return (records, { param, size, cond, value })

/-- The records that compute a condition, and the test that is true if it is false. -/
def lowerCondition (cond : Expr) (pos : Position) : Lowering (List Record × SkipCondition) := do
  let isZero (e : Expr) := testOf e 4 SkipCondition.equal 0 pos
  match cond.fold with
  | .not operand => testOf operand 4 SkipCondition.notEqual 0 pos
  | e@(.binary op left right) =>
    if op = .hasBit ∨ op = .notHasBit then
      match right with
      | .const bit =>
        failIf (bit < 0 || 31 < bit) .outOfRange pos
          ("bit " ++ Text.decimal bit ++ " is out of range [0, 31]")
        let test := if op = .hasBit then SkipCondition.bitClear else SkipCondition.bitSet
        testOf left 1 test bit pos
      | _ => isZero e
    else match Comparison.ofBinary? op left right with
      | some c => testOf c.left 4 c.negation.1 c.negation.2 pos
      | none => isZero e
  | e => isZero e

end Lowering

end Grf
