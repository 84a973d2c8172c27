import Grf.Document.Node
import Grf.Expr.Fold

/-! # Expressions of declarations

An expression is a number, or a mapping whose keys tell what it is: `var` for an engine variable,
`param` for a parameter, `string` and `ref` for strings and named records, `op` for an operation and
`not` for a negation. A variable may have a `param` of its own, so the key `var` counts first.
-/

namespace Grf

def Operator.isDeclarable : Operator → Bool
  | .stoTmp | .stoPerm | .val2 => false
  | _ => true

namespace Node

def operator (n : Node) : Except Failure Operator := do
  let name ← n.stringField "op"
  let pos := ((n.get? "op").map Node.pos).getD n.pos
  match Operator.ofName? name with
  | none => invalid pos ("unknown operator " ++ Text.quote name)
  | some op =>
    if op.isDeclarable then return op
    else invalid pos ("operator " ++ op.name ++ " cannot be used in declarations")

/-- A field of a variable has to be a constant, or a parameter with a constant number. -/
def checkVarField (pos : Position) (key : String) (e : Expr) : Except Failure Expr :=
  match e.fold with
  | .const c => .ok (.const c)
  | .param (.const num) => .ok (.param (.const num))
  | _ => invalid pos (key ++ " must be a constant or a parameter with a constant number")

def varNumber (n : Node) : Except Failure Int := do
  let num ← n.intField "var"
  if num < 0 || 0xFF < num then
    invalid (((n.get? "var").map Node.pos).getD n.pos)
      ("variable number 0x" ++ Text.hex 0 num ++ " is out of range")
  else return num

def varShift (n : Node) : Except Failure Int := do
  let shift ← n.intFieldD "shift" 0
  if shift < 0 || VarRead.maxShift < shift then
    invalid (((n.get? "shift").map Node.pos).getD n.pos)
      ("shift " ++ Text.decimal shift ++ " is out of range [0, " ++ Text.decimal VarRead.maxShift ++
        "]")
  else return shift

def leafExpr? : Node → Option (Except Failure Expr)
  | .int value _ => some (.ok (.const value))
  | n@(.string _ pos) =>
    match n.asInt with
    | .ok value => some (.ok (.const value))
    | .error _ => some (invalid pos ("expression expected, found " ++ n.describe))
  | .mapping .. => none
  | n => some (invalid n.pos ("expression expected, found " ++ n.kindName))

def toExpr (n : Node) : Except Failure Expr :=
  match n.leafExpr? with
  | some leaf => leaf
  | none =>
    if n.has "var" then do
      n.checkKeys ["var", "param", "shift", "mask", "add", "div", "mod"]
      let num ← n.varNumber
      let param ← match _h : n.get? "param" with
        | some child => some <$> child.toExpr
        | none => pure none
      let shift ← n.varShift
      let mask ← match _h : n.get? "mask" with
        | some child => do some <$> checkVarField child.pos "mask" (← child.toExpr)
        | none => pure none
      let add ← match _h : n.get? "add" with
        | some child => do some <$> checkVarField child.pos "add" (← child.toExpr)
        | none => pure none
      let div ← match _h : n.get? "div" with
        | some child => do some <$> checkVarField child.pos "div" (← child.toExpr)
        | none => pure none
      let mod ← match _h : n.get? "mod" with
        | some child => do some <$> checkVarField child.pos "mod" (← child.toExpr)
        | none => pure none
      if div.isSome && mod.isSome then invalid n.pos "div and mod cannot be used together"
      return .var { num, param, shift, mask, add, div, mod }
    else match _h : n.get? "param" with
    | some child => do
      n.checkKeys ["param"]
      return .param (← child.toExpr)
    | none =>
      if n.has "string" then do
        n.checkKeys ["string"]
        return .stringRef (← n.stringField "string")
      else if n.has "ref" then do
        n.checkKeys ["ref"]
        return .recordRef (← n.stringField "ref")
      else if n.has "op" then do
        n.checkKeys ["op", "left", "right"]
        let op ← n.operator
        match _hl : n.get? "left", _hr : n.get? "right" with
        | none, _ => n.missing "left"
        | some _, none => n.missing "right"
        | some left, some right =>
          let left ← left.toExpr
          let right ← right.toExpr
          return .binary op left right
      else match _h : n.get? "not" with
      | some child => do
        n.checkKeys ["not"]
        return .not (← child.toExpr)
      | none =>
        invalid n.pos ("unknown expression, expected a mapping with one of the keys: " ++
          "param, var, string, ref, op, not")
termination_by sizeOf n
decreasing_by all_goals exact sizeOf_get?_lt ‹_›

end Node

end Grf
