import Grf.Operator

/-! # Expressions

An expression is a tree of operators over constants, parameters, engine variables and references to
strings and records. The leaves that can be written into a record are values. This module holds the
type, how an expression is shown, and the two questions asked most often: is it a constant, and can it
stand as an operand without computing anything before it.

A variable read takes the raw value of an engine variable to
`((raw >> shift) & mask) + add`, and then divides by `div` or reduces modulo `mod`.
-/

namespace Grf

/-- A scratch slot of a decision table. A slot has a register, or waits for one. The number of a
spilled slot tells the spills of one table apart, so that the read of a slot finds its store. A slot
that is just `unassigned` stands for itself alone. -/
inductive Slot
  | register (number : Int)
  | spill (number : Nat)
  | unassigned
deriving DecidableEq, Repr, Inhabited

def Slot.register? : Slot → Option Int
  | register number => some number
  | spill _ | unassigned => none

/-- A read of an engine variable, with the expressions of type `α` as its parameter and fields. A
missing mask keeps all bits. -/
structure VarRead (α : Type) where
  num : Int
  param : Option α := none
  shift : Int := 0
  mask : Option α := none
  add : Option α := none
  div : Option α := none
  mod : Option α := none
deriving Repr, Inhabited, DecidableEq

/-- An expression. A reference has a negative id until it is resolved or bound. -/
inductive Expr
  | const (value : Int)
  | param (number : Expr)
  | string (name : String) (id : Int)
  | record (name : String) (id : Int)
  | binary (op : Operator) (left right : Expr)
  | not (operand : Expr)
  | var (read : VarRead Expr)
  | store (slot : Slot)
  | load (slot : Slot)
deriving Repr, Inhabited

namespace VarRead

def constantNum : Int := 0x1A

/-- The variable that reads another one with the last value as its parameter. -/
def computedParamNum : Int := 0x7B

def loadTempNum : Int := 0x7D

def procedureNum : Int := 0x7E

def maxShift : Int := 0x1F

variable {α : Type}

def hasPostOp (v : VarRead α) : Bool :=
  v.add.isSome || v.div.isSome || v.mod.isSome

/-- The mask that keeps all bits of a value of `size` bytes. -/
def fullMask (size : Int) : Int :=
  if size = 1 then 0xFF else if size = 2 then 0xFFFF else 0xFFFFFFFF

def size (v : VarRead α) (size : Int) : Int :=
  2 + size + (if v.param.isSome then 1 else 0) + (if v.hasPostOp then 2 * size else 0)

end VarRead

namespace Expr

def stringRef (name : String) : Expr := string name (-1)

def recordRef (name : String) : Expr := record name (-1)

def paramAt (number : Int) : Expr := param (const number)

def constantVar (v : Int) : VarRead Expr :=
  { num := VarRead.constantNum, mask := some (const v) }

def procedureCall (ref : Expr) : VarRead Expr :=
  { num := VarRead.procedureNum, param := some ref }

def constant? : Expr → Option Int
  | const value => some value
  | _ => none

def paramNumber? : Expr → Option Int
  | param (const number) => some number
  | _ => none

def isValue : Expr → Bool
  | binary .. | not _ => false
  | _ => true

def isPrefixed : Operator → Bool
  | .min | .max | .minU | .maxU | .rot | .cmp | .cmpU | .hasBit | .notHasBit | .stoTmp | .stoPerm =>
    true
  | _ => false

/-- A scratch slot as it is shown: its register, or a question mark. -/
def slotText (name : String) (slot : Slot) : String :=
  match slot.register? with
  | some number => name ++ "(0x" ++ Text.hex 2 number ++ ")"
  | none => name ++ "(?)"

def constText (v : Int) : String :=
  if v < 0 then Text.decimal v else "0x" ++ Text.hex 0 v

def text : Expr → String
  | const value => constText value
  | param number => "param[" ++ number.text ++ "]"
  | string name _ => "string(" ++ name ++ ")"
  | record name _ => name
  | binary op left right =>
    if isPrefixed op then op.name ++ "(" ++ left.text ++ ", " ++ right.text ++ ")"
    else "(" ++ left.text ++ " " ++ op.name ++ " " ++ right.text ++ ")"
  | not operand => "!" ++ operand.text
  | var ⟨num, arg, shift, mask, add, div, mod⟩ =>
    let arg := match arg with | some e => ", " ++ e.text | none => ""
    let maskText := match mask with | some e => some e.text | none => none
    let add := match add with | some e => some (" + " ++ e.text) | none => none
    let div := match div with | some e => some (" / " ++ e.text) | none => none
    let mod := match mod with | some e => some (" % " ++ e.text) | none => none
    let postOp := add.isSome || div.isSome || mod.isSome
    -- the variable that holds a constant is shown as the constant
    match maskText, num == VarRead.constantNum && !postOp with
    | some mask, true => mask
    | _, _ =>
      "var[0x" ++ Text.hex 2 num ++ arg ++ ", " ++ Text.decimal shift ++
        (maskText.map (", " ++ ·)).getD "" ++ "]" ++ add.getD "" ++ div.getD "" ++ mod.getD ""
  | store slot => slotText "store_tmp" slot
  | load slot => slotText "load_tmp" slot
termination_by structural e => e

/-- Whether an expression can be an operand of a decision table without computing anything before
it. -/
def isSimple : Expr → Bool
  | const _ | string .. | record .. | store _ | load _ => true
  | param (const _) => true
  | param _ | binary .. | not _ => false
  | var ⟨_, none, _, _, _, _, _⟩ => true
  | var ⟨_, some arg, _, _, _, _, _⟩ => arg.isSimple
termination_by structural e => e

/-- An expression and its sub expressions, each before its own parts and from left to right. The
fields of a variable read are not entered. -/
def walk : Expr → List Expr
  | e@(param number) => e :: number.walk
  | e@(binary _ left right) => e :: (left.walk ++ right.walk)
  | e@(not operand) => e :: operand.walk
  | e@(var ⟨_, some arg, _, _, _, _, _⟩) => e :: arg.walk
  | e => [e]
termination_by structural e => e

end Expr

end Grf
