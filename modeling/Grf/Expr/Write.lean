import Grf.Expr.Basic
import Grf.Output.Token

/-! # Writing values

A value is written with a width of one, two or four bytes. `Expr.size` tells the number of bytes
before anything is written, `Expr.tokens` writes. The value of a parameter is unknown at compile time:
a zero is written in its place, for a byte patch to fill in.

A variable read is written as its number, the parameter as one byte, the shift with its flags, the
mask, and the added number and divisor if there is something after the mask.
-/

namespace Grf

namespace VarRead

def chainedFlag : Nat := 0x20

def divFlag : Nat := 0x40

def modFlag : Nat := 0x80

def shiftByte {α : Type} (v : VarRead α) (last : Bool) : Int :=
  v.shift
    + (if v.mod.isSome then modFlag else if v.hasPostOp then divFlag else 0 : Nat)
    + (if last then 0 else chainedFlag : Nat)

end VarRead

namespace Expr

def size (e : Expr) (width : Int) : Int :=
  match e with
  | var read => read.size width
  | store _ => 2 + width
  | load _ => 3 + width
  | _ => width

/-- The bytes of a variable that holds a constant in its mask, without a parameter. -/
def storeTokens (number width : Int) (last : Bool) : Except Fault (List Token) := do
  let mask ← Token.sized number width
  return [Token.byteOf VarRead.constantNum, Token.byteOf ((constantVar number).shiftByte last), mask]

def loadTokens (number width : Int) (last : Bool) : Except Fault (List Token) := do
  let shift := Token.byteOf (if last then 0 else VarRead.chainedFlag : Nat)
  let mask ← Token.sized (VarRead.fullMask width) width
  return [Token.byteOf VarRead.loadTempNum, Token.byteOf number, shift, mask]

/-- What a value writes with the given width. The flag `last` is for operands of a decision table: it
is false if another operand follows. -/
def tokensAs (last : Bool) : Expr → Int → Except Fault (List Token)
  | const value, width => return [← Token.sized value width]
  | param number, width =>
    match number with
    | const _ => return [← Token.sized 0 width]
    | _ => .error (.computedParameter (text (param number)))
  | string name id, width =>
    if id < 0 then .error (.unresolvedString name) else return [← Token.sized id width]
  | record name id, width =>
    if id < 0 then .error (.unboundReference name) else return [← Token.sized id width]
  | store slot, width =>
    match slot.register? with
    | some number => storeTokens number width last
    | none => .error .slotWrittenUnassigned
  | load slot, width =>
    match slot.register? with
    | some number => loadTokens number width last
    | none => .error .slotReadUnassigned
  | e@(binary ..), _ => .error (.notWritable e.text)
  | e@(not _), _ => .error (.notWritable e.text)
  | var ⟨num, arg, shift, mask, add, div, mod⟩, width => do
    let v : VarRead Expr := ⟨num, arg, shift, mask, add, div, mod⟩
    if div.isSome && mod.isSome then throw (.divisorAndModulo num)
    if shift < 0 || VarRead.maxShift < shift then throw (.invalidShift shift num)
    let arg ← match arg with
      | none => pure []
      | some e =>
        if e.isValue then tokensAs true e 1 else throw (.parameterNotLowered num e.text)
    let mask ← match mask with
      | some e => tokensAs true e width
      | none => pure [← Token.sized (VarRead.fullMask width) width]
    let head := [Token.byteOf num] ++ arg ++ [Token.byteOf (v.shiftByte last)] ++ mask
    if !v.hasPostOp then return head
    let add ← match add with
      | some e => tokensAs true e width
      | none => pure [← Token.sized 0 width]
    let divisor ← match div, mod with
      | some e, _ => tokensAs true e width
      | none, some e => tokensAs true e width
      | none, none => pure [← Token.sized 1 width]
    return head ++ add ++ divisor
termination_by structural e => e

def tokens (e : Expr) (width : Int) : Except Fault (List Token) := e.tokensAs true width

/-- A value written inside a variable read, `offset` bytes from its start. -/
structure Field where
  offset : Int
  size : Int
  value : Expr
deriving Repr, Inhabited

/-- The values a variable read writes, with their places. The numbers that stand for a missing field
are not listed. -/
def fields (v : VarRead Expr) (width : Int) : List Field :=
  let arg := match v.param with
    | some e => if e.isValue then [⟨1, 1, e⟩] else []
    | none => []
  let maskAt : Int := if v.param.isSome then 3 else 2
  let mask := [⟨maskAt, width, v.mask.getD (const (VarRead.fullMask width))⟩]
  let add := v.add.toList.map (Field.mk (maskAt + width) width)
  let divisor := (v.div <|> v.mod).toList.map (Field.mk (maskAt + 2 * width) width)
  arg ++ mask ++ add ++ divisor

end Expr

end Grf
