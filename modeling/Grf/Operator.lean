import Grf.Text.Number

/-! # Operators

The binary operators of expressions. Arithmetic is on words of 32 bits: `compute?` computes an operator
on two words, and `eval?` does so on integers, which stand for their low 32 bits. Some operators are
meant for the decision tables alone, they have no value at compile time. Two byte codes exist, one
for the operand stream of a decision table and one for a parameter assignment.
-/

namespace Grf

abbrev Word := BitVec 32

def Word.ofInt (v : Int) : Word := BitVec.ofInt 32 v

def Word.ofBool (b : Bool) : Word := if b then 1 else 0

/-- A binary operator. The ordered comparisons and bit tests belong to conditions. The last three
belong to the operand streams of decision tables: store in a scratch register, store in permanent
storage, take the operand as the value. -/
inductive Operator
  | add | sub | mul | div | divU | mod | modU | and | or | xor
  | min | max | minU | maxU | shl | shr | shrU | rot | cmp | cmpU
  | eq | ne | lt | le | gt | ge | hasBit | notHasBit
  | stoTmp | stoPerm | val2
deriving DecidableEq, Repr, Inhabited

namespace Operator

/-- The operators in the order of their numbers, which start at one. -/
def all : List Operator :=
  [add, sub, mul, div, divU, mod, modU, and, or, xor, min, max, minU, maxU, shl, shr, shrU, rot, cmp,
    cmpU, eq, ne, lt, le, gt, ge, hasBit, notHasBit, stoTmp, stoPerm, val2]

def ofNumber? (n : Int) : Option Operator :=
  if 1 ≤ n then all[(n - 1).toNat]? else none

def name : Operator → String
  | add => "+"
  | sub => "-"
  | mul => "*"
  | div => "/"
  | divU => "/u"
  | mod => "%"
  | modU => "%u"
  | and => "&"
  | or => "|"
  | xor => "^"
  | min => "min"
  | max => "max"
  | minU => "min_u"
  | maxU => "max_u"
  | shl => "<<"
  | shr => ">>"
  | shrU => ">>>"
  | rot => "rotate"
  | cmp => "cmp"
  | cmpU => "cmp_u"
  | eq => "=="
  | ne => "!="
  | lt => "<"
  | le => "<="
  | gt => ">"
  | ge => ">="
  | hasBit => "hasbit"
  | notHasBit => "!hasbit"
  | stoTmp => "STO_TMP"
  | stoPerm => "STO_PERM"
  | val2 => "VAL2"

def ofName? (name : String) : Option Operator :=
  all.find? (·.name == name)

/-- The name shown for an operator number, also for a number that no operator has. -/
def nameOfNumber (n : Int) : String :=
  match ofNumber? n with
  | some op => op.name
  | none => "Op(" ++ Text.decimal n ++ ")"

/-- The byte of an operator in the operand stream of a decision table. -/
def tableCode? : Operator → Option Nat
  | add => some 0x00
  | sub => some 0x01
  | min => some 0x02
  | max => some 0x03
  | minU => some 0x04
  | maxU => some 0x05
  | div => some 0x06
  | mod => some 0x07
  | divU => some 0x08
  | modU => some 0x09
  | mul => some 0x0A
  | and => some 0x0B
  | or => some 0x0C
  | xor => some 0x0D
  | stoTmp => some 0x0E
  | val2 => some 0x0F
  | stoPerm => some 0x10
  | rot => some 0x11
  | cmp => some 0x12
  | cmpU => some 0x13
  | shl => some 0x14
  | shrU => some 0x15
  | shr => some 0x16
  | _ => none

/-- The byte of an operator in a parameter assignment. The shifts share the codes of the left shifts:
a right shift is a left shift by a negated count. -/
def assignCode? : Operator → Option Nat
  | add => some 0x01
  | sub => some 0x02
  | mul => some 0x04
  | shl | shrU => some 0x05
  | shr => some 0x06
  | and => some 0x07
  | or => some 0x08
  | divU => some 0x09
  | div => some 0x0A
  | modU => some 0x0B
  | mod => some 0x0C
  | _ => none

def isCommutative : Operator → Bool
  | add | mul | and | or | xor | min | max | minU | maxU | eq | ne => true
  | _ => false

/-- Whether an operator compares its operands with a truth value as the result. -/
def isComparison : Operator → Bool
  | eq | ne | lt | le | gt | ge => true
  | _ => false

/-- The bit of `l` that the low five bits of `r` number. -/
def testBit (l r : Word) : Bool := l.getLsbD (r.toNat % 32)

/-- The value of an operator on two words. There is none for a division by zero and for an operator
that only a decision table computes. Shift counts are taken modulo 32. -/
def compute? (op : Operator) (l r : Word) : Option Word :=
  match op with
  | add => some (l + r)
  | sub => some (l - r)
  | mul => some (l * r)
  | div => if r = 0 then none else some (l.sdiv r)
  | divU => if r = 0 then none else some (l / r)
  | mod => if r = 0 then none else some (l.srem r)
  | modU => if r = 0 then none else some (l % r)
  | and => some (l &&& r)
  | or => some (l ||| r)
  | xor => some (l ^^^ r)
  | min => some (if l.sle r then l else r)
  | max => some (if l.sle r then r else l)
  | minU => some (if l ≤ r then l else r)
  | maxU => some (if l ≤ r then r else l)
  | shl => some (l <<< (r.toNat % 32))
  | shr => some (l.sshiftRight (r.toNat % 32))
  | shrU => some (l >>> (r.toNat % 32))
  | eq => some (Word.ofBool (l == r))
  | ne => some (Word.ofBool (l != r))
  | lt => some (Word.ofBool (l.slt r))
  | le => some (Word.ofBool (l.sle r))
  | gt => some (Word.ofBool (r.slt l))
  | ge => some (Word.ofBool (r.sle l))
  | hasBit => some (Word.ofBool (testBit l r))
  | notHasBit => some (Word.ofBool (!testBit l r))
  | rot | cmp | cmpU | stoTmp | stoPerm | val2 => none

/-- The value of an operator on two integers, each taken as a word. The result is the word as a
signed number. -/
def eval? (op : Operator) (left right : Int) : Option Int :=
  (op.compute? (Word.ofInt left) (Word.ofInt right)).map BitVec.toInt

end Operator

end Grf
