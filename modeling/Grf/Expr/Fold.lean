import Grf.Expr.Basic

/-! # Constant folding

`Expr.fold` computes every operation on two constants, from the leaves up. The fields of a variable
read are left as they are, only its parameter is folded.
-/

namespace Grf.Expr

def foldBinary (op : Operator) (left right : Expr) : Expr :=
  match left.constant?, right.constant? with
  | some l, some r => ((op.eval? l r).map const).getD (binary op left right)
  | _, _ => binary op left right

def foldNot (operand : Expr) : Expr :=
  match operand.constant? with
  | some v => const (if v = 0 then 1 else 0)
  | none => not operand

def fold : Expr → Expr
  | binary op left right => foldBinary op left.fold right.fold
  | not operand => foldNot operand.fold
  | param number => param number.fold
  | var ⟨num, some arg, shift, mask, add, div, mod⟩ =>
    var ⟨num, some arg.fold, shift, mask, add, div, mod⟩
  | e => e
termination_by structural e => e

end Grf.Expr
