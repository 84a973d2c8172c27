import Grf.Proofs.Engine.Basic

/-! # The value of an expression

`Expr.value?` is the word an expression stands for, in an environment that gives values to the engine variables, the
parameters, the calls of decision tables and the strings. There is none if something is divided by zero, or if a part
is one that only a compiled table may hold. `Expr.byParts` is the induction principle: the parameter of a variable read
is a part of the expression, the other fields of the read are not.
-/

namespace Grf

/-- Everything that an expression can read. An engine variable may have a parameter. -/
structure Env where
  engineVar : Int → Option Word → Word
  params : Params
  call : String → Word
  text : String → Word

def Word.threeWay (less equal : Bool) : Word := if less then 0 else if equal then 1 else 2

@[simp] theorem Word.ofInt_toInt (w : Word) : Word.ofInt w.toInt = w := BitVec.ofInt_toInt

@[simp] theorem Word.ofInt_toNat (w : Word) : Word.ofInt (w.toNat : Int) = w := by
  simp [Word.ofInt]

theorem Word.lowByte_ofInt {n : Int} (h0 : 0 ≤ n) (h1 : n ≤ 0xFF) : (Word.ofInt n).lowByte = n := by
  unfold Word.lowByte Word.ofInt
  rw [BitVec.toNat_ofInt]
  omega

namespace Operator

/-- The value of an operator in a decision table, which computes more operators than can be folded. -/
def tableValue? (op : Operator) (l r : Word) : Option Word :=
  match op with
  | cmp => some (Word.threeWay (l.slt r) (l == r))
  | cmpU => some (Word.threeWay (l.ult r) (l == r))
  | rot => some (l.rotateRight (r.toNat % 32))
  | val2 => some r
  | op => op.compute? l r

theorem tableValue?_of_compute? {op : Operator} {l r w : Word} (h : op.compute? l r = some w) :
    op.tableValue? l r = some w := by
  cases op <;> first | exact h | cases h

end Operator

namespace Env

/-- The value of a field of a variable read: a constant, or a parameter with a constant number. -/
def field? (env : Env) : Expr → Option Word
  | .const c => some (Word.ofInt c)
  | .param (.const n) => some (env.params.read (Word.ofInt n).lowByte)
  | _ => none

def fieldOr? (env : Env) (default : Word) : Option Expr → Option Word
  | none => some default
  | some field => env.field? field

def divided? (env : Env) (div mod : Option Expr) (value : Word) : Option Word :=
  match div, mod with
  | none, none => some value
  | some d, none => (env.field? d).bind (Operator.divU.compute? value)
  | none, some m => (env.field? m).bind (Operator.modU.compute? value)
  | some _, some _ => none

/-- The value of an engine variable before anything is done with it. One variable is all ones, its
value is its mask. The variable that reads another one has no value of its own. -/
def raw? (env : Env) (num : Int) (arg : Option Word) : Option Word :=
  if num = VarRead.constantNum then some (BitVec.allOnes 32)
  else if num = VarRead.computedParamNum then none
  else some (env.engineVar num arg)

end Env

namespace VarRead

def ShiftFits (v : VarRead Expr) : Prop := 0 ≤ v.shift ∧ v.shift ≤ maxShift

instance (v : VarRead Expr) : Decidable v.ShiftFits := inferInstanceAs (Decidable (_ ∧ _))

def adjust? (env : Env) (v : VarRead Expr) (raw : Word) : Option Word := do
  guard v.ShiftFits
  let mask ← env.fieldOr? (BitVec.allOnes 32) v.mask
  let add ← env.fieldOr? 0 v.add
  env.divided? v.div v.mod (((raw >>> v.shift.toNat) &&& mask) + add)

def read? (env : Env) (v : VarRead Expr) (arg : Option Word) : Option Word := (env.raw? v.num arg).bind (v.adjust? env)

end VarRead

namespace Expr

/-- The value of an expression. A parameter is numbered by the low byte of its number. -/
def value? (env : Env) : Expr → Option Word
  | const c => some (Word.ofInt c)
  | param number => (number.value? env).map fun w => env.params.read w.lowByte
  | string name _ => some (env.text name)
  | record name _ => some (env.call name)
  | binary op left right => (left.value? env).bind fun l => (right.value? env).bind fun r => op.tableValue? l r
  | not operand => (operand.value? env).map fun w => Word.ofBool (w == 0)
  | var ⟨num, none, shift, mask, add, div, mod⟩ => VarRead.read? env ⟨num, none, shift, mask, add, div, mod⟩ none
  | var ⟨num, some arg, shift, mask, add, div, mod⟩ =>
    (arg.value? env).bind fun w => VarRead.read? env ⟨num, some arg, shift, mask, add, div, mod⟩ (some w)
  | store _ | load _ => none
termination_by structural e => e

@[elab_as_elim]
theorem byParts {motive : Expr → Prop} (const : ∀ c, motive (const c))
    (param : ∀ number, motive number → motive (param number))
    (string : ∀ name id, motive (string name id))
    (record : ∀ name id, motive (record name id))
    (binary : ∀ op left right, motive left → motive right → motive (binary op left right))
    (not : ∀ operand, motive operand → motive (not operand))
    (bare : ∀ num shift mask add div mod, motive (var ⟨num, none, shift, mask, add, div, mod⟩))
    (var : ∀ num arg shift mask add div mod, motive arg → motive (var ⟨num, some arg, shift, mask, add, div, mod⟩))
    (store : ∀ slot, motive (store slot))
    (load : ∀ slot, motive (load slot)) : ∀ e, motive e
  | .const c => const c
  | .param number => param number (byParts const param string record binary not bare var store load number)
  | .string name id => string name id
  | .record name id => record name id
  | .binary op left right =>
    binary op left right (byParts const param string record binary not bare var store load left)
      (byParts const param string record binary not bare var store load right)
  | .not operand => not operand (byParts const param string record binary not bare var store load operand)
  | .var ⟨num, none, shift, mask, add, div, mod⟩ => bare num shift mask add div mod
  | .var ⟨num, some arg, shift, mask, add, div, mod⟩ =>
    var num arg shift mask add div mod
      (byParts const param string record binary not bare var store load arg)
  | .store slot => store slot
  | .load slot => load slot
termination_by structural e => e

end Expr

end Grf
