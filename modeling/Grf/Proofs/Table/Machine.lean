import Grf.Lowering.Stream
import Grf.Proofs.Lowering.Assignment

/-! # How a decision table computes

`Table.run?` takes the operators of a stream with their operands one after the other: it combines the value so far with
the operand, or stores it in a scratch slot.

A variable with a parameter that has to be computed is more than one element: its parameter is one, and the read is
another one that takes the value so far as its parameter. As the right operand of an operator such a read takes the
result of the operator for its parameter. `Expr.asRead` is the expression that a table computes in this way, and
`Expr.Direct` says that no such read stands to the right of an operator, where both are the same.
-/

namespace Grf

/-! ## Streams -/

/-- What a table knows between two elements of its stream: the value so far, and the scratch slots. -/
structure TableState where
  value : Word
  slots : Slot → Word

namespace Table

/-- A read with the value so far as its parameter. It names the variable in its own parameter. -/
def indirectRead? (env : Env) (acc : Word) (v : VarRead Expr) : Option Word :=
  match v.param with
  | some (.const num) => (env.raw? num (some acc)).bind (v.adjust? env)
  | _ => none

/-- The read of the same variable with the value so far as its parameter. -/
def indirect (v : VarRead Expr) : VarRead Expr :=
  { v with num := VarRead.computedParamNum, param := some (.const v.num) }

/-- A read with a parameter that is written with it. A reference to a table is a call of it. -/
def directRead? (env : Env) (v : VarRead Expr) : Option Word :=
  match v.param with
  | none => v.read? env none
  | some (.record name _) => v.adjust? env (env.call name)
  | some arg => (env.field? arg).bind fun w => v.read? env (some w)

def operand? (env : Env) (st : TableState) : Expr → Option Word
  | .load slot => some (st.slots slot)
  | .var v =>
    if v.num = VarRead.computedParamNum then indirectRead? env st.value v else directRead? env v
  | _ => none

def step? (env : Env) (op : Operator) (operand : Expr) (st : TableState) : Option TableState :=
  match op, operand with
  | .stoTmp, .store slot => some { st with slots := Function.update st.slots slot st.value }
  | op, operand =>
    (operand? env st operand).bind fun x => (op.tableValue? st.value x).map fun value => { st with value }

def run? (env : Env) : List StreamItem → TableState → Option TableState
  | [], st => some st
  | .op op :: .operand operand :: rest, st => (step? env op operand st).bind (run? env rest)
  | _, _ => none

/-- The value of a stream. The first operand has no operator, it is taken as the value. -/
def value? (env : Env) (items : List StreamItem) : Option Word :=
  (run? env (.op .val2 :: items) ⟨0, fun _ => 0⟩).map (·.value)

/-- Operators that have an operand each. -/
inductive Paired : List StreamItem → Prop
  | nil : Paired []
  | cons (op : Operator) (operand : Expr) {rest : List StreamItem} (h : Paired rest) :
      Paired (.op op :: .operand operand :: rest)

theorem Paired.append {xs ys : List StreamItem} (hx : Paired xs) (hy : Paired ys) : Paired (xs ++ ys) := by
  induction hx with
  | nil => exact hy
  | cons op operand _ ih => exact .cons op operand ih

theorem run?_append {env : Env} {xs : List StreamItem} (h : Paired xs) (ys : List StreamItem)
    (st : TableState) : run? env (xs ++ ys) st = (run? env xs st).bind (run? env ys) := by
  induction h generalizing st with
  | nil => rfl
  | cons op operand _ ih =>
    simp only [List.cons_append, run?]
    cases step? env op operand st with
    | none => rfl
    | some st' => exact ih st'

theorem run?_var (env : Env) (op : Operator) (v : VarRead Expr) (st : TableState) :
    run? env [.op op, .operand (.var v)] st = (operand? env st (.var v)).bind fun x =>
        (op.tableValue? st.value x).map fun value => { st with value } := by
  have hstep : step? env op (.var v) st = (operand? env st (.var v)).bind fun x =>
      (op.tableValue? st.value x).map fun value => { st with value } := by
    cases op <;> rfl
  show (step? env op (.var v) st).bind some = _
  rw [hstep, Option.bind_fun_some]

theorem run?_load (env : Env) (op : Operator) (slot : Slot) (st : TableState) :
    run? env [.op op, .operand (.load slot)] st =
      (op.tableValue? st.value (st.slots slot)).map fun value => { st with value } := by
  have hstep : step? env op (.load slot) st =
      (op.tableValue? st.value (st.slots slot)).map fun value => { st with value } := by
    cases op <;> rfl
  show (step? env op (.load slot) st).bind some = _
  rw [hstep, Option.bind_fun_some]

end Table

namespace Expr

/-- Whether an expression can be written as the parameter of a variable. -/
def isImmediate : Expr → Bool
  | const _ | param (const _) => true
  | _ => false

/-- What `left <op> e` is as the end of a stream: an operation, or a read whose parameter ends so. -/
def readAfter : Expr → Operator → Expr → Expr
  | var ⟨num, some arg, shift, mask, add, div, mod⟩, op, left =>
    if arg.isImmediate then binary op left (var ⟨num, some arg, shift, mask, add, div, mod⟩)
    else var ⟨num, some (arg.readAfter op left), shift, mask, add, div, mod⟩
  | e, op, left => binary op left e
termination_by structural e => e

def asRead : Expr → Expr
  | binary op left right =>
    if right.isSimple then right.readAfter op left.asRead else binary op left.asRead right.asRead
  | var ⟨num, some arg, shift, mask, add, div, mod⟩ =>
    if arg.isImmediate then var ⟨num, some arg, shift, mask, add, div, mod⟩
    else var ⟨num, some arg.asRead, shift, mask, add, div, mod⟩
  | e => e
termination_by structural e => e

example : (binary .add (var { num := 0x40 }) (var { num := 0x60, param := some (var { num := 0x41 }) })).asRead
    = var { num := 0x60, param := some (binary .add (var { num := 0x40 }) (var { num := 0x41 })) } := rfl

/-- Whether the stream of a simple expression is more than one element. -/
def expands : Expr → Bool
  | var ⟨_, some arg, _, _, _, _, _⟩ => !arg.isImmediate
  | _ => false

/-- No right operand is a simple expression with a stream of more than one element. -/
def Direct : Expr → Prop
  | binary _ left right => left.Direct ∧ right.Direct ∧ (right.isSimple = true → right.expands = false)
  | var ⟨_, some arg, _, _, _, _, _⟩ => arg.Direct
  | _ => True
termination_by structural e => e

theorem readAfter_of_not_expands {e : Expr} (h : e.expands = false) (op : Operator) (left : Expr) :
    e.readAfter op left = binary op left e := by
  induction e using byParts with
  | const | param | string | record | binary | not | bare | store | load => rfl
  | var num arg shift mask add div mod =>
    have himm : arg.isImmediate = true := by simpa [expands] using h
    simp only [readAfter, if_pos himm]

theorem asRead_of_direct {e : Expr} (h : e.Direct) : e.asRead = e := by
  induction e using byParts with
  | const | param | string | record | not | bare | store | load => rfl
  | binary op left right ihl ihr =>
    obtain ⟨hl, hr, hright⟩ := h
    simp only [asRead]
    by_cases hs : right.isSimple = true
    · rw [if_pos hs, readAfter_of_not_expands (hright hs), ihl hl]
    · rw [if_neg hs, ihl hl, ihr hr]
  | var num arg shift mask add div mod ih =>
    simp only [asRead, ih h, ite_self]

variable {env : Env}

/-- The value of `left <op> e` at the end of a stream, where `left` has the value `acc`. -/
def afterValue? (env : Env) (op : Operator) (acc : Word) : Expr → Option Word
  | var ⟨num, some arg, shift, mask, add, div, mod⟩ =>
    if arg.isImmediate then
      ((var ⟨num, some arg, shift, mask, add, div, mod⟩).value? env).bind (op.tableValue? acc)
    else
      (arg.afterValue? env op acc).bind fun w => VarRead.read? env ⟨num, some arg, shift, mask, add, div, mod⟩ (some w)
  | e => (e.value? env).bind (op.tableValue? acc)
termination_by structural e => e

theorem value?_readAfter (op : Operator) (left e : Expr) :
    (e.readAfter op left).value? env = (left.value? env).bind fun acc => e.afterValue? env op acc := by
  induction e using byParts with
  | const | param | string | record | binary | not | bare | store | load => rfl
  | var num arg shift mask add div mod ih =>
    by_cases himm : arg.isImmediate = true
    · simp only [readAfter, afterValue?, if_pos himm]
      rfl
    · simp only [readAfter, afterValue?, if_neg himm]
      rw [value?_var]
      simp only [argValue?, ih]
      cases left.value? env with
      | none => rfl
      | some acc =>
        show ((arg.afterValue? env op acc).map some).bind _ = (arg.afterValue? env op acc).bind _
        cases arg.afterValue? env op acc <;> rfl

theorem afterValue?_val2 {e : Expr} (h : e.isSimple = true) (acc : Word) :
    e.afterValue? env .val2 acc = e.value? env := by
  have hval2 : ∀ v : Option Word, v.bind (Operator.val2.tableValue? acc) = v := by
    intro v
    cases v <;> rfl
  induction e using byParts with
  | const | param | string | record | binary | not | bare | store | load => exact hval2 _
  | var num arg shift mask add div mod ih =>
    by_cases himm : arg.isImmediate = true
    · simp only [afterValue?, if_pos himm]
      exact hval2 _
    · simp only [afterValue?, if_neg himm, value?]
      rw [ih h]

theorem asRead_of_isSimple {e : Expr} (h : e.isSimple = true) : e.asRead = e := by
  induction e using byParts with
  | const | param | string | record | not | bare | store | load => rfl
  | binary => cases h
  | var num arg shift mask add div mod ih => simp only [asRead, ih h, ite_self]

end Expr

end Grf
