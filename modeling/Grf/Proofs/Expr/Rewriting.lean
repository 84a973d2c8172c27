import Grf.Proofs.Expr.Simplify

/-! # Operations are rewritten without a change of value

Whatever the references of the operands mean, `Expr.simplifyBinary` keeps the value of an operation
(`Expr.valueUnder?_simplifyBinary`). A right shift by a constant near `2 ^ 63` makes the sum of two shifts wrap around.
The read that results has a negative shift and the mask zero, so a `Valuation` may give such a shift any meaning.
-/

namespace Grf

open Evaluation BitVec

/-- Values for all that an expression refers to. Shifts that can be written mean what they should. -/
structure Valuation where
  engineVar : Int → Option Word → Word
  param : Word → Word
  call : String → Word
  text : String → Word
  slot : Slot → Word
  shiftRight : Word → Int → Word
  shiftRight_eq : ∀ w k, 0 ≤ k → k ≤ VarRead.maxShift → shiftRight w k = w >>> k.toNat

/-- The value of an expression. There is none if something is divided by zero. -/
def Expr.valueUnder? (m : Valuation) : Expr → Option Word
  | const c => some (Word.ofInt c)
  | param number => (number.valueUnder? m).map m.param
  | string name _ => some (m.text name)
  | record name _ => some (m.call name)
  | binary op left right => (left.valueUnder? m).bind fun l => (right.valueUnder? m).bind fun r => op.tableValue? l r
  | not operand => (operand.valueUnder? m).map fun w => Word.ofBool (w == 0)
  | store s | load s => some (m.slot s)
  | var ⟨num, arg, shift, mask, add, div, mod⟩ => do
    let arg ← match arg with | none => some none | some e => (e.valueUnder? m).map some
    let mask ← match mask with | none => some (BitVec.allOnes 32) | some e => e.valueUnder? m
    let add ← match add with | none => some 0 | some e => e.valueUnder? m
    let value := (m.shiftRight (m.engineVar num arg) shift &&& mask) + add
    match div, mod with
    | none, none => some value
    | some d, none => (d.valueUnder? m).bind (Operator.divU.compute? value)
    | none, some e => (e.valueUnder? m).bind (Operator.modU.compute? value)
    | some _, some _ => none
termination_by structural e => e

namespace Valuation

variable {m : Valuation} {l r : Expr}

def evaluation (m : Valuation) : Evaluation where
  value := Expr.valueUnder? m
  field := Expr.valueUnder? m
  raw num arg := (arg.elim (some none) fun e => (e.valueUnder? m).map some).map (m.engineVar num)
  shifted w k := some (m.shiftRight w k)
  value_const _ := rfl
  value_binary _ _ _ := rfl
  value_var v := by
    obtain ⟨num, arg, shift, mask, add, div, mod⟩ := v
    have hraw : ∀ (x : Option (Option Word)) (f : Word → Option Word),
        (x.map (m.engineVar num)).bind f = x.bind fun a => f (m.engineVar num a) := by
      intro x f
      cases x <;> rfl
    rw [hraw]
    cases arg <;> cases mask <;> cases add <;> cases div <;> cases mod <;> rfl
  field_const _ := rfl
  field_paramAt _ := rfl
  shifted_eq w k h0 h1 := congrArg some (m.shiftRight_eq w k h0 h1)

theorem folded_of_wrapped {v v' : VarRead Expr} {c : Int} (h : v.foldShift? c 4 = some v') (hv : v.ShiftFits)
    (hc : c < 0x8000000000000000) (hwrap : 0x8000000000000000 ≤ v.shift + c) :
    m.evaluation.Folded v v' fun x => some (x >>> ((Word.ofInt c).toNat % 32)) := by
  obtain ⟨-, hpost, -, mask, hm, rfl⟩ := foldShift?_eq_some h
  obtain ⟨h0, h31⟩ := hv
  have hmax : v.shift ≤ 31 := h31
  have hcount : 32 ≤ v.shift.toNat + (Word.ofInt c).toNat % 32 := by
    unfold Word.ofInt
    rw [toNat_ofInt]
    omega
  have hzero : Word.ofInt mask >>> (min c 32).toNat = 0#32 := ushiftRight_eq_zero (by omega)
  refine ⟨rfl, rfl, fun raw => ?_⟩
  refine (adjust_of_constant hpost raw).trans ?_
  rw [show m.evaluation.adjust v raw = _ from adjust_of_mask hpost (mask_of_constantMask? hm) raw,
    m.evaluation.shifted_eq raw _ h0 h31, hzero]
  show some (_ &&& Word.ofInt ((0#32).toNat : Int)) = some ((raw >>> v.shift.toNat &&& Word.ofInt mask) >>> _)
  rw [Word.ofInt_toNat, and_zero, ushiftRight_and_distrib, ← shiftRight_add, ushiftRight_eq_zero hcount, zero_and]

theorem keepsShift (hl : ∀ v, l = .var v → v.ShiftFits) (hr : ∀ c, r = .const c → c < 0x8000000000000000) :
    m.evaluation.KeepsShift l r := by
  intro v v' c hv hc hfold
  by_cases hsum : v.shift + c < 0x8000000000000000
  · exact foldShift?_folded hfold (hl v hv).1 hsum
  · exact folded_of_wrapped hfold (hl v hv) (hr c hc) (by omega)

end Valuation

/-- **An operation on two operands keeps its value when it is rewritten**, whatever its operands refer to. The shift
of a read on the left has to be one that can be written, and a constant on the right a number of 64 bits. -/
theorem Expr.valueUnder?_simplifyBinary (m : Valuation) (op : Operator) {l r : Expr}
    (hl : ∀ v, l = .var v → v.ShiftFits) (hr : ∀ c, r = .const c → c < 0x8000000000000000) :
    (simplifyBinary 4 op l r).valueUnder? m =
      (l.valueUnder? m).bind fun a => (r.valueUnder? m).bind fun b => op.tableValue? a b :=
  m.evaluation.value_simplifyBinary fun _ => m.keepsShift hl hr

/-- The shift of the read becomes negative, and its value is still that of the operation. -/
theorem Expr.valueUnder?_simplifyBinary_wrapped :
    let v : VarRead Expr := { num := 0x40, shift := 1 }
    let m : Valuation := ⟨fun _ _ => 0xFFFFFFFF, id, fun _ => 0, fun _ => 0, fun _ => 0, fun w k => w >>> k.toNat,
      fun _ _ _ _ => rfl⟩
    v.ShiftFits ∧ simplifyBinary 4 .shrU (.var v) (.const 0x7FFFFFFFFFFFFFFF) =
        .var { v with shift := -0x8000000000000000, mask := some (.const 0) } ∧
      (simplifyBinary 4 .shrU (.var v) (.const 0x7FFFFFFFFFFFFFFF)).valueUnder? m = some 0 := by
  intro v m
  have hfits : v.ShiftFits := by decide
  refine ⟨hfits, rfl, ?_⟩
  rw [valueUnder?_simplifyBinary m .shrU (fun _ h => Expr.var.inj h ▸ hfits) fun _ h => by cases h; decide]
  decide +kernel

end Grf
