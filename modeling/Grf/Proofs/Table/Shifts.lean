import Grf.Proofs.Table.Form

/-! # Shifts of decision tables

A right shift by a constant may become a part of the shift of a variable. What is brought into table form
holds a property of all its parts if the expression does (`Expr.Pervades.forTable`). So an expression whose
shifts can be written keeps such shifts, as long as no constant is so large that a sum with it wraps around
(`Expr.declared_forTable`).
-/

namespace Grf.Expr

open List

abbrev Everywhere (Q : Expr → Prop) (e : Expr) : Prop := ∀ a ∈ e.walk, Q a

section Walk

variable {Q : Expr → Prop}

theorem self_mem_walk (e : Expr) : e ∈ e.walk := by
  cases e with
  | var v =>
    obtain ⟨num, arg, shift, mask, add, div, mod⟩ := v
    cases arg <;> exact mem_cons_self
  | _ => exact mem_cons_self

theorem everywhere_param {number : Expr} : (param number).Everywhere Q ↔ Q (param number) ∧ number.Everywhere Q :=
  forall_mem_cons

theorem everywhere_binary {op : Operator} {l r : Expr} :
    (binary op l r).Everywhere Q ↔ Q (binary op l r) ∧ l.Everywhere Q ∧ r.Everywhere Q := by
  show (∀ a ∈ binary op l r :: (l.walk ++ r.walk), Q a) ↔ _
  rw [forall_mem_cons, forall_mem_append]

theorem everywhere_not {operand : Expr} : (not operand).Everywhere Q ↔ Q (not operand) ∧ operand.Everywhere Q :=
  forall_mem_cons

theorem everywhere_var {v : VarRead Expr} : (var v).Everywhere Q ↔ Q (var v) ∧ ∀ arg ∈ v.param, arg.Everywhere Q := by
  obtain ⟨num, arg, shift, mask, add, div, mod⟩ := v
  cases arg with
  | none =>
    show (∀ a ∈ [var ⟨num, none, shift, mask, add, div, mod⟩], Q a) ↔ _
    simp
  | some arg =>
    show (∀ a ∈ var ⟨num, some arg, shift, mask, add, div, mod⟩ :: arg.walk, Q a) ↔ _
    simp

theorem everywhere_const {k : Int} : (const k).Everywhere Q ↔ Q (const k) := forall_mem_singleton

end Walk

/-- A property that all parts of an expression keep when it is brought into table form. -/
structure Pervades (width : Int) (Q : Expr → Prop) : Prop where
  const : ∀ w : Word, Q (const w.toInt)
  binary : ∀ op l r, Q (binary op l r)
  param : ∀ number, Q (param number)
  not : ∀ operand, Q (not operand)
  arg : ∀ {num arg arg' shift mask add div mod}, Q (var ⟨num, some arg, shift, mask, add, div, mod⟩) →
    Q (var ⟨num, some arg', shift, mask, add, div, mod⟩)
  folded : ∀ {v v' : VarRead Expr} {op : Operator} {operand : Expr},
    v.foldInto? op operand width = some v' → Q (var v) → Q operand → Q (var v')

namespace Pervades

variable {width : Int} {Q : Expr → Prop} {e : Expr}
variable (hQ : Pervades width Q)
include hQ

theorem foldsInto : FoldsInto width (Everywhere Q) where
  const w := everywhere_const.mpr (hQ.const w)
  binary op l r := everywhere_binary.trans (and_iff_right (hQ.binary op l r))
  var {v v' op operand} h hv hoperand := by
    rw [everywhere_var] at hv ⊢
    refine ⟨hQ.folded h hv.1 (hoperand operand operand.self_mem_walk), ?_⟩
    rw [(foldedInto h).param]
    exact hv.2

theorem fold (h : e.Everywhere Q) : e.fold.Everywhere Q := by
  induction e using byParts with
  | const | string | record | bare | store | load => exact h
  | param number ih => exact everywhere_param.mpr ⟨hQ.param _, ih (everywhere_param.mp h).2⟩
  | binary op left right ihl ihr =>
    obtain ⟨-, hleft, hright⟩ := everywhere_binary.mp h
    exact fold_binary_of (everywhere_binary.mpr ⟨hQ.binary _ _ _, ihl hleft, ihr hright⟩) fun w =>
      everywhere_const.mpr (hQ.const w)
  | not operand ih =>
    obtain ⟨-, hoperand⟩ := everywhere_not.mp h
    simp only [Expr.fold, foldNot]
    split
    · refine everywhere_const.mpr ?_
      split
      · exact hQ.const 1
      · exact hQ.const 0
    · exact everywhere_not.mpr ⟨hQ.not _, ih hoperand⟩
  | var num arg shift mask add div mod ih =>
    obtain ⟨hvar, harg⟩ := everywhere_var.mp h
    exact everywhere_var.mpr ⟨hQ.arg hvar, by simpa using ih (by simpa using harg)⟩

theorem simplify (h : e.Everywhere Q) : (e.simplify width).Everywhere Q := by
  induction e using byParts with
  | const | string | record | bare | store | load => exact h
  | param number => exact everywhere_param.mpr ⟨hQ.param _, hQ.fold (everywhere_param.mp h).2⟩
  | binary op left right ihl ihr =>
    obtain ⟨-, hleft, hright⟩ := everywhere_binary.mp h
    exact hQ.foldsInto.simplifyBinary (ihl hleft) (ihr hright)
  | not operand ih => exact hQ.foldsInto.simplifyBinary (ih (everywhere_not.mp h).2) (everywhere_const.mpr (hQ.const 0))
  | var num arg shift mask add div mod ih =>
    obtain ⟨hvar, harg⟩ := everywhere_var.mp h
    exact everywhere_var.mpr ⟨hQ.arg hvar, by simpa using ih (by simpa using harg)⟩

/-- **The parts of an expression in table form** have the properties that its parts had before. -/
theorem forTable (h : e.Everywhere Q) : (e.forTable width).Everywhere Q := hQ.simplify (hQ.fold h)

end Pervades

/-- A part of an expression as declarations have it: it is no scratch slot. If `fits` is true, shifts can be
written, and no sum of a constant and a shift is out of range. -/
def Declared (fits : Prop) : Expr → Prop
  | const k => fits → k + VarRead.maxShift < 0x8000000000000000
  | var v => fits → v.ShiftFits
  | store _ | load _ => False
  | _ => True

theorem shiftFits_foldInto? {v v' : VarRead Expr} {op : Operator} {operand : Expr} {width : Int}
    (h : v.foldInto? op operand width = some v') (hv : v.ShiftFits)
    (hoperand : ∀ k, operand = .const k → k + VarRead.maxShift < 0x8000000000000000) : v'.ShiftFits := by
  rcases (foldedInto h).shift with hshift | ⟨k, hk, hpos, hmax, hshift⟩
  · unfold VarRead.ShiftFits
    rw [hshift]
    exact hv
  · have hsum := hoperand k hk
    obtain ⟨hlow, hhigh⟩ := hv
    have hwrap : wrap64 (v.shift + k) = v.shift + k := by
      refine Int.bmod_eq_of_le ?_ ?_ <;> omega
    exact ⟨by omega, hmax⟩

theorem declared_pervades (fits : Prop) (width : Int) : Pervades width (Declared fits) where
  const w _ := by
    have := BitVec.toInt_lt (x := w)
    show w.toInt + 31 < 0x8000000000000000
    omega
  binary _ _ _ := trivial
  param _ := trivial
  not _ := trivial
  arg h := h
  folded h hv hoperand hfits := shiftFits_foldInto? h (hv hfits) fun k hk => by
    subst hk
    exact hoperand hfits

theorem declared_forTable {fits : Prop} {e : Expr} {width : Int} (h : e.Everywhere (Declared fits)) :
    (e.forTable width).Everywhere (Declared fits) :=
  (declared_pervades fits width).forTable h

end Grf.Expr
