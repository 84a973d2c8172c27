import Grf.Proofs.Expr.Simplify

/-! # Expressions in table form

An expression of a declaration holds no parts that only a compiled table may hold (`Expr.Source`). The form that is
compiled keeps this, and the numbers of its parameters are folded (`Expr.TableForm`, `Expr.tableForm_forTable`).
-/

namespace Grf.Expr

open Option

/-! ## Expressions of declarations -/

/-- An expression as declarations have it: it holds no scratch slots, and no read of the variable that
reads another one. -/
def Source : Expr → Prop
  | binary _ left right => left.Source ∧ right.Source
  | not operand => operand.Source
  | var ⟨num, none, _, _, _, _, _⟩ => num ≠ VarRead.computedParamNum
  | var ⟨num, some arg, _, _, _, _, _⟩ => num ≠ VarRead.computedParamNum ∧ arg.Source
  | store _ | load _ => False
  | _ => True
termination_by structural e => e

/-- An expression as tables have it: the one of a declaration, with the numbers of parameters folded. -/
def TableForm : Expr → Prop
  | param number => number.fold = number
  | binary _ left right => left.TableForm ∧ right.TableForm
  | not operand => operand.TableForm
  | var ⟨num, none, _, _, _, _, _⟩ => num ≠ VarRead.computedParamNum
  | var ⟨num, some arg, _, _, _, _, _⟩ => num ≠ VarRead.computedParamNum ∧ arg.TableForm
  | store _ | load _ => False
  | _ => True
termination_by structural e => e

variable {v v' : VarRead Expr} {width : Int} {e : Expr}

theorem tableForm_var (hnum : v'.num = v.num) (harg : v'.param = v.param)
    (h : (var v).TableForm) : (var v').TableForm := by
  obtain ⟨num, arg, shift, mask, add, div, mod⟩ := v
  obtain ⟨num', arg', shift', mask', add', div', mod'⟩ := v'
  obtain rfl : num' = num := hnum
  obtain rfl : arg' = arg := harg
  cases arg' <;> exact h

/-- The read `v'` is `v` after an operation with `operand` has been folded into it. Its number and parameter are the
same. Its fields are those it had, constants, and a parameter that is added, and only a right shift by a constant
changes its shift. -/
structure FoldedInto (v : VarRead Expr) (operand : Expr) (v' : VarRead Expr) : Prop where
  num : v'.num = v.num
  param : v'.param = v.param
  fields : ∀ field ∈ [v'.mask, v'.add, v'.div, v'.mod],
    field ∈ [v.mask, v.add, v.div, v.mod] ∨ (∃ k, field = some (.const k)) ∨
      (field = some operand ∧ operand.paramNumber?.isSome)
  shift : v'.shift = v.shift ∨ ∃ k, operand = .const k ∧ 0 ≤ k ∧ v'.shift ≤ VarRead.maxShift ∧
    v'.shift = wrap64 (v.shift + k)

theorem foldedInto {op : Operator} {operand : Expr}
    (h : v.foldInto? op operand width = some v') : FoldedInto v operand v' := by
  have ofAdd : ∀ {c : Int}, v.foldAdd? c = some v' → FoldedInto v operand v' := by
    intro c h
    simp only [VarRead.foldAdd?, bind_eq_bind, bind_eq_some_iff] at h
    obtain ⟨-, -, h⟩ := h
    split at h <;> cases h <;> exact ⟨rfl, rfl, by simp, .inl rfl⟩
  have ofDivision : ∀ {modulo : Bool} {c : Int}, v.foldDivision? modulo c = some v' → FoldedInto v operand v' := by
    intro modulo c h
    simp only [VarRead.foldDivision?, bind_eq_bind, bind_eq_some_iff] at h
    obtain ⟨-, -, h⟩ := h
    cases modulo <;> cases h <;> exact ⟨rfl, rfl, by simp, .inl rfl⟩
  unfold VarRead.foldInto? at h
  split at h
  case h_1 =>
    simp only [VarRead.foldAnd?, bind_eq_bind, bind_eq_some_iff] at h
    obtain ⟨-, -, m, -, ⟨⟩⟩ := h
    exact ⟨rfl, rfl, by simp, .inl rfl⟩
  case h_2 | h_3 => exact ofAdd h
  case h_4 =>
    simp only [VarRead.foldAddParam?, bind_eq_bind, bind_eq_some_iff] at h
    obtain ⟨_, hguard, ⟨⟩⟩ := h
    have hparam : operand.paramNumber?.isSome := by
      simp_all
    exact ⟨rfl, rfl, by simp [hparam], .inl rfl⟩
  case h_5 | h_6 => exact ofDivision h
  case h_7 k hconst =>
    obtain ⟨hk, -, hmax, m, -, rfl⟩ := Evaluation.foldShift?_eq_some h
    exact ⟨rfl, rfl, by simp, .inr ⟨k, constant?_eq_some.mp hconst, hk, hmax, rfl⟩⟩
  case h_8 => cases h

/-- A property of expressions that operations of decision tables keep: words have it, it is one of the parts
of an operation, and a variable keeps it when an operation is folded into its fields. -/
structure FoldsInto (width : Int) (P : Expr → Prop) : Prop where
  const : ∀ w : Word, P (const w.toInt)
  binary : ∀ op l r, P (binary op l r) ↔ P l ∧ P r
  var : ∀ {v v' : VarRead Expr} {op : Operator} {operand : Expr},
    v.foldInto? op operand width = some v' → P (var v) → P operand → P (var v')

namespace FoldsInto

variable {P : Expr → Prop} {width : Int} {op : Operator} {l r : Expr}

theorem constantRight (op : Operator) (hl : P l) (hr : P r) :
    P (constantRight op l r).1 ∧ P (constantRight op l r).2 := by
  grind [Expr.constantRight]

theorem computed (hP : FoldsInto width P) {k : Int} (h : foldBinary op l r = .const k) : P (.const k) := by
  grind [foldBinary_cases, hP.const]

theorem tableOp (hP : FoldsInto width P) (hl : P l) (hr : P r) : P (tableOp width op l r) := by
  unfold Expr.tableOp
  split
  · exact hP.computed ‹_›
  · have hsides := constantRight op hl hr
    generalize Expr.constantRight op l r = sides at hsides
    obtain ⟨l, r⟩ := sides
    cases l with
    | var v =>
      cases hv : v.foldInto? op r width with
      | none => grind [hP.binary]
      | some v' => grind [hP.var]
    | _ => exact (hP.binary _ _ _).mpr hsides

theorem simplifyBinary (hP : FoldsInto width P) (hl : P l) (hr : P r) : P (simplifyBinary width op l r) := by
  unfold Expr.simplifyBinary
  split
  · exact hP.computed ‹_›
  · have hsides := constantRight op hl hr
    generalize Expr.constantRight op l r = sides at hsides
    obtain ⟨l, r⟩ := sides
    have hcmp : P (.binary .cmp l r) := (hP.binary _ _ _).mpr hsides
    have hone : P (.const 1) := hP.const 1
    unfold tableTest
    cases op
    case ne | lt | le => exact hP.tableOp (hP.tableOp hcmp hone) hone
    case eq | gt | ge => exact hP.tableOp hcmp hone
    case hasBit => exact hP.tableOp (hP.tableOp hsides.1 hsides.2) hone
    case notHasBit => exact hP.tableOp (hP.tableOp (hP.tableOp hsides.1 hsides.2) hone) hone
    all_goals exact hP.tableOp hsides.1 hsides.2

end FoldsInto

/-- A property of expressions that simplification keeps: it is one of the parts of an operation, and of the
number and the parameter of a variable. -/
structure Simplifiable (P : Expr → Prop) : Prop where
  const : ∀ k, P (const k)
  binary : ∀ op l r, P (binary op l r) ↔ P l ∧ P r
  var : ∀ {v v' : VarRead Expr}, v'.num = v.num → v'.param = v.param → P (var v) → P (var v')

namespace Simplifiable

variable {P : Expr → Prop} {width : Int} {op : Operator} {l r : Expr}

theorem foldsInto (hP : Simplifiable P) (width : Int) : FoldsInto width P where
  const _ := hP.const _
  binary := hP.binary
  var h hv _ := hP.var (foldedInto h).num (foldedInto h).param hv

theorem simplifyBinary (hP : Simplifiable P) (hl : P l) (hr : P r) : P (simplifyBinary width op l r) :=
  (hP.foldsInto width).simplifyBinary hl hr

end Simplifiable

theorem tableForm_simplifiable : Simplifiable TableForm where
  const _ := trivial
  binary _ _ _ := Iff.rfl
  var := tableForm_var

theorem source_fold (h : e.Source) : e.fold.Source := by
  induction e using byParts with
  | const | param | string | record => trivial
  | binary op left right ihl ihr => exact fold_binary_of ⟨ihl h.1, ihr h.2⟩ fun _ => trivial
  | not operand ih => exact fold_not_of (ih h) fun _ => trivial
  | bare => exact h
  | var num arg shift mask add div mod ih => exact ⟨h.1, ih h.2⟩
  | store | load => exact h.elim

theorem tableForm_simplify (h : e.Source) : (e.simplify width).TableForm := by
  induction e using byParts with
  | const | string | record => trivial
  | param number => exact fold_fold number
  | binary op left right ihl ihr => exact tableForm_simplifiable.simplifyBinary (ihl h.1) (ihr h.2)
  | not operand ih => exact tableForm_simplifiable.simplifyBinary (ih h) trivial
  | bare => exact h
  | var num arg shift mask add div mod ih => exact ⟨h.1, ih h.2⟩
  | store | load => exact h.elim

theorem tableForm_forTable (h : e.Source) : (e.forTable width).TableForm := tableForm_simplify (source_fold h)

def fieldReads : Option Expr → List Int
  | some (param (const n)) => [(Word.ofInt n).lowByte]
  | _ => []

def fixedReads : Expr → List Int
  | param (const n) => [(Word.ofInt n).lowByte]
  | binary _ left right => left.fixedReads ++ right.fixedReads
  | not operand => operand.fixedReads
  | var ⟨_, none, _, mask, add, div, mod⟩ => fieldReads mask ++ fieldReads add ++ fieldReads div ++ fieldReads mod
  | var ⟨_, some arg, _, mask, add, div, mod⟩ =>
    arg.fixedReads ++ (fieldReads mask ++ fieldReads add ++ fieldReads div ++ fieldReads mod)
  | _ => []
termination_by structural e => e

def computedReads : Expr → List Expr
  | param (const _) => []
  | param number => [number]
  | binary _ left right => left.computedReads ++ right.computedReads
  | not operand => operand.computedReads
  | var ⟨_, some arg, _, _, _, _, _⟩ => arg.computedReads
  | _ => []
termination_by structural e => e

end Grf.Expr
