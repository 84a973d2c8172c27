import Grf.Declaration.Basic
import Grf.Proofs.Lowering.Frames
import Grf.Proofs.Table.Form

/-! # Declarations that name no temporary parameters

A parameter of a declaration may have a constant number. An expression is clear if no such number is
that of a temporary parameter, and a declaration is if all its expressions are. Both forms of an
expression that are lowered keep this: the folded one (`Expr.clear_fold`), and the one for decision
tables (`Expr.clear_forTable`).
-/

namespace Grf

namespace Expr

variable {e : Expr} {v : VarRead Expr} {width : Int}

def FieldClear : Option Expr → Prop
  | some (param (const n)) => ¬IsTemporary n
  | _ => True

/-- Whether no parameter of an expression has the number of a temporary one. A number counts if it is a
constant once it is folded. -/
def Clear : Expr → Prop
  | param number => (∀ n, number.fold = const n → ¬IsTemporary n) ∧ number.Clear
  | binary _ left right => left.Clear ∧ right.Clear
  | not operand => operand.Clear
  | var ⟨_, none, _, mask, add, div, mod⟩ => ∀ field ∈ [mask, add, div, mod], FieldClear field
  | var ⟨_, some arg, _, mask, add, div, mod⟩ => arg.Clear ∧ ∀ field ∈ [mask, add, div, mod], FieldClear field
  | _ => True
termination_by structural e => e

theorem Clear.paramAt {n : Int} (h : (Expr.paramAt n).Clear) : ¬IsTemporary n := h.1 n rfl

theorem Clear.field (h : e.Clear) : FieldClear (some e) := by
  unfold FieldClear
  split
  · rename_i heq
    obtain rfl := Option.some.inj heq
    exact h.paramAt
  · trivial

theorem Clear.fields (h : (var v).Clear) : ∀ field ∈ [v.mask, v.add, v.div, v.mod], FieldClear field := by
  obtain ⟨num, arg, shift, mask, add, div, mod⟩ := v
  cases arg with
  | none => exact h
  | some arg => exact h.2

theorem Clear.arg (h : (var v).Clear) : ∀ e ∈ v.param, e.Clear := by
  obtain ⟨num, arg, shift, mask, add, div, mod⟩ := v
  cases arg with
  | none => simp
  | some arg => simpa using h.1

theorem clear_var (harg : ∀ e ∈ v.param, e.Clear)
    (hfields : ∀ field ∈ [v.mask, v.add, v.div, v.mod], FieldClear field) : (var v).Clear := by
  obtain ⟨num, arg, shift, mask, add, div, mod⟩ := v
  cases arg with
  | none => exact hfields
  | some arg => exact ⟨harg arg rfl, hfields⟩

theorem clear_fold (h : e.Clear) : e.fold.Clear := by
  induction e using byParts with
  | const | string | record | store | load => trivial
  | param number ih =>
    refine ⟨fun n hn => h.1 n ?_, ih h.2⟩
    rwa [fold_fold] at hn
  | binary op left right ihl ihr => exact fold_binary_of ⟨ihl h.1, ihr h.2⟩ fun _ => trivial
  | not operand ih => exact fold_not_of (ih h) fun _ => trivial
  | bare => exact h
  | var num arg shift mask add div mod ih => exact ⟨ih h.1, h.2⟩

theorem clear_foldsInto (width : Int) : FoldsInto width Clear where
  const _ := trivial
  binary _ _ _ := Iff.rfl
  var := by
    intro v v' op operand h hv hoperand
    refine clear_var ?_ fun field hfield => ?_
    · rw [(foldedInto h).param]
      exact hv.arg
    · rcases (foldedInto h).fields field hfield with hold | ⟨k, rfl⟩ | ⟨rfl, -⟩
      · exact hv.fields field hold
      · trivial
      · exact hoperand.field

theorem clear_simplify (h : e.Clear) : (e.simplify width).Clear := by
  induction e using byParts with
  | const | string | record | store | load => trivial
  | param number => exact clear_fold h
  | binary op left right ihl ihr => exact (clear_foldsInto width).simplifyBinary (ihl h.1) (ihr h.2)
  | not operand ih => exact (clear_foldsInto width).simplifyBinary (ih h) trivial
  | bare => exact h
  | var num arg shift mask add div mod ih => exact ⟨ih h.1, h.2⟩

theorem clear_forTable (h : e.Clear) : (e.forTable width).Clear := clear_simplify (clear_fold h)

end Expr

/-- The operand that the test of a condition is about, which is the whole condition if it is neither a
negation nor a bit test nor a comparison with a constant. -/
def testedOperand (cond : Expr) : Expr :=
  match cond.fold with
  | .not operand => operand
  | .binary op left right =>
    if op = .hasBit ∨ op = .notHasBit then
      match right with
      | .const _ => left
      | _ => .binary op left right
    else match Comparison.ofBinary? op left right with
      | some c => c.left
      | none => .binary op left right
  | e => e

theorem Comparison.left_of_ofBinary? {op : Operator} {l r : Expr} {c : Comparison}
    (h : ofBinary? op l r = some c) : c.left = l ∨ c.left = r := by
  unfold ofBinary? at h
  split at h
  · cases h
  · split at h
    · cases h
    · obtain rfl := Option.some.inj h
      exact .inr rfl
    · obtain rfl := Option.some.inj h
      exact .inl rfl
    · cases h

theorem Expr.Clear.testedOperand {cond : Expr} (h : cond.Clear) : (testedOperand cond).Clear := by
  have hfold := clear_fold h
  unfold Grf.testedOperand
  split
  · rename_i operand heq
    rw [heq] at hfold
    exact hfold
  · rename_i op left right heq
    rw [heq] at hfold
    split
    · split
      · exact hfold.1
      · exact hfold
    · split
      · rename_i c hc
        rcases Comparison.left_of_ofBinary? hc with hleft | hleft
        · exact hleft ▸ hfold.1
        · exact hleft ▸ hfold.2
      · exact hfold
  · exact hfold

namespace Declaration

/-- Whether no parameter of a declaration has the number of a temporary one: neither one that is read nor
one that is assigned to. The declarations inside of a conditional or a loop have to be asked as well. -/
def Clear : Declaration → Prop
  | properties _ _ props _ => ∀ p ∈ props, ∀ e, p.value = .computed e → e.Clear
  | switch s => s.expr.Clear ∧ (∀ r ∈ s.ranges, ∀ e ∈ r.result, e.Clear) ∧ ∀ e ∈ s.default, e.Clear
  | message m => ∀ e ∈ m.params, e.Clear
  | assign target value _ => (Expr.param target).Clear ∧ value.Clear
  | conditional branches _ => ∀ b ∈ branches, ∀ e ∈ b.cond, e.Clear
  | loop cond _ _ => cond.Clear
  | _ => True

end Declaration

end Grf
