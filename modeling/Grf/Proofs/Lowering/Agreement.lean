import Grf.Proofs.Lowering.Computes

/-! # Folded and computed operations

Operations on constants are folded, and those on parameters are computed by the codes of assignments. There the sign of
a count is the direction of a shift, while folding takes its low bits. For counts from 0 to 31 this is the same.
-/

namespace Grf.Lowering

open Word

variable {op : Operator} {target value value' : Expr} {k : Int} {w : Word} {pos : Position} {c c' : Context}
  {rs : List Record}

theorem lowerAssignment_folded (hfold : value'.fold = .const k) (h : lowerAssignment target value pos c = .ok rs c') :
    ∃ folded d, lowerAssignment target value' pos c = .ok folded d := by
  by_cases hconst : ∃ num, target.fold = .const num
  · obtain ⟨num, hnum⟩ := hconst
    unfold lowerAssignment at h ⊢
    rw [hnum] at h ⊢
    obtain ⟨_, d, hcheck, -⟩ := bind_eq_ok.mp h
    rw [hfold]
    exact ⟨_, d, bind_of_ok hcheck⟩
  · rw [lowerAssignment_computed hconst] at h ⊢
    obtain ⟨x, d, hbefore, -⟩ := bind_eq_ok.mp h
    rw [hfold]
    exact ⟨_, d, bind_of_ok hbefore⟩

/-- **Computed operations agree with folded ones**, unless they shift by a negative count or by more than 31. If an
operation on a parameter and a constant is accepted, then so is the same operation on two constants. Where the
parameter is the first one of these, the records of both store the value of the operation in the target. -/
theorem lowerAssignment_agrees {i : Nat} {l r : Int} (hc : c.InRange) (hi : IsOwn i)
    (hw : op.compute? (ofInt l) (ofInt r) = some w) (hcount : op.IsShift → (ofInt r).toNat ≤ 31)
    (h : lowerAssignment target (.binary op (.paramAt i) (.const r)) pos c = .ok rs c') :
    ∃ folded d, lowerAssignment target (.binary op (.const l) (.const r)) pos c = .ok folded d ∧
      ∀ (E : Engine) (n : Word), E.pending = [] → E.params.read i = ofInt l →
        target.Computable (.ofParams E.params) → target.value? (.ofParams E.params) = some n → IsOwn n.toNat →
          Stores E rs n.toNat w ∧ Stores E folded n.toNat w := by
  have hfold : (Expr.binary op (.const l) (.const r)).fold = .const w.toInt := by
    simp [Expr.fold, Expr.foldBinary, Expr.constant?, Operator.eval?, hw]
  obtain ⟨folded, d, hfolded⟩ := lowerAssignment_folded hfold h
  refine ⟨folded, d, hfolded, fun E n hpending hread htarget hn hown => ?_⟩
  have hn' : target.fold.value? (.ofParams E.params) = some n := by rwa [Expr.value?_fold htarget.negationsFit]
  have hbyte : (ofInt i).lowByte = i := Word.lowByte_ofInt (by omega) (by unfold IsOwn at hi; omega)
  have hcomputed : (Expr.binary op (.paramAt i) (.const r)).value? (.ofParams E.params) = some w := by
    show op.tableValue? (E.params.read (ofInt i).lowByte) (ofInt r) = some w
    rw [hbyte, hread]
    exact Operator.tableValue?_of_compute? hw
  have hfits : (Expr.binary op (.paramAt i) (.const r)).AssignFits (.ofParams E.params) := by
    refine ⟨⟨trivial, ?_⟩, trivial, ?_⟩
    · rintro _ ⟨⟩
      rw [hbyte]
      unfold IsOwn at hi
      unfold IsTemporary AssignRecord.dataSource
      omega
    · rintro hshift _ ⟨⟩
      have := hcount hshift
      rw [BitVec.toInt_eq_toNat_cond]
      split <;> omega
  constructor
  · exact lowerAssignment_stores hc h hpending htarget.fold.assignFits hfits hn' hcomputed hown
  · refine lowerAssignment_stores hc hfolded hpending htarget.fold.assignFits ?_ hn' ?_ hown
    · rw [hfold]
      trivial
    · rw [hfold]
      exact congrArg some (ofInt_toInt w)

/-- A right shift by 3 places, into the parameter behind the one that the parameter 3 numbers. -/
theorem lowerAssignment_agrees_shifted :
    let target : Expr := .binary .add (.paramAt 3) (.const 1)
    let c := saveTemps (.create 0 none none)
    let E : Engine := { params := fun n => if n = 2 then ofInt (-16) else 4 }
    ∃ rs c' folded d, lowerAssignment target (.binary .shr (.paramAt 2) (.const 3)) {} c = .ok rs c' ∧
      lowerAssignment target (.binary .shr (.const (-16)) (.const 3)) {} c = .ok folded d ∧
      Stores E rs 5 (ofInt (-2)) ∧ Stores E folded 5 (ofInt (-2)) := by
  intro target c E
  have hok : succeeds (lowerAssignment target (.binary .shr (.paramAt 2) (.const 3)) {}) c (fun _ _ => true) = true := by
    decide +kernel
  obtain ⟨rs, c', h, -⟩ := eq_ok_of_succeeds hok
  obtain ⟨folded, d, hfolded, hstores⟩ := @lowerAssignment_agrees .shr target (ofInt (-2)) {} c c' rs 2 (-16) 3
    (saveTemps_inRange (Context.create_inRange 0 none none)) (.inl (by decide)) (by decide) (fun _ => by decide) h
  refine ⟨rs, c', folded, d, h, hfolded, hstores E 5 rfl (by decide) ?_ (by decide) (.inl (by decide))⟩
  simp [target, Expr.Computable, Expr.paramAt, Expr.value?, IsOwn, Operator.IsDivision, Operator.IsShift, ofInt]

end Grf.Lowering
