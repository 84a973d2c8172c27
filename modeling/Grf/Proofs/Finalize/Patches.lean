import Grf.Proofs.Finalize.Collisions
import Grf.Proofs.Lowering.Supplied

/-! # Patches of finished records

Binding fills in ids and registers, which have the same size before and after. So the cells of a
record are those it has been lowered with (`finalize_becomes`), and the patches that have been made
for them still hit its placeholders (`patches_hit_placeholders`).
-/

namespace Grf.Lowering

variable {pos : Position} {rs out : List Record} {c c' : Context}

theorem becomes_decisionTable {t : TableRecord} {stream : List StreamItem} {ranges : List TableRange}
    {default : TableResult} (hstream : List.Forall₂ StreamItem.Becomes t.stream stream)
    (hranges : t.ranges.length = ranges.length) :
    Record.Becomes ⟨pos, .decisionTable t⟩ ⟨pos, .decisionTable { t with stream, ranges, default }⟩ := by
  refine ⟨?_, False.elim⟩
  have hitems : t.stream.flatMap (·.cells t.varSize) = stream.flatMap (·.cells t.varSize) :=
    flatMap_eq_of_forall₂ (hstream.imp fun _ _ h => h.cells t.varSize)
  simp only [Record.cells, TableRecord.cells, hitems, List.flatMap_def, List.map_const', hranges]

theorem becomes_of_boundAs {R R' : Record} (h : R.BoundAs R') : R.Becomes R' := by
  cases h with
  | table hstream hranges => exact becomes_decisionTable (hstream.imp fun _ _ h => h.becomes) hranges.length_eq
  | graphics => exact ⟨rfl, False.elim⟩
  | same => exact .refl _

theorem becomes_of_preparedAs {R R' : Record} (h : R.PreparedAs R') : R.Becomes R' := by
  cases h with
  | table h => exact becomes_decisionTable (List.forall₂_map_right_iff.mpr (h.imp fun _ _ h => h.becomes _)) rfl
  | same => exact .refl _

theorem becomes_withId (R : Record) (r : Registry) : R.Becomes (R.withId r) := by
  obtain ⟨pos, body⟩ := R
  cases body with
  | decisionTable t => exact ⟨rfl, False.elim⟩
  | spriteGroup g => exact ⟨rfl, False.elim⟩
  | _ => exact .refl _

/-- **The cells of records stay the same**, and records without references are not changed. -/
theorem finalize_becomes (h : finalize rs c = .ok out c') : List.Forall₂ Record.Becomes rs out := by
  refine (finalize_shapes h).imp ?_
  rintro R _ ⟨B, hbound, P, r, hprepared, rfl⟩
  exact (becomes_of_boundAs hbound).trans ((becomes_of_preparedAs hprepared).trans (becomes_withId P r))

/-- **Patches hit exactly the placeholders.** Patches are always for the next record: they do not
overlap, they are within the record, and it writes zeros at their places. The patches of a table are
the placeholders of its cells; those of assignments follow the steps that compute their target and
their value. A patch of a switch, of properties or of an assignment names a parameter that holds the
value of the operand, the property or the number in its place, when the records before it have been
executed. When references and registers are filled in, no cell changes. -/
theorem patches_hit_placeholders (pos : Position) (rs : List Record) (c c' : Context) :
    (∀ s, lowerSwitch s c = .ok rs c' → Patched rs ∧ Matched rs ∧
      (c.InRange → AllPatchedFor c' (Declaration.switch s).needs rs)) ∧
    (∀ feature id props, lowerProperties feature id props pos c = .ok rs c' →
      ((props = [] ∧ rs = []) ∨ PropertiesPlanned feature id props pos rs) ∧ Patched rs ∧ Matched rs ∧
      (c.InRange → props ≠ [] → PatchedFor c' (props.filterMap Property.need?) rs)) ∧
    (∀ target value, lowerAssignment target value pos c = .ok rs c' →
      (∃ steps, DeclaredTraces target.fold value.fold steps ∧ rs = planned pos steps) ∧ Matched rs ∧
      (c.InRange → PatchedFor c' (declaredNeeds target.fold value.fold) rs)) ∧
    (∀ e n, operandParam e pos c = .ok (rs, n) c' →
      (∃ steps, Traces e.fold (.hold n) [] steps ∧ rs = planned pos steps) ∧ Matched rs ∧
      (c.InRange → HeldAfter c' rs n e.fold)) ∧
    ∀ out, finalize rs c = .ok out c' → List.Forall₂ Record.Becomes rs out := by
  refine ⟨fun s h => ?_, fun feature id props h => ?_, fun target value h => ?_, fun e n h => ?_,
    fun out => finalize_becomes⟩
  · have hpatched := lowerSwitch_patched s c rs c' h
    exact ⟨hpatched, hpatched.matched, fun hc => lowerSwitch_patchedFor hc h⟩
  · have hplanned := lowerProperties_planned c rs c' h
    have hpatched : Patched rs := by
      rcases hplanned with ⟨-, rfl⟩ | hplanned
      · exact .nil
      · exact hplanned.patched
    exact ⟨hplanned, hpatched, hpatched.matched, fun hc hprops => lowerProperties_patchedFor hc hprops h⟩
  · obtain ⟨steps, hsteps, hrecords, -⟩ := lowerAssignment_steps h
    exact ⟨⟨steps, hsteps, hrecords⟩, hrecords ▸ matched_planned _, fun hc => lowerAssignment_patchedFor hc h⟩
  · obtain ⟨steps, hsteps, hrecords, -⟩ := operandParam_steps h
    refine ⟨⟨steps, hsteps, hrecords⟩, hrecords ▸ matched_planned _, fun hc => ?_⟩
    exact (operandParam_spec hc h).2.2.2

/-- Parameters with a computed number: in an operand of a table and in two fields of a variable, in
a property, and as the target and the source of an assignment. -/
theorem patches_hit_placeholders_computed :
    let sum (n : Int) : Expr := .binary .add (.paramAt n) (.const 2)
    let nth (n : Int) : Expr := .param (sum n)
    let v : VarRead Expr :=
      { num := 0x60, param := some (.paramAt 4), mask := some (.const 15), add := some (.paramAt 5) }
    let s : Switch := ⟨"tram", 3, false, 2, .binary .add (.var v) (nth 6), [], some (.const 1), {}⟩
    let env : Env := { engineVar := fun _ _ => 0, params := fun _ => 3, call := fun _ => 0, text := fun _ => 0 }
    let c := saveTemps (.create 0 none none)
    (∃ rs c', lowerSwitch s c = .ok rs c' ∧
      rs.filterMap (·.patches?) = [[⟨0x41, 1, 3⟩], [⟨0x40, 2, 6⟩, ⟨4, 1, 15⟩, ⟨5, 2, 19⟩]] ∧ Matched rs ∧
      AllPatchedFor c' [[nth 6, .paramAt 4, .paramAt 5]] rs) ∧
    (∃ rs c', lowerProperties 3 5 [⟨8, 2, .constant 7, {}⟩, ⟨9, 4, .computed (nth 6), {}⟩] {} c = .ok rs c' ∧
      rs.filterMap (·.patches?) = [[⟨0x41, 1, 3⟩], [⟨0x40, 4, 11⟩]] ∧ Matched rs ∧
      PatchedFor c' [nth 6] rs) ∧
    (∃ rs c', lowerAssignment (sum 1) (nth 6) {} c = .ok rs c' ∧
      rs.filterMap (·.patches?) = [[⟨0x40, 1, 1⟩, ⟨0x41, 1, 3⟩]] ∧ Matched rs ∧
      PatchedFor c' [sum 1, sum 6] rs) ∧
    (∃ rs n c', operandParam (nth 6) {} c = .ok (rs, n) c' ∧
      rs.filterMap (·.patches?) = [[⟨0x41, 1, 3⟩]] ∧ Matched rs ∧ HeldBy env c' rs n 3) ∧
    ∃ rs c₁ out c', Declaration.lowerAll [.switch s] (.create 0 none none) = .ok rs c₁ ∧
      finalize rs c₁ = .ok out c' ∧ List.Forall₂ Record.Becomes rs out := by
  intro sum nth v s env c
  have hc : c.InRange := saveTemps_inRange (Context.create_inRange 0 none none)
  have hfits : (nth 6).AssignFits env := by
    refine ⟨⟨⟨trivial, fun w hw => ?_⟩, trivial, fun hshift => ?_⟩, fun w hw => ?_⟩
    · cases hw
      decide
    · exact absurd hshift (by unfold Operator.IsShift; decide)
    · cases hw
      decide
  have hswitch : succeeds (lowerSwitch s) c (fun rs _ => rs.filterMap (·.patches?) =
      [[⟨0x41, 1, 3⟩], [⟨0x40, 2, 6⟩, ⟨4, 1, 15⟩, ⟨5, 2, 19⟩]]) = true := by decide +kernel
  have hprops : succeeds (lowerProperties 3 5 [⟨8, 2, .constant 7, {}⟩, ⟨9, 4, .computed (nth 6), {}⟩] {}) c
      (fun rs _ => rs.filterMap (·.patches?) = [[⟨0x41, 1, 3⟩], [⟨0x40, 4, 11⟩]]) = true := by decide +kernel
  have hassign : succeeds (lowerAssignment (sum 1) (nth 6) {}) c
      (fun rs _ => rs.filterMap (·.patches?) = [[⟨0x40, 1, 1⟩, ⟨0x41, 1, 3⟩]]) = true := by decide +kernel
  have hoperand : succeeds (operandParam (nth 6) {}) c
      (fun x _ => x.1.filterMap (·.patches?) = [[⟨0x41, 1, 3⟩]]) = true := by decide +kernel
  have hpasses : passes [.switch s] [0] (fun _ => true) = true := by decide +kernel
  obtain ⟨rs, d, h, hpatches⟩ := eq_ok_of_succeeds hswitch
  obtain ⟨rs', d', h', hpatches'⟩ := eq_ok_of_succeeds hprops
  obtain ⟨rs₁, d₁, h₁, hpatches₁⟩ := eq_ok_of_succeeds hassign
  obtain ⟨⟨rs₂, n⟩, d₂, h₂, hpatches₂⟩ := eq_ok_of_succeeds hoperand
  obtain ⟨rs₃, c₁, out, d₃, h₃, -, hok, -⟩ := eq_ok_of_passes hpasses
  obtain ⟨-, hmatched, hheld⟩ := (patches_hit_placeholders {} rs c d).1 s h
  obtain ⟨-, -, hmatched', hheld'⟩ := (patches_hit_placeholders {} rs' c d').2.1 3 5 _ h'
  obtain ⟨-, hmatched₁, hheld₁⟩ := (patches_hit_placeholders {} rs₁ c d₁).2.2.1 _ _ h₁
  obtain ⟨-, hmatched₂, hheld₂⟩ := (patches_hit_placeholders {} rs₂ c d₂).2.2.2.1 _ n h₂
  exact ⟨⟨rs, d, h, of_decide_eq_true hpatches, hmatched, hheld hc⟩,
    ⟨rs', d', h', of_decide_eq_true hpatches', hmatched', hheld' hc (by simp)⟩,
    ⟨rs₁, d₁, h₁, of_decide_eq_true hpatches₁, hmatched₁, hheld₁ hc⟩,
    ⟨rs₂, n, d₂, h₂, of_decide_eq_true hpatches₂, hmatched₂, hheld₂ hc env 3 hfits (by decide +kernel)⟩,
    ⟨rs₃, c₁, out, d₃, h₃, hok, (patches_hit_placeholders {} rs₃ c₁ d₃).2.2.2.2 out hok⟩⟩

end Grf.Lowering
