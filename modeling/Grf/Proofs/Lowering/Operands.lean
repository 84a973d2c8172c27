import Grf.Proofs.Lowering.Plan

/-! # Operands of assignments

A source of an assignment is one byte: the number of a parameter, or the mark of the data. The number may be the mark,
so the sources tell constants from parameters if and only if no operand is this parameter (`sources_mark_constants`).
-/

namespace Grf

open List AssignRecord

namespace Lowering

variable {a : AssignRecord} {e target value : Expr} {s data : Int} {pos : Position} {c c' : Context} {rs : List Record}

/-- The sources with the mark of the data stand for the constant in the data. -/
def MarksConstants (a : AssignRecord) (e : Expr) : Prop :=
  Forall₂ (fun operand s => s = dataSource → operand = .const a.data) (operandsOf e) a.sources

theorem Finds.marks_iff (h : Finds data e s) : (s = dataSource → e = .const data) ↔ e ≠ .paramAt 0xFF := by
  cases h with
  | data => simp [Expr.paramAt]
  | own hn => simp [Expr.paramAt, dataSource]
  | temporary he hn =>
    refine iff_of_true ?_ ?_
    · rintro rfl
      exact absurd hn (by decide)
    · rintro rfl
      cases he

theorem Encodes.marksConstants_iff (h : Encodes a e) : MarksConstants a e ↔ .paramAt 0xFF ∉ operandsOf e := by
  have hsources := h.sources
  unfold MarksConstants
  generalize operandsOf e = es, a.sources = ss at hsources
  induction hsources with
  | nil => simp
  | cons hfinds _ ih => simp [hfinds.marks_iff, ih, eq_comm]

/-- The sources of the step are those of its operands, and mark constants only, unless an operand is the parameter whose
number is the mark of the data. -/
def Step.ReadsBack (s : Step) : Prop := Encodes s.plan.assignment s.value ∧
  (MarksConstants s.plan.assignment s.value ↔ .paramAt 0xFF ∉ operandsOf s.value)

/-- **Sources of assignments mark constants**, in all steps of an assignment and of the computation of an operand. -/
theorem sources_mark_constants (hc : c.InRange) :
    (lowerAssignment target value pos c = .ok rs c' → ∃ steps, DeclaredTraces target.fold value.fold steps ∧
      rs = planned pos steps ∧ ∀ s ∈ steps, s.ReadsBack) ∧
    ∀ n, operandParam e pos c = .ok (rs, n) c' → ∃ steps, Traces e.fold (.hold n) [] steps ∧
      rs = planned pos steps ∧ ∀ s ∈ steps, s.ReadsBack := by
  refine ⟨fun h => ?_, fun n h => ?_⟩
  · obtain ⟨steps, hsteps, hrecords, hencode⟩ := lowerAssignment_steps h
    obtain ⟨-, hall⟩ := hencode hc
    exact ⟨steps, hsteps, hrecords, fun s hs => ⟨hall s hs, (hall s hs).marksConstants_iff⟩⟩
  · obtain ⟨steps, hsteps, hrecords, hencode⟩ := operandParam_steps h
    obtain ⟨-, hall, -⟩ := hencode hc
    exact ⟨steps, hsteps, hrecords, fun s hs => ⟨hall s hs, (hall s hs).marksConstants_iff⟩⟩

/-- The number of the source is the mark: the parameter is accepted, and is not read back. -/
theorem sources_mark_constants_number : ∃ (rs : List Record) (c' : Context) (s : Step),
    lowerAssignment (.const 1) (.paramAt 0xFF) {} (.create 0 none none) = .ok rs c' ∧
      rs = planned {} [s] ∧ s.value = .paramAt 0xFF ∧ ¬MarksConstants s.plan.assignment s.value := by
  have hall := (sources_mark_constants (e := .const 0) (Context.create_inRange 0 none none)).1
    (rfl : lowerAssignment (.const 1) (.paramAt 0xFF) {} (.create 0 none none) = .ok _ _)
  obtain ⟨steps, hsteps, hrecords, hall⟩ := hall
  cases hsteps with
  | computed htarget => exact absurd ⟨1, rfl⟩ htarget
  | known htarget _ hvalue =>
    cases hvalue with
    | computedRead _ _ hnumber => exact absurd ⟨0xFF, rfl⟩ hnumber
    | read =>
      refine ⟨_, _, _, rfl, hrecords, rfl, fun hmarks => ?_⟩
      exact (hall _ (mem_singleton.mpr rfl)).2.mp hmarks (mem_singleton.mpr rfl)

end Lowering

end Grf
