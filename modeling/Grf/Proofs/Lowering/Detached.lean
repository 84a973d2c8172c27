import Grf.Proofs.Lowering.Patches
import Grf.Proofs.Lowering.Program

/-! # Lowerings that name nothing

Most lowerings define and refer to nothing, and none of their records does. This is `Detached`, the form in which it is
shown here for the parts of declarations. Scratch registers are not touched by any lowering.
-/

namespace Grf

/-- All that lowerings may do that have nothing to do with named records. -/
def Effect.unnamed : Set Effect := {e | e ≠ .definitions}

namespace Lowering

variable {α : Type} {P : α → Prop} {pos : Position} {feature : Int} {m : Lowering α}

/-- The lowering `m` leaves definitions and scratch registers alone, and its result has the property
`P`. -/
def Detached (m : Lowering α) (P : α → Prop) : Prop :=
  ∀ c a c', m c = .ok a c' → c'.registry = c.registry ∧ c'.scratch = c.scratch ∧ P a

abbrev AllDetached (rs : List Record) : Prop := ∀ r ∈ rs, r.Detached

namespace Detached

theorem of_program {Q : List Int → α → Prop} (h : Program Effect.unnamed m Q) (hP : Yields m P) : Detached m P := by
  intro c a c' hok
  have hnot : .definitions ∉ Effect.unnamed := by simp [Effect.unnamed]
  exact ⟨h.kept (.registry hnot) hok, h.kept (.scratch hnot) hok, hP c a c' hok⟩

theorem step {Q : List Int → α → Prop} (h : Program Effect.unnamed m Q) : Detached m fun _ => True :=
  of_program h fun _ _ _ _ => trivial

theorem pure {a : α} (h : P a) : Detached (pure a) P := of_program (.pure (P := fun _ _ => True) trivial) (.pure h)

theorem fail {kind : ErrorKind} {message : String} : Detached (fail kind pos message) P :=
  of_program (.fail (P := fun _ _ => True)) .fail

theorem failIf {condition : Bool} {kind : ErrorKind} {message : String} :
    Detached (failIf condition kind pos message) fun _ => True :=
  step .failIf

end Detached

theorem AllDetached.withPatches {r : Record} (h : r.Detached) (patches : List Patch) :
    AllDetached (r.withPatches patches) := by
  intro r' hr'
  rcases Record.mem_withPatches hr' with rfl | hr'
  · exact h
  · exact hr'

theorem allDetached_planned (steps : List Step) : AllDetached (planned pos steps) := by
  intro r hr
  obtain ⟨s, -, hr⟩ := List.mem_flatMap.mp hr
  exact AllDetached.withPatches (r := ⟨pos, .paramAssignment s.plan.assignment⟩) trivial _ r hr

theorem operandParam_detached {e : Expr} : Detached (operandParam e pos) fun x => AllDetached x.1 := by
  refine .of_program operandParam_program fun c x c' hok => ?_
  grind [operandParam_planned, allDetached_planned]

theorem IsText.detached {r : Record} (h : IsText r) : r.Detached := by
  obtain ⟨feature, lang, id, text, hbody⟩ := h
  unfold Record.Detached
  rw [hbody]
  trivial

theorem resolveString_detached {name : String} : Detached (resolveString feature name pos) fun x => AllDetached x.2 :=
  .of_program resolveString_program fun c x c' hok r hr => (resolveString_texts name c x c' hok r hr).isText.detached

theorem checkText_yields (pos : Position) (what text : String) : Yields (checkText pos what text) fun _ =>
    ∃ n, EngineText.size (Text.bytesOf text) true false = .ok n := by
  unfold checkText
  cases EngineText.size (Text.bytesOf text) true false with
  | ok n => exact .pure ⟨n, rfl⟩
  | error e => exact .fail

theorem messageRecords_yields (m : Message) (params : List Int) : Yields (messageRecords m params) fun rs =>
    ∀ r ∈ rs, ∃ lang msgId custom, r = messageRecord m params lang msgId custom ∧ (0 ≤ msgId ∧ msgId ≤ 0xFF) ∧
      (msgId = MessageRecord.customId → ∃ n, EngineText.size (Text.bytesOf custom) true false = .ok n) := by
  unfold messageRecords
  cases m.custom with
  | none =>
    refine Yields.failIf.bind fun _ hid => .pure (List.forall_mem_singleton.mpr ⟨_, _, _, rfl, ?_⟩)
    simp only [Bool.or_eq_false_iff, decide_eq_false_iff_not] at hid
    refine ⟨by omega, fun hcustom => ?_⟩
    rw [hcustom] at hid
    exact absurd hid (by decide)
  | some name =>
    refine .after fun table => .after fun wordings => .after fun _ => .mapM_all (fun t => ?_) _
    exact .after fun _ => (checkText_yields _ _ _).bind fun _ htext =>
      .pure ⟨_, _, _, rfl, by decide, fun _ => htext⟩

end Lowering

end Grf
