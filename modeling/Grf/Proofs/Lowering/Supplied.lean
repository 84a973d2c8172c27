import Grf.Proofs.Lowering.Temporaries
import Grf.Proofs.Lowering.Traced

/-! # What is patched in

The patches of a record name parameters. The records before it have computed what is needed there, and each of them
assigns to a parameter of its own. So every patch of a table, of the properties of an item and of an assignment names a
parameter that holds the value which the record needs in its place (`PatchedFor`).
-/

namespace Grf.Lowering

open List Grf.Expr Property

variable {c c' : Context} {rs rs' : List Record} {ops : List (Int × Expr)} {us : List Reading} {needs : List Expr}
  {e target value : Expr} {n : Int} {pos : Position} {steps : List Step} {s : Step}

theorem HeldIn.after (h : HeldIn rs n e) (hrs' : Straight IsTemporary False rs') : HeldIn (rs' ++ rs) n e := by
  refine ⟨h.range, fun env w hfits hw => ?_⟩
  obtain ⟨hdata, hstable, hvalue⟩ := h.held env w hfits hw
  refine ⟨hdata, ?_, fun E hpending hsame => ?_⟩
  · rw [targets_append]
    exact hstable.imp_left fun hn => mem_append.mpr (.inr hn)
  · obtain ⟨hpend, hkept⟩ := hrs'.frame hpending
    rw [Engine.executeAll_append]
    exact hvalue _ hpend fun m hm => (hkept m hm False.elim).trans (hsame m hm)

theorem HeldIn.append (h : HeldIn rs n e) (hrs : Straight IsTemporary False rs)
    (hrs' : Straight (· ∈ targets rs') False rs') (hdistinct : Distinct (targets rs ++ targets rs')) :
    HeldIn (rs ++ rs') n e := by
  obtain ⟨-, hsecond, hapart⟩ := distinct_append.mp hdistinct
  refine ⟨h.range, fun env w hfits hw => ?_⟩
  obtain ⟨hdata, hstable, hvalue⟩ := h.held env w hfits hw
  refine ⟨hdata, ?_, fun E hpending hsame => ?_⟩
  · rw [targets_append]
    exact hstable.imp_left fun hn => mem_append.mpr (.inl hn)
  · have hn : n ∉ targets rs' := hstable.elim (hapart n) (mt (hsecond.temporary n))
    have hkept := (hrs'.frame (hrs.frame hpending).1).2 n hn False.elim
    rw [Engine.executeAll_append, Params.read_congr hkept]
    exact hvalue E hpending hsame

/-! ## Computations -/

theorem straight_planned (h : Distinct (targetsOf steps)) (pos : Position) :
    Straight (· ∈ targets (planned pos steps)) False (planned pos steps) := by
  rw [targets_planned]
  exact h.straight pos

theorem isPlain_of_isText {r : Record} (h : IsText r) : r.IsPlain := by
  obtain ⟨_, _, _, _, hbody⟩ := h
  rw [Record.IsPlain, hbody]
  trivial

theorem Gathers.straight (h : Gathers ops us) (hdistinct : Distinct (targets (us.map Reading.record))) :
    Straight (· ∈ targets (us.map Reading.record)) False (us.map Reading.record) := by
  induction h with
  | nil => exact .nil
  | text hr _ ih =>
    rw [map_cons, targets_cons_text hr] at hdistinct ⊢
    exact .plain (isPlain_of_isText hr) (ih hdistinct)
  | computation pos hsteps _ ih =>
    rw [map_append, record_readings, targets_append] at hdistinct ⊢
    obtain ⟨hfirst, hsecond, -⟩ := distinct_append.mp hdistinct
    rw [targets_planned] at hfirst
    exact ((straight_planned hfirst pos).mono (fun _ => mem_append_left _) id).append
      ((ih hsecond).mono (fun _ => mem_append_right _) id)

/-- **What is computed for a table is found in the parameters that have been named for it.** -/
theorem Gathers.heldIn (h : Gathers ops us) (hdistinct : Distinct (targets (us.map Reading.record))) :
    ∀ p ∈ ops, HeldIn (us.map Reading.record) p.1 p.2 := by
  induction h with
  | nil => simp
  | text hr _ ih =>
    rw [map_cons, targets_cons_text hr] at hdistinct
    exact fun p hp => (ih hdistinct p hp).after (.plain (isPlain_of_isText hr) .nil)
  | computation pos hsteps hrest ih =>
    rw [map_append, record_readings, targets_append] at hdistinct
    obtain ⟨hfirst, hsecond, -⟩ := distinct_append.mp hdistinct
    have hfirst' := targets_planned pos _ ▸ hfirst
    have hstraight := (straight_planned hfirst' pos).mono hfirst.temporary id
    rw [map_append, record_readings]
    rintro p (_ | ⟨_, hp⟩)
    · exact (hsteps.heldIn hfirst' pos).append hstraight (hrest.straight hsecond) hdistinct
    · exact (ih hsecond p hp).after hstraight

/-! ## Tables -/

/-- The records end with one that is written after its patches. Each of these names a parameter that holds what the
record needs in the place of the patch. -/
def PatchedFor (c : Context) (needs : List Expr) (rs : List Record) : Prop :=
  ∃ (before : List Record) (R : Record) (cells : List Cell),
    R.WrittenAs cells ∧ rs = before ++ R.withPatches (placeholders 0 cells) ∧
      Forall₂ (fun patch e => HeldAfter c before patch.param e) (placeholders 0 cells) needs

/-- Records that are made of tables with the given needs. -/
def AllPatchedFor (c : Context) (needs : List (List Expr)) (rs : List Record) : Prop :=
  ∃ parts, Forall₂ (PatchedFor c) needs parts ∧ rs = parts.flatten

theorem TableFor.patchedFor (h : TableFor needs rs) (hdistinct : Distinct (targets rs))
    (hin : ∀ t ∈ targets rs, t ∈ c.tempParams.inUse) : PatchedFor c needs rs := by
  obtain ⟨⟨ops, us, hgathers, rfl, -, hparams⟩, hR, -⟩ := h
  rw [targets_append] at hdistinct hin
  refine ⟨_, _, _, hR, rfl, (forall₂_map_left_iff.mp hparams).imp fun patch e hmem => ?_⟩
  exact (hgathers.heldIn (distinct_append.mp hdistinct).1 _ hmem).heldAfter fun t ht => hin t (mem_append_left _ ht)

theorem Tables.allPatchedFor {needs : List (List Expr)} (h : Tables needs rs) (hdistinct : Distinct (targets rs))
    (hin : ∀ t ∈ targets rs, t ∈ c.tempParams.inUse) : AllPatchedFor c needs rs := by
  obtain ⟨parts, hparts, rfl⟩ := h
  refine ⟨parts, ?_, rfl⟩
  induction hparts with
  | nil => exact .nil
  | cons hpart _ ih =>
    rw [flatten_cons, targets_append] at hdistinct hin
    obtain ⟨hfirst, hsecond, -⟩ := distinct_append.mp hdistinct
    obtain ⟨hin, hin'⟩ := forall_mem_append.mp hin
    exact .cons (hpart.patchedFor hfirst hin) (ih hsecond hin')

theorem Program.distinct {α : Type} {m : Lowering α} {records : α → List Record} {a : α}
    (h : Spends {.spriteSets, .definitions} m records) (hc : c.InRange) (hok : m c = .ok a c') :
    Distinct (targets (records a)) ∧ ∀ t ∈ targets (records a), t ∈ c'.tempParams.inUse := by
  obtain ⟨ts, htakes, hperm⟩ := h.hands (by simp) (by simp) c a c' hc hok
  have hmem : ∀ t ∈ targets (records a), t ∈ ts := fun t => hperm.mem_iff.mp
  exact ⟨⟨fun t ht => htakes.temporary hc t (hmem t ht), hperm.nodup_iff.mpr htakes.nodup⟩,
    fun t ht => (htakes.temps.inUse t).mpr (.inl (hmem t ht))⟩

/-- **Every patch of a switch names a parameter that holds the operand.** -/
theorem lowerSwitch_patchedFor {s : Switch} (hc : c.InRange) (h : lowerSwitch s c = .ok rs c') :
    AllPatchedFor c' (Declaration.switch s).needs rs := by
  obtain ⟨hdistinct, hin⟩ := (lowerSwitch_program (by simp)).distinct hc h
  exact (lowerSwitch_tables s c rs c' h).allPatchedFor hdistinct hin

/-- **Every patch of the properties of an item names a parameter that holds the value of a property.** -/
theorem lowerProperties_patchedFor {feature id : Int} {props : List Property} (hc : c.InRange) (hprops : props ≠ [])
    (h : lowerProperties feature id props pos c = .ok rs c') : PatchedFor c' (props.filterMap need?) rs := by
  obtain ⟨hdistinct, hin⟩ := lowerProperties_program.distinct hc h
  exact ((lowerProperties_tables c rs c' h).resolve_left fun h => hprops h.1).patchedFor hdistinct hin

/-! ## Assignments -/

theorem Traces.exists_patches {a : AssignByte} {tn : List Expr} (h : Traces e (.assign a) tn steps) (pos : Position) :
    ∃ init s, steps = init ++ [s] ∧ s.plan.target = a ∧ (Distinct (targetsOf init) →
      Forall₂ (fun patch e => HeldIn (planned pos init) patch.param e) (s.plan.src1.patches AssignRecord.src1Offset)
        (patchNeeds e)) := by
  cases h with
  | const | read => exact ⟨[], _, rfl, rfl, fun _ => .nil⟩
  | combined => exact ⟨_, _, rfl, rfl, fun _ => .nil⟩
  | @computedRead number n steps _ _ hnumber h =>
    have hneeds : patchNeeds (.param number) = [number] := by
      cases number <;> first | rfl | exact absurd ⟨_, rfl⟩ hnumber
    exact ⟨steps, _, rfl, rfl, fun hdistinct => hneeds ▸ .cons (h.heldIn hdistinct pos) .nil⟩

theorem FreshSteps.patchedFor (h : FreshSteps c steps c')
    (hheld : Forall₂ (fun patch e => HeldIn (planned pos steps) patch.param e)
      (s.plan.target.patches AssignRecord.targetOffset ++ s.plan.src1.patches AssignRecord.src1Offset) needs) :
    PatchedFor c' needs (planned pos (steps ++ [s])) := by
  refine ⟨planned pos steps, _, s.plan.cells, .assignment pos s.plan, ?_, ?_⟩
  · rw [planned_append]
    exact congrArg (_ ++ ·) (append_nil _)
  · rw [AssignPlan.placeholders_cells]
    exact hheld.imp fun _ _ held => held.heldAfter h.inUse

/-- What is patched into an assignment of a declaration: the number of the target, and that of the source. -/
def declaredNeeds (target value : Expr) : List Expr :=
  (if target.constant?.isSome then [] else [target]) ++ patchNeeds value

/-- **The patches of an assignment name parameters that hold the numbers of its target and its source.** -/
theorem lowerAssignment_patchedFor (hc : c.InRange) (h : lowerAssignment target value pos c = .ok rs c') :
    PatchedFor c' (declaredNeeds target.fold value.fold) rs := by
  obtain ⟨steps, hsteps, rfl, hfresh⟩ := lowerAssignment_steps h
  replace hfresh := (hfresh hc).1
  cases hsteps with
  | known htarget _ h =>
    obtain ⟨init, s, rfl, hs, hheld⟩ := h.exists_patches pos
    rw [dropLast_concat] at hfresh
    refine hfresh.patchedFor ?_
    rw [hs, htarget]
    exact hheld hfresh.toDistinct
  | @computed tmp first second hconst hfirst hsecond =>
    have hneeds : declaredNeeds target.fold value.fold = target.fold :: patchNeeds value.fold := by
      cases hfold : target.fold <;> first | rfl | exact absurd ⟨_, hfold⟩ hconst
    obtain ⟨init, s, rfl, hs, hheld⟩ := hsecond.exists_patches pos
    rw [← append_assoc, dropLast_concat] at hfresh
    have hdistinct : Distinct (targetsOf first ++ targetsOf init) := targetsOf_append ▸ hfresh.toDistinct
    obtain ⟨hfirst', hinit, -⟩ := distinct_append.mp hdistinct
    have hstraight := (hfirst'.straight pos).mono hfirst'.temporary id
    rw [← append_assoc]
    refine hfresh.patchedFor ?_
    rw [hs, hneeds, planned_append]
    refine .cons ((hfirst.heldIn hfirst' pos).append hstraight (straight_planned hinit pos) ?_) ?_
    · rwa [targets_planned, targets_planned]
    · exact (hheld hinit).imp fun _ _ held => held.after hstraight

end Grf.Lowering
