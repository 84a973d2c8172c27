import Grf.Proofs.Conditional.Counts

/-! # Nested conditionals keep together what belongs together

Every conditional and loop around a list splits it into runs again and puts skips and labels between them. A record is
bonded to those that belong to it, so nothing is ever put in between (`lowerAll_together`).
-/

namespace Grf

open List

namespace Block

variable {α β : Type}

theorem leaves_map (f : α → β) (b : Block α) : (b.map f).leaves = b.leaves.map (·.map f) := by
  induction b with
  | leaf xs => rfl
  | append first second ih ih' => simp [map, leaves, ih, ih']
  | guard wraps body ih => exact ih

theorem leaves_guardOr (g : Option (Guard α)) (b : Block α) : (guardOr g b).leaves = b.leaves := by
  cases g <;> rfl

end Block

mutual

theorem Outlines.attended {ds : List Declaration} {s : Scaffold Record} (h : Outlines ds s) :
    ∀ leaf ∈ s.block.leaves, Attended leaf := by
  cases h with
  | nil => exact forall_mem_singleton.mpr trivial
  | cons h h' => exact forall_mem_append.mpr ⟨h.attended, h'.attended⟩

theorem OutlinesOne.attended {d : Declaration} {s : Scaffold Record} (h : OutlinesOne d s) :
    ∀ leaf ∈ s.block.leaves, Attended leaf := by
  have hjump : ∀ (label : Int) (pos : Position), Attended [.jumpTo label pos] := fun _ _ =>
    .alone trivial trivial
  cases h with
  | simple _ hd h => exact forall_mem_singleton.mpr (Lowering.lower_tidy hd _ _ _ h).attended
  | conditional h => exact h.attended
  | chain _ h => exact forall_mem_append.mpr ⟨forall_mem_singleton.mpr (.alone trivial trivial), h.attended⟩
  | never => exact forall_mem_singleton.mpr trivial
  | forever _ _ h =>
    refine forall_mem_append.mpr ⟨forall_mem_singleton.mpr (.alone trivial trivial), ?_⟩
    exact forall_mem_append.mpr ⟨h.attended, forall_mem_singleton.mpr (hjump _ _)⟩
  | loop _ _ hbefore h =>
    have hcond := Lowering.lowerCondition_attended _ _ _ _ hbefore
    refine forall_mem_append.mpr ⟨forall_mem_singleton.mpr (.alone trivial hcond), ?_⟩
    rw [Block.leaves_guardOr]
    exact forall_mem_append.mpr ⟨h.attended, forall_mem_singleton.mpr (hjump _ _)⟩

theorem OutlinesBranches.attended {bs : List (IfBranch Declaration)} {s : Scaffold Record}
    (h : OutlinesBranches bs s) : ∀ leaf ∈ s.block.leaves, Attended leaf := by
  cases h with
  | nil => exact forall_mem_singleton.mpr trivial
  | never _ h => exact h.attended
  | always _ h => exact h.attended
  | last _ h => exact h.attended
  | branch _ hbefore hmark h h' =>
    have hcond := Lowering.lowerCondition_attended _ _ _ _ hbefore
    refine forall_mem_append.mpr ⟨?_, h'.attended⟩
    rw [Block.leaves_guardOr]
    refine forall_mem_append.mpr ⟨forall_mem_singleton.mpr hcond, ?_⟩
    refine forall_mem_append.mpr ⟨forall_mem_singleton.mpr ?_, h.attended⟩
    rcases hmark with rfl | ⟨t, -, rfl⟩
    · exact trivial
    · exact .alone trivial trivial

end

theorem Attended.exists_infix {leaf : List Numbered} (h : Attended (leaf.map Prod.fst)) {x : Numbered}
    (hx : x ∈ leaf) : ∃ followers, x.1.Owns (followers.map Prod.fst) ∧ x :: followers <:+: leaf := by
  obtain ⟨pre, post, rfl⟩ := append_of_mem hx
  rw [map_append, map_cons] at h
  obtain ⟨records, ⟨rest, hrest⟩, howns⟩ := h.exists_followers
  obtain ⟨followers, rest', rfl, rfl, -⟩ := map_eq_append_iff.mp hrest.symm
  exact ⟨followers, howns, pre, rest', by simp⟩

namespace Lowering

/-- **Skips never separate records that belong together.** In the records of lowered declarations, each
record is immediately followed by those that belong to it: a table of byte patches by the record that it
patches, a sprite table and a replacement by their real sprites. They are the ones that were lowered
with it, since they follow it in one of the lists that skips and labels have been put into. The records
are numbered, so that equal ones are told apart. -/
theorem lowerAll_together {ds : List Declaration} {c c' : Context} {records : List Record}
    (h : Declaration.lowerAll ds c = .ok records c') (hc : c.InRange) :
    ∃ s, Outlines ds s ∧ s.Laid c.maxInlineSkip ∧
      let b := s.block.number 0
      b.flatten.map Prod.fst = records ∧ b.flatten.Nodup ∧
      ∀ x ∈ b.flatten, ∃ followers, x.1.Owns (followers.map Prod.fst) ∧ x :: followers <:+: b.flatten ∧
        (x.1.IsControl ∨ ∃ leaf ∈ b.leaves, x :: followers <:+: leaf) := by
  obtain ⟨s, -, rfl, hsound, houtlines, -⟩ := lowerAll_sound hc h
  have hnumbered : ((s.block.number 0).map Prod.fst).Guarded c.maxInlineSkip := by
    rw [Block.map_number]
    exact (Scaffold.guarded_block hsound.laid hc.limit_lt).1
  refine ⟨s, houtlines, hsound.laid, ?_, Block.nodup_number _ _, ?_⟩
  · rw [← Block.flatten_map, Block.map_number, Scaffold.flatten_block]
  intro x hx
  rcases Block.mem_leaf_or_isControl hnumbered hx with ⟨leaf, hleaf, hx⟩ | hcontrol
  · have hattended : Attended (leaf.map Prod.fst) := by
      refine houtlines.attended _ ?_
      rw [← Block.map_number s.block 0, Block.leaves_map]
      exact List.mem_map_of_mem hleaf
    obtain ⟨followers, howns, hinfix⟩ := hattended.exists_infix hx
    refine ⟨followers, howns, ?_, Or.inr ⟨leaf, hleaf, hinfix⟩⟩
    exact Block.infix_flatten_of_bonded hnumbered hleaf hinfix (by simp) howns.bondedChain
  · refine ⟨[], hcontrol.isAlone.owns, ?_, Or.inl hcontrol⟩
    obtain ⟨pre, post, hflatten⟩ := List.append_of_mem hx
    exact ⟨pre, post, by rw [hflatten]; simp⟩

/-- A loop around a conditional. Its body has to be skipped in three runs, the first and the last by action
9 and the second one by action 7. -/
theorem lowerAll_together_nested :
    let body : List Declaration :=
      [.properties 0 0 [⟨1, 1, .computed (.paramAt 2), {}⟩] {}, .deactivate ["ABCD"] {},
        .spriteSets 1 [⟨"a", ["x", "y"], {}⟩, ⟨"b", ["y", "x"], {}⟩] {}, .replace [⟨16, ["x"], {}⟩] {},
        .assign (.const 3) (.param (.binary .add (.paramAt 1) (.const 2))) {}]
    let ds : List Declaration := [.loop (.paramAt 1) [.conditional [⟨some (.paramAt 4), body, {}⟩] {}] {}]
    let c : Context := .create 0 none (some { sprites := #[⟨"x", "", 1, {}⟩, ⟨"y", "", 2, {}⟩] })
    ∃ records c' s, Declaration.lowerAll ds c = .ok records c' ∧ Outlines ds s ∧ records.map (·.kind) =
        [.jumpTarget, .skip, .skip, .bytePatchTable, .propertyTable, .skip, .skip, .deactivation,
          .spriteTable, .realSprite, .realSprite, .realSprite, .realSprite, .rangeReplace, .realSprite,
          .paramAssignment, .skip, .skip, .bytePatchTable, .paramAssignment, .skip] ∧
      let b := s.block.number 0
      b.flatten.map Prod.fst = records ∧
      ∀ x ∈ b.flatten, ∃ followers, x.1.Owns (followers.map Prod.fst) ∧ x :: followers <:+: b.flatten := by
  intro body ds c
  have hok : succeeds (Declaration.lowerAll ds) c (fun records _ => records.map (·.kind) =
      [.jumpTarget, .skip, .skip, .bytePatchTable, .propertyTable, .skip, .skip, .deactivation,
        .spriteTable, .realSprite, .realSprite, .realSprite, .realSprite, .rangeReplace, .realSprite,
        .paramAssignment, .skip, .skip, .bytePatchTable, .paramAssignment, .skip]) = true := by
    decide +kernel
  obtain ⟨records, c', h, hkinds⟩ := eq_ok_of_succeeds hok
  obtain ⟨s, houtlines, -, hrecords, -, htogether⟩ := lowerAll_together h (Context.create_inRange 0 none _)
  refine ⟨records, c', s, h, houtlines, of_decide_eq_true hkinds, hrecords, ?_⟩
  intro x hx
  obtain ⟨followers, howns, hinfix, -⟩ := htogether x hx
  exact ⟨followers, howns, hinfix⟩

end Lowering

end Grf
