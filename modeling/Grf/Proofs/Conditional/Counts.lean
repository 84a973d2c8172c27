import Grf.Proofs.Conditional.Lowered

/-! # Counted skips of nested conditionals

The guards of a conditional inside of another one are part of the list that the outer guards are put around.
`lowerAll_counts` says which counted skips still count correctly: those that are in the same run as their records in
every guard around them. What has to be shown is that a guarded list never ends with a label unless it is long: a loop
ends with its jump, and any other label is the end of a run that was too long to be counted.
-/

namespace Grf

open List

/-! ## The ends of guarded lists -/

variable {limit : Nat} {xs ys : List Record} {g : Guard Record}

theorem Sealed.append (hxs : Sealed limit xs) (hys : Sealed limit ys) : Sealed limit (xs ++ ys) := by
  intro r hr hmarker
  rw [length_append]
  rw [getLast?_append] at hr
  cases hlast : ys.getLast? with
  | none =>
    rw [hlast] at hr
    have hlong := hxs r hr hmarker
    omega
  | some s =>
    rw [hlast] at hr
    have hlong := hys r (hlast.trans hr) hmarker
    omega

theorem Sealed.append_left (hys : Sealed limit ys) (hne : ys ≠ []) (xs : List Record) : Sealed limit (xs ++ ys) := by
  intro r hr hmarker
  rw [getLast?_append_of_ne_nil xs hne] at hr
  have hlong := hys r hr hmarker
  rw [length_append]
  omega

theorem Record.IsMarker.isControl {r : Record} (h : r.IsMarker) : r.IsControl := by
  unfold IsMarker kind at h
  unfold IsControl
  cases hb : r.body <;> simp_all

theorem sealed_of_not_isControl (h : ∀ r ∈ xs, ¬r.IsControl) : Sealed limit xs :=
  fun r hr hmarker => absurd hmarker.isControl (h r (mem_of_getLast? hr))

theorem not_isCount_of_not_isControl (h : ∀ r ∈ xs, ¬r.IsControl) : ∀ r ∈ xs, ¬r.IsCount limit := by
  grind [Record.IsCount, Record.IsControl]

theorem getLast?_wrapAll {test : SkipCondition} {taken : Int → Prop} {runs : List SkipRun}
    {ws : List (Wrap Record)} (h : Forall₂ (Wrap.Covers limit test taken) runs ws)
    (hvalid : ∀ run ∈ runs, run.Valid) :
    let xs := runs.flatMap (·.records)
    xs.length ≤ (wrapAll ws xs).length ∧ (limit < xs.length ∨ (wrapAll ws xs).getLast? = xs.getLast?) := by
  induction h with
  | nil => simp [wrapAll]
  | @cons run w runs ws hw hws ih =>
    obtain ⟨hrun, hvalid⟩ := forall_mem_cons.mp hvalid
    obtain ⟨hlength, hlast⟩ := ih hvalid
    dsimp only at hlength hlast ⊢
    rw [flatMap_cons, wrapAll_cons hw.length]
    have happly : (w.apply run.records).length = w.skip.toList.length + run.records.length + w.label.toList.length := by
      simp only [Wrap.apply, length_append]
    refine ⟨by simp only [length_append]; omega, ?_⟩
    rw [length_append, getLast?_append, getLast?_append]
    rcases hlast with hlong | hlast
    · exact .inl (by omega)
    · rw [hlast]
      -- what is left is the end of the first run, which is not empty
      cases hw with
      | alone => exact .inr (by simp [Wrap.apply])
      | counted =>
        have hlast' := getLast?_eq_some_getLast hrun.nonempty
        exact .inr (by simp [Wrap.apply, getLast?_cons, hlast'])
      | labelled pos action label haction hnone hlimit => exact .inl (by omega)

theorem Guard.Formed.length_le_around (h : g.Formed limit xs) : xs.length ≤ (g.around xs).length := by
  have hends := getLast?_wrapAll h.covers SkipRun.split_valid
  rw [SkipRun.split_records] at hends
  exact hends.1

theorem Guard.Formed.sealed_around (h : g.Formed limit xs) (hxs : Sealed limit xs) : Sealed limit (g.around xs) := by
  have hends := getLast?_wrapAll h.covers SkipRun.split_valid
  rw [SkipRun.split_records] at hends
  intro r hr hmarker
  refine Nat.lt_of_lt_of_le ?_ h.length_le_around
  rcases hends.2 with hlong | hlast
  · exact hlong
  · exact hxs r (hlast.symm.trans hr) hmarker

theorem Block.guarded_guard {b : Block Record} (h : g.Formed limit b.flatten) (hb : b.Guarded limit)
    (hsealed : Sealed limit b.flatten) : (Block.guard g.wraps b).Guarded limit :=
  ⟨⟨_, _, h.covers⟩, hsealed, hb⟩

theorem Block.guarded_guardOr {g : Option (Guard Record)} {b : Block Record}
    (h : ∀ g' ∈ g, g'.Formed limit b.flatten) (hb : b.Guarded limit) (hsealed : Sealed limit b.flatten) :
    (Block.guardOr g b).Guarded limit ∧ Sealed limit (Block.guardOr g b).flatten ∧
      b.flatten.length ≤ (Block.guardOr g b).flatten.length := by
  cases g with
  | none => exact ⟨hb, hsealed, Nat.le_refl _⟩
  | some g =>
    have hformed := h g rfl
    exact ⟨Block.guarded_guard hformed hb hsealed, hformed.sealed_around hsealed, hformed.length_le_around⟩

namespace Scaffold

/-- **The guards of a well-formed scaffold are formed as counted runs need it.** -/
theorem guarded_block {s : Scaffold Record} (hlaid : s.Laid limit) (hlimit : limit < 0x80) :
    s.block.Guarded limit ∧ Sealed limit s.block.flatten := by
  induction s with
  | done => exact ⟨by simp [block, Block.Guarded], by simp [block, Block.flatten, Sealed]⟩
  | leaf decl records => exact ⟨not_isCount_of_not_isControl hlaid, sealed_of_not_isControl hlaid⟩
  | append first second ih ih' =>
    obtain ⟨hfirst, hends⟩ := ih hlaid.1
    obtain ⟨hsecond, hends'⟩ := ih' hlaid.2
    exact ⟨⟨hfirst, hsecond⟩, hends.append hends'⟩
  | chain start arms ih =>
    obtain ⟨harms, hends⟩ := ih hlaid.2
    have hstart : ∀ r ∈ [start], ¬r.IsControl := forall_mem_singleton.mpr hlaid.1
    exact ⟨⟨not_isCount_of_not_isControl hstart, harms⟩, (sealed_of_not_isControl hstart).append hends⟩
  | branch cond before mark inner outer body rest ih ih' =>
    obtain ⟨hplain, hinner, houter, hbody, hrest⟩ := hlaid
    obtain ⟨hbefore, hmark⟩ := forall_mem_append.mp hplain
    obtain ⟨hbody, hends⟩ := ih hbody
    obtain ⟨hrest, hends'⟩ := ih' hrest
    -- from the inside out: the marked body, the inner guard, the computed condition, the outer guard
    have hmarked := (sealed_of_not_isControl hmark).append hends
    have hmarks : ∀ r ∈ mark, ¬r.IsCount limit := not_isCount_of_not_isControl hmark
    rw [← body.flatten_block] at hinner houter
    have hguarded : (Block.guard inner.wraps (.append (.leaf mark) body.block)).Guarded limit :=
      Block.guarded_guard hinner ⟨hmarks, hbody⟩ hmarked
    have hbranch := (sealed_of_not_isControl hbefore).append (hinner.sealed_around hmarked)
    obtain ⟨hall, hall', -⟩ := Block.guarded_guardOr
      (b := .append (.leaf before) (.guard inner.wraps (.append (.leaf mark) body.block))) houter
      ⟨not_isCount_of_not_isControl hbefore, hguarded⟩ hbranch
    exact ⟨⟨hall, hrest⟩, hall'.append hends'⟩
  | last g body ih =>
    obtain ⟨hformed, hbody⟩ := hlaid
    obtain ⟨hbody, hends⟩ := ih hbody
    rw [← body.flatten_block] at hformed
    exact ⟨Block.guarded_guard hformed hbody hends, hformed.sealed_around hends⟩
  | loop cond start before g body jump ih =>
    obtain ⟨⟨label, pos, hlabel, rfl, rfl⟩, hbefore, hformed, hbody⟩ := hlaid
    obtain ⟨hbody, hends⟩ := ih hbody
    rw [← body.flatten_block] at hformed
    have hjump : ∀ r ∈ [Record.jumpTo label pos], ¬r.IsCount limit := by
      intro r hr
      obtain rfl := mem_singleton.mp hr
      show ¬label ≤ limit
      omega
    have hstart : ∀ r ∈ Record.ofLabel label pos :: before, ¬r.IsCount limit :=
      forall_mem_cons.mpr ⟨id, not_isCount_of_not_isControl hbefore⟩
    -- a loop never ends with a label of its own
    have hend : Sealed limit (body.block.flatten ++ [.jumpTo label pos]) := by
      intro r hr hmarker
      rw [getLast?_concat] at hr
      obtain rfl := Option.some.inj hr
      cases hmarker
    obtain ⟨hall, hall', hlength⟩ := Block.guarded_guardOr
      (b := .append body.block (.leaf [.jumpTo label pos])) hformed ⟨hbody, hjump⟩ hend
    refine ⟨⟨hstart, hall⟩, hall'.append_left ?_ _⟩
    grind [Block.flatten]

end Scaffold

namespace Lowering

/-- **Counted skips of lowered declarations.** Every skip with a count is the skip of a run with as many
records, and it is followed by them exactly if it is in the same run with them in every guard around it.
The records are numbered, so that equal ones are told apart. -/
theorem lowerAll_counts {ds : List Declaration} {c c' : Context} {records : List Record}
    (h : Declaration.lowerAll ds c = .ok records c') (hc : c.InRange) :
    ∃ s, Outlines ds s ∧ s.Laid c.maxInlineSkip ∧
      let b := s.block.number 0
      b.flatten.map Prod.fst = records ∧ b.flatten.Nodup ∧
      (∀ r ∈ b.flatten, r.1.IsCount c.maxInlineSkip → ∃ run, (r, run) ∈ b.counts) ∧
      ∀ x ∈ b.counts, IsCounted c.maxInlineSkip x ∧ (x.1 :: x.2 <:+: b.flatten ↔ b.Whole x) := by
  obtain ⟨s, -, rfl, hsound, houtlines, -⟩ := lowerAll_sound hc h
  have hnumbered : ((s.block.number 0).map Prod.fst).Guarded c.maxInlineSkip := by
    rw [Block.map_number]
    exact (Scaffold.guarded_block hsound.laid hc.limit_lt).1
  refine ⟨s, houtlines, hsound.laid, ?_, Block.nodup_number _ _, ?_, ?_⟩
  · rw [← Block.flatten_map, Block.map_number, Scaffold.flatten_block]
  · exact fun r hr hcount => Block.exists_mem_counts hnumbered hr hcount
  · intro x hx
    exact ⟨(Block.mem_counts hnumbered hx).1, Block.whole_iff hnumbered (Block.nodup_number _ _) hx⟩

/-- A conditional inside of another one, behind records that only action 9 can skip. The inner skip counts
one record, which only action 7 can skip. The two are in different runs of the outer guard, and what
follows the inner skip is the skip of the second run. -/
theorem lowerAll_counts_crossed :
    let inner : Declaration := .conditional [⟨some (.paramAt 3), [.deactivate ["ABCD"] {}], {}⟩] {}
    let ds : List Declaration := [.conditional
        [⟨some (.paramAt 1), [.properties 0 0 [⟨1, 1, .computed (.paramAt 2), {}⟩] {}, inner], {}⟩] {}]
    let c : Context := .create 0 none none
    ∃ records c' s, Declaration.lowerAll ds c = .ok records c' ∧ Outlines ds s ∧ records.map (·.kind) =
        [.skip, .bytePatchTable, .propertyTable, .skip, .skip, .deactivation] ∧
      let b := s.block.number 0
      b.flatten.map Prod.fst = records ∧
      ∀ x ∈ b.counts, (x.1 :: x.2 <:+: b.flatten ↔ b.Whole x) := by
  intro inner ds c
  have hok : succeeds (Declaration.lowerAll ds) c (fun records _ => records.map (·.kind) =
      [.skip, .bytePatchTable, .propertyTable, .skip, .skip, .deactivation]) = true := by
    decide +kernel
  obtain ⟨records, c', h, hkinds⟩ := eq_ok_of_succeeds hok
  obtain ⟨s, houtlines, -, hrecords, -, -, hwhole⟩ := lowerAll_counts h (Context.create_inRange 0 none none)
  exact ⟨records, c', s, h, houtlines, of_decide_eq_true hkinds, hrecords, fun x hx => (hwhole x hx).2⟩

end Lowering

end Grf
