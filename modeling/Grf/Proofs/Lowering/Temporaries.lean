import Grf.Proofs.Lowering.Detached

/-! # Temporary parameters are assigned once

The temporary parameters that a lowering takes are all different, and none of them has been in use
before. So a declaration that holds no others assigns to each of them once (`lower_spends`). Labels are
not taken by such a declaration.
-/

namespace Grf.Lowering

open List

variable {α : Type} {c c' d : Context} {ts ts' : List Int} {effects : Set Effect} {m : Lowering α}
  {P : List Int → α → Prop} {decl : Declaration} {rs : List Record}

/-- The state `c'` is the state `c` after the temporary parameters `ts` have been taken, and no labels.
The parameters are all different. -/
structure Takes (c : Context) (ts : List Int) (c' : Context) : Prop where
  limit : c'.maxInlineSkip = c.maxInlineSkip
  depth : c'.depth = c.depth
  temps : c.tempParams.Took ts c'.tempParams
  nodup : ts.Nodup
  shortLabels : c'.shortLabels = c.shortLabels
  longLabels : c'.longLabels = c.longLabels

namespace Takes

theorem refl (c : Context) : Takes c [] c := ⟨rfl, rfl, .refl _, nodup_nil, rfl, rfl⟩

theorem trans (h : Takes c ts d) (h' : Takes d ts' c') : Takes c (ts ++ ts') c' where
  limit := h'.limit.trans h.limit
  depth := h'.depth.trans h.depth
  temps := h.temps.trans h'.temps
  nodup := by
    refine nodup_append.mpr ⟨h.nodup, h'.nodup, ?_⟩
    -- what has been taken first is in use when the others are taken
    rintro t ht t' ht' rfl
    exact h'.temps.fresh t ht' ((h.temps.inUse t).mpr (.inl ht))
  shortLabels := h'.shortLabels.trans h.shortLabels
  longLabels := h'.longLabels.trans h.longLabels

theorem inRange (h : Takes c ts c') (hc : c.InRange) : c'.InRange where
  temps := fun id hid => hc.temps id (h.temps.free id hid)
  held := by
    grind [h.temps.inUse, hc.temps, h.temps.wasFree, hc.held]
  shortLabels := h.shortLabels ▸ hc.shortLabels
  longLabels := h.longLabels ▸ hc.longLabels
  limit := h.limit ▸ hc.limit

theorem temporary (h : Takes c ts c') (hc : c.InRange) : ∀ t ∈ ts, IsTemporary t := fun t ht =>
  hc.temps t (h.temps.wasFree t ht)

end Takes

/-- The lowering `m` takes temporary parameters and no labels, and the parameters and its result have
the property `P`. -/
def Hands (m : Lowering α) (P : List Int → α → Prop) : Prop :=
  ∀ c a c', c.InRange → m c = .ok a c' → ∃ ts, Takes c ts c' ∧ P ts a

/-- **A program without labels and frames takes temporary parameters only.** -/
theorem Program.hands (h : Program effects m P) (hlabels : .labels ∉ effects) (hframes : .frames ∉ effects) :
    Hands m P := by
  induction h with
  | pure h =>
    intro c b c' _ hok
    obtain ⟨rfl, rfl⟩ := pure_eq_ok.mp hok
    exact ⟨[], .refl c, h⟩
  | throw e => rintro c a c' _ ⟨⟩
  | bind hm hf ihm ihf =>
    intro c b c' hc hok
    obtain ⟨a, d, ha, hb⟩ := bind_eq_ok.mp hok
    obtain ⟨ts, htakes, hP⟩ := ihm hlabels hframes c a d hc ha
    obtain ⟨ts', htakes', hQ⟩ := ihf ts a hlabels hframes d b c' (htakes.inRange hc) hb
    exact ⟨ts ++ ts', htakes.trans htakes', hQ hP⟩
  | mono h hQ ih =>
    intro c a c' hc hok
    obtain ⟨ts, htakes, hP⟩ := ih hlabels hframes c a c' hc hok
    exact ⟨ts, htakes, hQ ts a hP⟩
  | look hf ih => exact fun c a c' hc hok => ih c hlabels hframes c a c' hc hok
  | update hf =>
    intro c u c' _ hok
    obtain rfl := modify_eq_ok.mp hok
    exact ⟨[], ⟨hf.limit c, hf.depth c, (hf.tempParams c).symm ▸ .refl _, nodup_nil, hf.shortLabels c, hf.longLabels c⟩,
      rfl⟩
  | popTemp pos =>
    intro c t c' hc hok
    obtain ⟨⟨_, pool⟩, hpop, ⟨⟩⟩ := lift_bind_eq_ok.mp hok
    have hlent := Pool.pop_lent hpop
    exact ⟨[t], ⟨rfl, rfl, hlent.toTook, nodup_singleton t, rfl, rfl⟩, rfl⟩
  | popShortLabel pos h => exact absurd h hlabels
  | popLongLabel pos h => exact absurd h hlabels
  | resolving name pos hf ih =>
    intro c a c' hc hok
    obtain ⟨table, _, htable, hok⟩ := bind_eq_ok.mp hok
    obtain ⟨rfl, -⟩ := stringTable_eq_ok htable
    obtain ⟨x, -, hok⟩ := lift_bind_eq_ok.mp hok
    have htable : Takes c [] { c with strings := some x.2 } := { Takes.refl c with }
    obtain ⟨ts, htakes, hP⟩ := ih _ _ hlabels hframes _ a c' (htable.inRange hc) hok
    exact ⟨ts, htable.trans htakes, hP⟩
  | withTemps h h' => exact absurd h' hframes
  | conditional h h' => exact absurd h' hframes

theorem Program.hands_of_pure (h : Program ∅ m P) : Hands m P := h.hands (Set.notMem_empty _) (Set.notMem_empty _)

theorem Takes.extends (h : Takes c ts c') (htexts : ∀ name id, c.textId? name = some id → c'.textId? name = some id) :
    c.Extends c' where
  limit := h.limit
  depth := h.depth
  temps := ⟨ts, h.temps⟩
  shortLabels := ⟨[], h.shortLabels.symm ▸ .refl _⟩
  longLabels := ⟨[], h.longLabels.symm ▸ .refl _⟩
  texts := htexts

theorem lower_takes (hd : decl.IsSimple) (hc : c.InRange) (h : decl.lower c = .ok rs c') :
    ∃ d ts pool, Takes (saveTemps c) ts d ∧ d.tempParams.restore = .ok pool ∧
      c' = { d with tempParams := pool } ∧ (decl.Spares IsTemporary → (temporaries rs).Perm ts) := by
  obtain ⟨body, heq, hbody⟩ : ∃ m, decl.lower = withTemps m ∧ Program {.spriteSets, .definitions} m
      fun ts rs => decl.Spares IsTemporary → (∀ t ∈ ts, IsTemporary t) → (temporaries rs).Perm ts :=
    lower_program_of_simple hd (fun _ => by simp) fun _ => by simp
  rw [heq] at h
  obtain ⟨d, h, hexit⟩ := bracket_eq_ok.mp h
  obtain ⟨ts, htakes, hperm⟩ := hbody.hands (by simp) (by simp) _ _ _ (saveTemps_inRange hc) h
  obtain ⟨pool, hpool, ⟨⟩⟩ := except_bind_eq_ok hexit
  exact ⟨d, ts, pool, htakes, hpool, rfl, fun hspares => hperm hspares (htakes.temporary (saveTemps_inRange hc))⟩

/-- **A declaration that holds no others assigns once to each temporary parameter that it takes**, and
takes no labels. The parameters are given back at its end. -/
theorem lower_spends (hd : decl.IsSimple) (hc : c.InRange) (h : decl.lower c = .ok rs c') :
    c'.shortLabels = c.shortLabels ∧ c'.longLabels = c.longLabels ∧
      (decl.Spares IsTemporary → (temporaries rs).Nodup ∧ ∀ t ∈ temporaries rs, t ∉ c.tempParams.inUse) := by
  obtain ⟨d, ts, pool, htakes, -, rfl, hperm⟩ := lower_takes hd hc h
  refine ⟨htakes.shortLabels, htakes.longLabels, fun hspares => ?_⟩
  have hperm := hperm hspares
  exact ⟨hperm.nodup_iff.mpr htakes.nodup, fun t ht => htakes.temps.fresh t (hperm.mem_iff.mp ht)⟩

end Grf.Lowering
