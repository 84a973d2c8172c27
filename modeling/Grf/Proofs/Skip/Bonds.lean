import Grf.Proofs.Skip.Whole

/-! # Records that no guard separates

A run of a guard ends where the next record has no way in common with it. It cannot end behind a record
if whatever can skip that record can also skip the next one: the two are `Bonded`. So the skips and labels of guards, however deeply nested, are never put between bonded records,
and records that were lowered one right behind the other stay so (`Block.infix_flatten_of_bonded`).
-/

namespace Grf

open List

/-- What can skip the record `r` can skip the record `s` as well. -/
structure Record.Bonded (r s : Record) : Prop where
  action7 : r.kind.capabilities.byAction7 = true → s.kind.capabilities.byAction7 = true
  action9 : r.kind.capabilities.byAction9 = true → s.kind.capabilities.byAction9 = true

abbrev BondedChain (m : List Numbered) : Prop := List.IsChain (fun x y => x.1.Bonded y.1) m

namespace Piece

variable {limit : Nat} {test : SkipCondition} {taken : Int → Prop} {p : Piece} {ps : List Piece}
  {ws : List (Wrap Numbered)} {xs m : List Numbered}

theorem Fits.inter_of_bonded (h : p.Fits limit test taken) {x : Numbered} (hx : x ∈ p.chunk)
    {s : Record} (hbond : x.1.Bonded s) : (p.run.ways.inter (.ofKind s.kind)).isEmpty = false := by
  have hways := h.valid.ways
  rcases h.action7_or_action9 with h7 | h9
  · have hall : p.run.records.all (·.kind.capabilities.byAction7) = true := by rw [hways] at h7; exact h7
    have hs := hbond.action7 (h.forall_chunk hall x hx)
    simp [SkipWays.isEmpty, SkipWays.inter, SkipWays.ofKind, h7, hs]
  · have hall : p.run.records.all (·.kind.capabilities.byAction9) = true := by rw [hways] at h9; exact h9
    have hs := hbond.action9 (h.forall_chunk hall x hx)
    simp [SkipWays.isEmpty, SkipWays.inter, SkipWays.ofKind, h9, hs]

theorem Cut.exists_chunk_of_bonded (h : Cut limit test taken ws xs ps) (hm : m <:+: xs) (hne : m ≠ [])
    (hbonds : BondedChain m) : ∃ p ∈ ps, m <:+: p.chunk := by
  -- the pieces `l` have been passed, and the records are in those after them
  have hall : ∀ l r : List Piece, ps = l ++ r → m <:+: r.flatMap chunk → ∃ p ∈ r, m <:+: p.chunk := by
    intro l r
    induction r generalizing l with
    | nil => grind
    | cons p r ih =>
      intro hps hm
      rw [flatMap_cons] at hm
      rcases infix_append_iff_ne_nil.mp hm with hp | hr | ⟨u, v, hu, hv, rfl, hfirst, hsecond⟩
      · exact ⟨p, by simp, hp⟩
      · obtain ⟨q, hq, hm⟩ := ih (l ++ [p]) (by simp [hps]) hr
        exact ⟨q, by simp [hq], hm⟩
      · exfalso
        cases r with
        | nil => exact hv (prefix_nil.mp hsecond)
        | cons q r =>
          subst hps
          obtain ⟨s, rest, hrest, hempty⟩ := h.stops
          have ha : u.getLast hu ∈ u.getLast? := getLast?_eq_some_getLast hu
          -- the first record behind `u` is the first one of the piece `q`
          have hhead : v.head? = some s := by
            obtain ⟨b, v, rfl⟩ := exists_cons_of_ne_nil hv
            grind
          have hbond := (isChain_append.mp hbonds).2.2 _ ha s hhead
          have hmem : u.getLast hu ∈ p.chunk := hfirst.subset (getLast_mem hu)
          have hway := (h.fits p (by simp)).inter_of_bonded hmem hbond
          rw [hempty] at hway
          cases hway
  exact hall [] ps rfl (by rw [h.chunks]; exact hm)

end Piece

namespace Block

variable {α : Type} {limit : Nat} {b : Block Numbered} {leaf m : List Numbered}

def leaves : Block α → List (List α)
  | .leaf xs => [xs]
  | .append first second => first.leaves ++ second.leaves
  | .guard _ body => body.leaves

/-- **Bonded records stay together**, whatever guards are put around them. -/
theorem infix_flatten_of_bonded (h : (b.map Prod.fst).Guarded limit) (hleaf : leaf ∈ b.leaves)
    (hm : m <:+: leaf) (hne : m ≠ []) (hbonds : BondedChain m) : m <:+: b.flatten := by
  induction b with
  | leaf xs =>
    obtain rfl := mem_singleton.mp hleaf
    exact hm
  | append first second ih ih' =>
    rcases mem_append.mp hleaf with hleaf | hleaf
    · exact (ih h.1 hleaf).trans (infix_append' [] _ _)
    · exact (ih' h.2 hleaf).trans (suffix_append _ _).isInfix
  | guard wraps body ih =>
    obtain ⟨-, hbody, test, taken, ps, hcut, hflatten, -⟩ := Guarded.exists_cut h
    obtain ⟨p, hp, hchunk⟩ := hcut.exists_chunk_of_bonded (ih hbody hleaf) hne hbonds
    have hwrapped : p.chunk <:+: p.wrapped := ⟨p.wrap.skip.toList, p.wrap.label.toList, rfl⟩
    grind [Piece.infix_flatMap]

theorem mem_leaf_or_isControl (h : (b.map Prod.fst).Guarded limit) {x : Numbered} (hx : x ∈ b.flatten) :
    (∃ leaf ∈ b.leaves, x ∈ leaf) ∨ x.1.IsControl := by
  induction b with
  | leaf xs => exact .inl ⟨xs, mem_singleton.mpr rfl, hx⟩
  | append first second ih ih' =>
    rcases mem_append.mp hx with hx | hx
    · refine (ih h.1 hx).imp_left ?_
      rintro ⟨leaf, hleaf, hx⟩
      exact ⟨leaf, mem_append_left _ hleaf, hx⟩
    · refine (ih' h.2 hx).imp_left ?_
      rintro ⟨leaf, hleaf, hx⟩
      exact ⟨leaf, mem_append_right _ hleaf, hx⟩
  | guard wraps body ih =>
    obtain ⟨-, hbody, test, taken, ps, hcut, hflatten, -⟩ := Guarded.exists_cut h
    rw [hflatten] at hx
    rcases hcut.mem_wrapped hx with ⟨p, hp, hskip⟩ | hx | ⟨label, pos, hx⟩
    · obtain ⟨-, pos, action, target, hx, -⟩ := (hcut.fits p hp).cases.2 x hskip
      rw [hx]
      exact .inr trivial
    · exact ih hbody hx
    · rw [hx]
      exact .inr trivial

end Block

end Grf
