import Grf.Proofs.Skip.Nesting

/-! # Which counted runs stay whole

`Block.Whole` follows the guards around a counted run from the inside out, and `Block.whole_iff` says that it decides
whether the run stands right behind its skip in the end. The one case that is not about what is inserted is a run with
labels at its end, since the labels could become a run of their own that needs no skip. `Fenced` excludes it: such a run
starts with a record that action 9 cannot skip, or a skip comes next after the labels.
-/

namespace Grf

open List

variable {limit : Nat} {x : Numbered × List Numbered}

/-! ## Guarded blocks -/

/-- A list that ends with a label is too long to be skipped by its length. -/
def Sealed (limit : Nat) (xs : List Record) : Prop := ∀ r ∈ xs.getLast?, r.IsMarker → limit < xs.length

def Record.IsCount (limit : Nat) (r : Record) : Prop :=
  match r.body with
  | .skip _ _ target => target ≤ limit
  | _ => False

namespace Block

/-- Every guard of a block has a wrap for each run of the list that it guards, and no other skips count
records. -/
def Guarded (limit : Nat) : Block Record → Prop
  | leaf xs => ∀ r ∈ xs, ¬r.IsCount limit
  | append first second => first.Guarded limit ∧ second.Guarded limit
  | guard wraps body => (∃ test taken, Forall₂ (Wrap.Covers limit test taken) (SkipRun.split body.flatten) wraps) ∧
      Sealed limit body.flatten ∧ body.Guarded limit

/-- A skip and the run it counts are in the same run of every guard around them. -/
def Whole : Block Numbered → Numbered × List Numbered → Prop
  | leaf _, _ => False
  | append first second, x => first.Whole x ∨ second.Whole x
  | guard wraps body, x =>
    x ∈ countedRuns wraps body.flatten ∨
      body.Whole x ∧ ∃ run ∈ numberedRuns body.flatten, x.1 :: x.2 ⊆ run

theorem Whole.mem_counts {b : Block Numbered} (h : b.Whole x) : x ∈ b.counts := by
  induction b with
  | leaf xs => exact h.elim
  | append first second ih ih' => exact mem_append.mpr (h.imp ih ih')
  | guard wraps body ih => exact mem_append.mpr (h.imp_right fun h => ih h.1)

end Block

/-- A skip that counts the records of a run, some of which have to be skipped. -/
structure IsCounted (limit : Nat) (x : Numbered × List Numbered) : Prop where
  skip : ∃ pos action test, x.1.1 = ⟨pos, .skip action test x.2.length⟩ ∧
    (SkipWays.ofAll (x.2.map Prod.fst)).Allows action
  length : x.2.length ≤ limit
  needed : ∃ r ∈ x.2, ¬r.1.IsMarker

theorem IsCounted.action7_or_action9 (h : IsCounted limit x) :
    (∀ r ∈ x.2, r.1.kind.capabilities.byAction7 = true) ∨ ∀ r ∈ x.2, r.1.kind.capabilities.byAction9 = true := by
  obtain ⟨pos, action, test, -, hallows⟩ := h.skip
  cases action with
  | action7 => exact .inl fun r hr => all_eq_true.mp hallows r.1 (mem_map_of_mem hr)
  | action9 => exact .inr fun r hr => all_eq_true.mp hallows r.1 (mem_map_of_mem hr)

/-! ## Labels at the end of a run -/

def SkipNext : List Numbered → Prop
  | [] => False
  | r :: rest => r.1.kind = .skip ∨ r.1.IsMarker ∧ SkipNext rest

theorem SkipNext.action7 {r : Numbered} {rest : List Numbered} (h : SkipNext (r :: rest)) :
    r.1.kind.capabilities.byAction7 = true := by
  obtain hskip | ⟨hmarker, -⟩ := h
  · rw [hskip]
    rfl
  · exact hmarker.action7

theorem skipNext_append {xs ys : List Numbered} :
    SkipNext (xs ++ ys) ↔ SkipNext xs ∨ (∀ r ∈ xs, r.1.IsMarker) ∧ SkipNext ys := by
  induction xs with
  | nil => simp [SkipNext]
  | cons r rest ih =>
    rw [cons_append, SkipNext, SkipNext, ih, forall_mem_cons]
    tauto

theorem not_skipNext_of_markers {xs : List Numbered} (h : ∀ r ∈ xs, r.1.IsMarker) : ¬SkipNext xs := by
  induction xs with
  | nil => exact id
  | cons r rest ih =>
    obtain ⟨hr, hrest⟩ := forall_mem_cons.mp h
    rintro (hskip | ⟨-, hnext⟩)
    · exact Record.not_isMarker_of_skip hskip hr
    · exact ih hrest hnext

/-- A skip with a run behind it, in the list `xs`. If there is a label at the end of the run, then action
9 cannot skip the run, or the next record behind the labels is a skip. -/
def Fenced (xs : List Numbered) (x : Numbered × List Numbered) : Prop := ∃ pre post, xs = pre ++ x.1 :: (x.2 ++ post) ∧
    ((∃ r ∈ x.2.getLast?, r.1.IsMarker) → (∃ r ∈ x.2.head?, r.1.kind.capabilities.byAction9 = false) ∨ SkipNext post)

theorem Fenced.append {xs : List Numbered} (h : Fenced xs x) (pre post : List Numbered) :
    Fenced (pre ++ xs ++ post) x := by
  obtain ⟨pre', post', rfl, hfence⟩ := h
  refine ⟨pre ++ pre', post' ++ post, by simp, fun hlast => ?_⟩
  exact (hfence hlast).imp_right fun hnext => skipNext_append.mpr (.inl hnext)

namespace Piece

variable {test : SkipCondition} {taken : Int → Prop} {p q : Piece} {ps l r : List Piece}
  {ws : List (Wrap Numbered)} {xs : List Numbered} {f : Record → Bool}

section
variable (h : p.Fits limit test taken)
include h

theorem Fits.cases : (p.wrap.skip = none → p.run.ways.none = true) ∧
      ∀ s, p.wrap.skip = some s → p.run.ways.none = false ∧ ∃ pos action target,
        s.1 = ⟨pos, .skip action test target⟩ ∧ p.run.ways.Allows action ∧
        (p.wrap.label = none → target = p.chunk.length ∧ p.chunk.length ≤ limit) ∧
        (target ≤ limit → p.wrap.label = none) := by
  have hlength : p.chunk.length = p.run.records.length := by
    rw [← h.records, length_map]
  have hcovers := h.covers
  generalize hw : p.wrap.map Prod.fst = w at hcovers
  have hskip : w.skip = p.wrap.skip.map Prod.fst := by rw [← hw]; rfl
  have hlabel : w.label = p.wrap.label.map Prod.fst := by rw [← hw]; rfl
  cases hcovers with
  | alone hnone => exact ⟨fun _ => hnone, fun s hs => by simp [hs] at hskip⟩
  | counted pos action haction hnone hlimit =>
    refine ⟨fun hs => by simp [hs] at hskip, fun s hs => ⟨hnone, pos, action, _, ?_, haction,
      fun _ => ⟨by rw [hlength], by omega⟩, fun _ => by simpa using hlabel.symm⟩⟩
    simpa [hs] using hskip.symm
  | labelled pos action label haction hnone _ hfresh =>
    refine ⟨fun hs => by simp [hs] at hskip, fun s hs => ⟨hnone, pos, action, label, ?_, haction,
      fun hnolabel => by simp [hnolabel] at hlabel, fun hshort => absurd hfresh.1 (by omega)⟩⟩
    simpa [hs] using hskip.symm

theorem Fits.label_eq {s : Numbered} (hs : p.wrap.label = some s) : ∃ label pos, s.1 = .ofLabel label pos := by
  have hcovers := h.covers
  generalize hw : p.wrap.map Prod.fst = w at hcovers
  have hlabel : w.label = some s.1 := by rw [← hw, Wrap.map, hs]; rfl
  cases hcovers with
  | alone => cases hlabel
  | counted => cases hlabel
  | labelled pos action label => exact ⟨label, pos, (Option.some.inj hlabel).symm⟩

theorem Fits.forall_chunk (hall : p.run.records.all f = true) : ∀ r ∈ p.chunk, f r.1 = true := by
  grind [h.records]

theorem Fits.all_records (hall : ∀ r ∈ p.chunk, f r.1 = true) : p.run.records.all f = true := by
  rw [← h.records, all_map]
  exact all_eq_true.mpr hall

theorem Fits.isMarker (hskip : p.wrap.skip = none) : ∀ r ∈ p.chunk, r.1.IsMarker := by
  intro r hr
  have hnone := h.cases.1 hskip
  rw [h.valid.ways] at hnone
  exact Record.isMarker_of_not_needsSkip (by simpa using h.forall_chunk hnone r hr)

theorem Fits.action7_of_markers (hmarkers : ∀ r ∈ p.chunk, r.1.IsMarker) : p.run.ways.action7 = true := by
  rw [h.valid.ways]
  exact h.all_records fun r hr => (hmarkers r hr).action7

theorem Fits.action7_or_action9 : p.run.ways.action7 = true ∨ p.run.ways.action9 = true := by
  cases hskip : p.wrap.skip with
  | none => exact .inl (h.action7_of_markers (h.isMarker hskip))
  | some s =>
    obtain ⟨-, pos, action, target, -, haction, -⟩ := h.cases.2 s hskip
    cases action with
    | action7 => exact .inl haction
    | action9 => exact .inr haction

theorem Fits.isCounted (hx : x ∈ p.wrap.counted p.chunk) :
    x.2 = p.chunk ∧ p.wrap.skip = some x.1 ∧ p.wrap.label = none ∧ IsCounted limit x := by
  obtain ⟨s, hs, hlabel, rfl⟩ : ∃ s, p.wrap.skip = some s ∧ p.wrap.label = none ∧ x = (s, p.chunk) := by
    grind [Wrap.counted]
  obtain ⟨hnone, pos, action, target, hskip, haction, hcount, -⟩ := h.cases.2 s hs
  obtain ⟨rfl, hlimit⟩ := hcount hlabel
  refine ⟨rfl, hs, hlabel, ⟨pos, action, test, hskip, ?_⟩, hlimit, ?_⟩
  · rw [h.records, ← h.valid.ways]
    exact haction
  · -- not all records of the run can be left where they are
    by_contra hall
    push Not at hall
    rw [h.valid.ways] at hnone
    have hways : p.run.records.all (!·.kind.capabilities.needsSkip) = true := by
      refine h.all_records fun r hr => ?_
      rw [show r.1.kind = .jumpTarget from hall r hr]
      rfl
    rw [SkipWays.ofAll, hways] at hnone
    cases hnone

end

/-! ### Neighbours -/

theorem Cut.stops (h : Cut limit test taken ws xs (l ++ p :: q :: r)) :
    ∃ s rest, q.chunk = s :: rest ∧ (p.run.ways.inter (.ofKind s.1.kind)).isEmpty = true := by
  have hchain := SkipRun.split_chain (xs.map Prod.fst)
  rw [← h.runs, map_append] at hchain
  obtain ⟨-, hrest, -⟩ := isChain_append.mp hchain
  obtain ⟨⟨r, hr, hempty⟩, -⟩ := isChain_cons_cons.mp hrest
  rw [← (h.fits q (by simp)).records, head?_map] at hr
  obtain ⟨s, hs, rfl⟩ := Option.map_eq_some_iff.mp hr
  obtain ⟨rest, hrest⟩ := head?_eq_some_iff.mp hs
  exact ⟨s, rest, hrest, hempty⟩

theorem Cut.not_action7_of_markers (h : Cut limit test taken ws xs (l ++ p :: q :: r)) (hskip : p.wrap.skip = none) :
    ∃ s rest, q.chunk = s :: rest ∧ s.1.kind.capabilities.byAction7 = false := by
  obtain ⟨s, rest, hrest, hempty⟩ := h.stops
  have hp := h.fits p (by simp)
  simp_all [hp.action7_of_markers, hp.isMarker, SkipWays.isEmpty, SkipWays.inter, SkipWays.ofKind]

/-- No skip comes next within a piece of labels, or behind it. -/
theorem Cut.not_skipNext (h : Cut limit test taken ws xs (l ++ p :: r)) (hskip : p.wrap.skip = none)
    {m : List Numbered} (hm : m ⊆ p.chunk) : ¬SkipNext (m ++ r.flatMap chunk) := by
  intro hnext
  rcases skipNext_append.mp hnext with hnext | ⟨-, hnext⟩
  · exact not_skipNext_of_markers (fun s hs => (h.fits p (by simp)).isMarker hskip s (hm hs)) hnext
  · cases r with
    | nil => exact hnext
    | cons q r =>
      obtain ⟨s, rest, hrest, h7⟩ := h.not_action7_of_markers hskip
      rw [flatMap_cons, hrest] at hnext
      rw [hnext.action7] at h7
      cases h7

section
variable (h : Cut limit test taken ws xs ps)
include h

theorem Cut.not_crosses (hnodup : xs.Nodup) (hx : IsCounted limit x) (hfenced : Fenced xs x) {u v : List Numbered}
    (hcross : Crosses ps (x.1 :: x.2) p q l r u v) : False := by
  obtain ⟨rfl, hu, hv, helements, ⟨u₀, hu₀⟩, ⟨v₁, hv₁⟩, -, hskip⟩ := hcross
  have hp := h.fits p (by simp)
  have hq := h.fits q (by simp)
  have hmarkers := hq.isMarker hskip
  have hq' : Cut limit test taken ws xs ((l ++ [p]) ++ q :: r) := by simpa using h
  -- the piece `q` starts with a label, so only action 9 can skip the piece `p`
  obtain ⟨s, q₁, hq₁, hempty⟩ := h.stops
  have hsmarker : s.1.IsMarker := hmarkers s (by simp [hq₁])
  have hp9 : p.run.ways.action9 = true := by
    refine hp.action7_or_action9.resolve_left fun h7 => ?_
    simp [SkipWays.isEmpty, SkipWays.inter, SkipWays.ofKind, h7, hsmarker.action7] at hempty
  rw [hp.valid.ways] at hp9
  have h9 := hp.forall_chunk hp9
  -- while only action 7 can skip the run, which goes on with that label
  obtain ⟨u₁, rfl, hrun⟩ : ∃ u₁, u = x.1 :: u₁ ∧ x.2 = u₁ ++ v := by
    obtain ⟨a, u₁, rfl⟩ := exists_cons_of_ne_nil hu
    obtain ⟨rfl, hrun⟩ := List.cons.inj helements
    exact ⟨u₁, rfl, hrun⟩
  have hsv : s ∈ v := by
    obtain ⟨a, v₂, rfl⟩ := exists_cons_of_ne_nil hv
    rw [flatMap_cons, hq₁] at hv₁
    obtain ⟨rfl, -⟩ := List.cons.inj hv₁
    simp
  have h7 : ∀ r ∈ x.2, r.1.kind.capabilities.byAction7 = true := by
    refine hx.action7_or_action9.resolve_right fun h9 => ?_
    grind [hsmarker.action9]
  -- so the run ends in the piece `q`
  obtain ⟨v₂, hv₂⟩ : v <+: q.chunk := by
    rw [flatMap_cons] at hv₁
    rcases append_eq_append_iff.mp hv₁ with ⟨t, ht, -⟩ | ⟨t, ht, ht'⟩
    · exact ⟨t, ht.symm⟩
    · cases t with
      | nil => exact ⟨[], by simpa using ht⟩
      | cons a t =>
        cases r with
        | nil => cases ht'
        | cons q' r =>
          obtain ⟨b, q₂, hq₂, hb7⟩ := hq'.not_action7_of_markers hskip
          rw [flatMap_cons, hq₂] at ht'
          obtain ⟨rfl, -⟩ := List.cons.inj ht'
          grind
  have hvmarkers : ∀ r ∈ v, r.1.IsMarker := fun r hr => hmarkers r (by simp [← hv₂, hr])
  -- it starts with a record of `p` and ends with a label, so a skip comes next
  obtain ⟨pre, post, hxs, hfence⟩ := hfenced
  have hnext : SkipNext post := by
    refine (hfence ?_).resolve_left ?_
    · obtain ⟨v₃, a, rfl⟩ := eq_nil_or_concat v |>.resolve_left hv
      exact ⟨a, by simp [hrun], hvmarkers a (by simp)⟩
    · rintro ⟨a, ha, ha9⟩
      cases u₁ with
      | nil => grind [hx.needed]
      | cons b u₁ =>
        obtain rfl : b = a := by simpa [hrun] using ha
        rw [h9 b (by simp [← hu₀])] at ha9
        cases ha9
  have hpost : post = v₂ ++ r.flatMap chunk := by
    have hplace : pre ++ x.1 :: (x.2 ++ post) = (l.flatMap chunk ++ u₀) ++ x.1 :: (x.2 ++ (v₂ ++ r.flatMap chunk)) := by
      rw [← hxs, ← h.chunks, hrun]
      simp [← hu₀, ← hv₂]
    exact append_cancel_left (tail_eq_of_nodup (hxs ▸ hnodup) hplace)
  -- but no skip can come next behind a piece of labels
  rw [hpost] at hnext
  exact hq'.not_skipNext hskip (fun r hr => by simp [← hv₂, hr]) hnext

theorem Cut.fenced_of_isInfix (hnodup : xs.Nodup) (hp : p ∈ ps)
    (hpart : x.1 :: x.2 <:+: p.chunk) (hfenced : Fenced xs x) : Fenced (ps.flatMap wrapped) x := by
  obtain ⟨l, r, rfl⟩ := append_of_mem hp
  obtain ⟨a, b, hab⟩ := hpart
  obtain ⟨pre, post, hxs, hfence⟩ := hfenced
  have hpost : post = b ++ r.flatMap chunk := by
    have hplace : pre ++ x.1 :: (x.2 ++ post) = (l.flatMap chunk ++ a) ++ x.1 :: (x.2 ++ (b ++ r.flatMap chunk)) := by
      rw [← hxs, ← h.chunks]
      simp [← hab]
    exact append_cancel_left (tail_eq_of_nodup (hxs ▸ hnodup) hplace)
  refine ⟨l.flatMap wrapped ++ p.wrap.skip.toList ++ a, b ++ (p.wrap.label.toList ++ r.flatMap wrapped),
    by simp [wrapped, Wrap.apply, ← hab], fun hlast => (hfence hlast).imp_right fun hnext => ?_⟩
  rw [hpost, skipNext_append] at hnext
  refine skipNext_append.mpr (hnext.imp_right (And.imp_right fun hnext => ?_))
  -- only the label of the piece can come before the skip of the next one
  refine skipNext_append.mpr (.inr ⟨fun s hs => ?_, ?_⟩)
  · obtain ⟨label, pos, hs⟩ := (h.fits p hp).label_eq (s := s) (by simpa using hs)
    rw [hs]
    rfl
  · cases r with
    | nil => exact hnext
    | cons q r =>
      have hq := h.fits q (by simp)
      have hq' : Cut limit test taken ws xs ((l ++ [p]) ++ q :: r) := by simpa using h
      cases hskip : q.wrap.skip with
      | none => exact (hq'.not_skipNext hskip (Subset.refl _) hnext).elim
      | some s =>
        obtain ⟨-, pos, action, target, hs, -⟩ := hq.cases.2 s hskip
        rw [flatMap_cons, wrapped, Wrap.apply, hskip]
        exact .inl (by rw [hs]; rfl)

theorem Cut.fenced_counted (hsealed : Sealed limit (xs.map Prod.fst))
    (hp : p ∈ ps) (hx : x ∈ p.wrap.counted p.chunk) : Fenced (ps.flatMap wrapped) x := by
  obtain ⟨l, r, rfl⟩ := append_of_mem hp
  have hfits := h.fits p hp
  obtain ⟨hchunk, hskip, hlabel, hcounted⟩ := hfits.isCounted hx
  refine ⟨l.flatMap wrapped, r.flatMap wrapped, by simp [wrapped, Wrap.apply, hskip, hlabel, hchunk], ?_⟩
  rintro ⟨a, ha, hmarker⟩
  -- only action 7 can skip the label at the end
  have h7 : p.run.ways.action7 = true := by
    refine hfits.action7_or_action9.resolve_right fun h9 => ?_
    rw [hfits.valid.ways] at h9
    have ha9 := hfits.forall_chunk h9 a (hchunk ▸ mem_of_getLast? ha)
    rw [hmarker.action9] at ha9
    cases ha9
  cases r with
  | cons q r =>
    -- the next piece starts with a record that action 7 cannot skip, hence with a skip of its own
    obtain ⟨b, q₁, hq₁, hempty⟩ := h.stops
    have hq := h.fits q (by simp)
    have hb7 : b.1.kind.capabilities.byAction7 = false := by
      simp_all [SkipWays.isEmpty, SkipWays.inter, SkipWays.ofKind]
    cases hskip : q.wrap.skip with
    | none =>
      rw [(hq.isMarker hskip b (by simp [hq₁])).action7] at hb7
      cases hb7
    | some s =>
      obtain ⟨-, pos, action, target, hs, -⟩ := hq.cases.2 s hskip
      rw [flatMap_cons, wrapped, Wrap.apply, hskip]
      exact .inr (.inl (by rw [hs]; rfl))
  | nil =>
    rcases eq_nil_or_concat l with rfl | ⟨l, o, rfl⟩
    · -- the only piece is the whole list, which is too long to be counted
      have hxs : xs = x.2 := by rw [← h.chunks, hchunk]; simp
      have hlong := hsealed a.1 (by rw [hxs, getLast?_map, ha]; rfl) hmarker
      grind [hcounted.length]
    · -- the piece before it has no way in common with its first record, which action 7 can skip
      have h' : Cut limit test taken ws xs (l ++ o :: p :: []) := by simpa using h
      obtain ⟨b, p₁, hp₁, hempty⟩ := h'.stops
      refine .inl ⟨b, by rw [hchunk, hp₁]; rfl, ?_⟩
      rw [hfits.valid.ways] at h7
      have hb7 : b.1.kind.capabilities.byAction7 = true := hfits.forall_chunk h7 b (by simp [hp₁])
      have ho := (h.fits o (by simp)).action7_or_action9
      simp_all [SkipWays.isEmpty, SkipWays.inter, SkipWays.ofKind]

theorem Cut.exists_infix_chunk (hnodup : (ps.flatMap wrapped).Nodup) (hx : IsCounted limit x) (hsub : x.1 :: x.2 ⊆ xs)
    (hfenced : x.1 :: x.2 <:+: xs → Fenced xs x) (hpart : x.1 :: x.2 <:+: ps.flatMap wrapped) :
    ∃ p ∈ ps, x.1 :: x.2 <:+: p.chunk := by
  have hnodup' : xs.Nodup := by
    grind [h.chunks, wrapped_perm]
  have hpart' : x.1 :: x.2 <:+: ps.flatMap chunk := infix_chunks hnodup hpart (by rwa [h.chunks])
  rcases mem_chunk_or_crosses hnodup (by simp) hpart hpart' with hpiece | ⟨p, q, l, r, u, v, hcross⟩
  · exact hpiece
  · exact (h.not_crosses hnodup' hx (hfenced (h.chunks ▸ hpart')) hcross).elim

end

theorem infix_flatMap (hp : p ∈ ps) (f : Piece → List Numbered) : f p <:+: ps.flatMap f :=
  infix_of_mem_flatten (mem_map_of_mem hp)

theorem Cut.mem_wrapped (h : Cut limit test taken ws xs ps) {s : Numbered} (hs : s ∈ ps.flatMap wrapped) :
    (∃ p ∈ ps, p.wrap.skip = some s) ∨ s ∈ xs ∨ ∃ label pos, s.1 = .ofLabel label pos := by
  obtain ⟨p, hp, hs⟩ := mem_flatMap.mp hs
  rw [wrapped, Wrap.apply, append_assoc, mem_append, mem_append] at hs
  rcases hs with hs | hs | hs
  · exact .inl ⟨p, hp, by simpa using hs⟩
  · exact .inr (.inl (h.chunks ▸ (infix_flatMap hp chunk).subset hs))
  · exact .inr (.inr ((h.fits p hp).label_eq (by simpa using hs)))

theorem infix_chunk_of_subset {m : List Numbered} (hnodup : (ps.flatMap chunk).Nodup) (hp : p ∈ ps)
    (h : m <:+: ps.flatMap chunk) (hsub : m ⊆ p.chunk) : m <:+: p.chunk := by
  obtain ⟨l, r, rfl⟩ := append_of_mem hp
  rw [flatMap_append, flatMap_cons] at hnodup h
  grind [infix_right_of_nodup, infix_left_of_nodup]

end Piece

namespace Block

open Piece

variable {b : Block Numbered}

theorem Guarded.exists_cut {wraps : List (Wrap Numbered)} {body : Block Numbered}
    (h : ((guard wraps body).map Prod.fst).Guarded limit) :
    Sealed limit (body.flatten.map Prod.fst) ∧ (body.map Prod.fst).Guarded limit ∧
      ∃ test taken ps, Cut limit test taken wraps body.flatten ps ∧
        (guard wraps body).flatten = ps.flatMap Piece.wrapped ∧
        countedRuns wraps body.flatten = ps.flatMap fun p => p.wrap.counted p.chunk := by
  obtain ⟨⟨test, taken, hcovers⟩, hsealed, hbody⟩ := h
  rw [flatten_map] at hcovers hsealed
  obtain ⟨ps, hcut⟩ := Piece.exists_cut hcovers
  refine ⟨hsealed, hbody, test, taken, ps, hcut, ?_, ?_⟩
  · rw [flatten, ← hcut.chunks, ← hcut.wraps]
    exact wrapAll_eq hcut.fits
  · rw [← hcut.chunks, ← hcut.wraps]
    exact countedRuns_eq hcut.fits

variable (h : (b.map Prod.fst).Guarded limit)
include h

theorem mem_counts (hx : x ∈ b.counts) : IsCounted limit x ∧ x.1 :: x.2 ⊆ b.flatten := by
  induction b with
  | leaf xs => cases hx
  | append first second ih ih' =>
    rcases mem_append.mp hx with hx | hx
    · obtain ⟨hcounted, hsub⟩ := ih h.1 hx
      exact ⟨hcounted, fun y hy => mem_append_left _ (hsub hy)⟩
    · obtain ⟨hcounted, hsub⟩ := ih' h.2 hx
      exact ⟨hcounted, fun y hy => mem_append_right _ (hsub hy)⟩
  | guard wraps body ih =>
    obtain ⟨-, hbody, test, taken, ps, hcut, hflatten, hcounts⟩ := Guarded.exists_cut h
    rw [hflatten]
    rcases mem_append.mp hx with hx | hx
    · rw [hcounts] at hx
      obtain ⟨p, hp, hx⟩ := mem_flatMap.mp hx
      obtain ⟨hchunk, hskip, -, hcounted⟩ := (hcut.fits p hp).isCounted hx
      grind [Piece.wrapped, Wrap.apply]
    grind [chunk_subset_wrapped, hcut.chunks]

theorem exists_mem_counts {s : Numbered} (hs : s ∈ b.flatten)
    (hcount : s.1.IsCount limit) : ∃ run, (s, run) ∈ b.counts := by
  induction b with
  | leaf xs => exact absurd hcount (h s.1 (mem_map_of_mem hs))
  | append first second ih ih' =>
    rcases mem_append.mp hs with hs | hs
    · obtain ⟨run, hrun⟩ := ih h.1 hs
      exact ⟨run, mem_append_left _ hrun⟩
    · obtain ⟨run, hrun⟩ := ih' h.2 hs
      exact ⟨run, mem_append_right _ hrun⟩
  | guard wraps body ih =>
    obtain ⟨-, hbody, test, taken, ps, hcut, hflatten, hcounts⟩ := Guarded.exists_cut h
    rw [hflatten] at hs
    rcases hcut.mem_wrapped hs with ⟨p, hp, hskip⟩ | hs | ⟨label, pos, hs⟩
    · obtain ⟨-, pos, action, target, hs, -, -, hlabel⟩ := (hcut.fits p hp).cases.2 s hskip
      rw [hs] at hcount
      refine ⟨p.chunk, mem_append_left _ ?_⟩
      rw [hcounts]
      refine mem_flatMap.mpr ⟨p, hp, ?_⟩
      simp [Wrap.counted, hskip, hlabel hcount]
    · obtain ⟨run, hrun⟩ := ih hbody hs
      exact ⟨run, mem_append_right _ hrun⟩
    · rw [hs] at hcount
      cases hcount

theorem fenced_of_isInfix (hnodup : b.flatten.Nodup)
    (hx : x ∈ b.counts) (hpart : x.1 :: x.2 <:+: b.flatten) : Fenced b.flatten x := by
  induction b with
  | leaf xs => cases hx
  | append first second ih ih' =>
    obtain ⟨hfirst, hsecond, -⟩ := nodup_append.mp hnodup
    rcases mem_append.mp hx with hx | hx
    · have hleft := infix_left_of_nodup hnodup hpart (mem_counts h.1 hx).2
      simpa [flatten] using (ih h.1 hfirst hx hleft).append [] second.flatten
    · have hright := infix_right_of_nodup hnodup hpart (mem_counts h.2 hx).2
      simpa [flatten] using (ih' h.2 hsecond hx hright).append first.flatten []
  | guard wraps body ih =>
    obtain ⟨hsealed, hbody, test, taken, ps, hcut, hflatten, hcounts⟩ := Guarded.exists_cut h
    rw [hflatten] at hpart hnodup ⊢
    have hnodup' : body.flatten.Nodup := by
      grind [hcut.chunks, wrapped_perm]
    rcases mem_append.mp hx with hx | hx
    · grind [hcut.fenced_counted]
    · obtain ⟨hcounted, hsub⟩ := mem_counts hbody hx
      have hfenced := ih hbody hnodup' hx
      obtain ⟨p, hp, hchunk⟩ := hcut.exists_infix_chunk hnodup hcounted hsub hfenced hpart
      refine hcut.fenced_of_isInfix hnodup' hp hchunk (hfenced ?_)
      rw [← hcut.chunks]
      exact hchunk.trans (infix_flatMap hp chunk)

/-- **A counted run stands right behind its skip exactly if both are in the same run of every guard
around them.** -/
theorem whole_iff (hnodup : b.flatten.Nodup) (hx : x ∈ b.counts) : x.1 :: x.2 <:+: b.flatten ↔ b.Whole x := by
  induction b with
  | leaf xs => cases hx
  | append first second ih ih' =>
    obtain ⟨hfirst, hsecond, hdisjoint⟩ := nodup_append.mp hnodup
    rcases mem_append.mp hx with hx | hx
    · have hsub := (mem_counts h.1 hx).2
      have hother : ¬second.Whole x := fun hwhole =>
        hdisjoint x.1 (hsub (by simp)) x.1 ((mem_counts h.2 hwhole.mem_counts).2 (by simp)) rfl
      rw [Whole, or_iff_left hother, ← ih h.1 hfirst hx]
      exact ⟨fun hpart => infix_left_of_nodup hnodup hpart hsub, fun hpart => hpart.trans (infix_append' [] _ _)⟩
    · have hsub := (mem_counts h.2 hx).2
      have hother : ¬first.Whole x := fun hwhole =>
        hdisjoint x.1 ((mem_counts h.1 hwhole.mem_counts).2 (by simp)) x.1 (hsub (by simp)) rfl
      rw [Whole, or_iff_right hother, ← ih' h.2 hsecond hx]
      exact ⟨fun hpart => infix_right_of_nodup hnodup hpart hsub, fun hpart => hpart.trans (suffix_append _ _).isInfix⟩
  | guard wraps body ih =>
    obtain ⟨-, hbody, test, taken, ps, hcut, hflatten, hcounts⟩ := Guarded.exists_cut h
    have hnodup' : (ps.flatMap chunk).Nodup := by
      grind [wrapped_perm]
    rw [Whole, hflatten, hcounts, hcut.numberedRuns_eq]
    constructor
    · intro hpart
      rcases mem_append.mp hx with hx | hx
      · exact .inl (hcounts ▸ hx)
      · obtain ⟨hcounted, hsub⟩ := mem_counts hbody hx
        rw [hflatten] at hnodup
        rw [hcut.chunks] at hnodup'
        obtain ⟨p, hp, hchunk⟩ := hcut.exists_infix_chunk hnodup hcounted hsub
          (fenced_of_isInfix hbody hnodup' hx) hpart
        refine .inr ⟨(ih hbody hnodup' hx).mp ?_, p.chunk, mem_map_of_mem hp, hchunk.subset⟩
        rw [← hcut.chunks]
        exact hchunk.trans (infix_flatMap hp chunk)
    · rintro (hx | ⟨hwhole, run, hrun, hsub⟩)
      · obtain ⟨p, hp, hx⟩ := mem_flatMap.mp hx
        obtain ⟨hchunk, hskip, hlabel, -⟩ := (hcut.fits p hp).isCounted hx
        refine IsInfix.trans ?_ (infix_flatMap hp Piece.wrapped)
        rw [Piece.wrapped, Wrap.apply, hskip, hlabel, hchunk]
        simp
      · obtain ⟨p, hp, rfl⟩ := mem_map.mp hrun
        have hpart := (ih hbody (hcut.chunks ▸ hnodup') hwhole.mem_counts).mpr hwhole
        rw [← hcut.chunks] at hpart
        refine (infix_chunk_of_subset hnodup' hp hpart hsub).trans (IsInfix.trans ?_ (infix_flatMap hp Piece.wrapped))
        exact ⟨p.wrap.skip.toList, p.wrap.label.toList, rfl⟩

end Block

end Grf
