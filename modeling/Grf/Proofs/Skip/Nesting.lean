import Mathlib.Data.List.Chain
import Grf.Proofs.Skip.Block

/-! # Counted runs inside of other guards

A skip that counts the records of its run drops the records that follow it in the end, when all guards around it have
inserted their own skips and labels. These are the records of its run exactly if, for every guard around it, the skip
and its run are in the same run of that guard (`Block.whole_iff`). If they are not, something is inserted where one of
the runs of the outer guard ends, unless that run needs no label and the next one needs no skip. The next one would have
to consist of labels, and then it would have taken in the first record after them as well.
-/

namespace Grf

open List

/-! ## The longest runs -/

def Record.IsMarker (r : Record) : Prop := r.kind = .jumpTarget

variable {r : Record} {ws : List (Wrap Numbered)} {xs : List Numbered}

theorem Record.not_isMarker_of_skip (h : r.kind = .skip) : ¬r.IsMarker := by
  unfold IsMarker
  rw [h]
  decide

theorem Record.IsMarker.action7 (h : r.IsMarker) : r.kind.capabilities.byAction7 = true := by
  rw [h]
  rfl

theorem Record.IsMarker.action9 (h : r.IsMarker) : r.kind.capabilities.byAction9 = false := by
  rw [h]
  rfl

theorem Record.isMarker_of_not_needsSkip (h : r.kind.capabilities.needsSkip = false) : r.IsMarker := by
  unfold IsMarker
  cases hk : r.kind <;> rw [hk] at h <;> first | rfl | cases h

namespace SkipRun

/-- A run has taken in all records that it can: it has no way in common with the first one of the next
run. -/
def Stops (run next : SkipRun) : Prop :=
  ∃ r, next.records.head? = some r ∧ (run.ways.inter (.ofKind r.kind)).isEmpty = true

theorem splitFrom_chain {run : SkipRun} (hrun : run.Valid) (rs : List Record) :
    ∃ first rest, splitFrom run rs = first :: rest ∧ run.records <+: first.records ∧ IsChain Stops (first :: rest) := by
  induction rs generalizing run with
  | nil => exact ⟨run, [], rfl, prefix_refl _, .singleton _⟩
  | cons r rs ih =>
    unfold splitFrom
    cases hext : run.extend? r with
    | some longer =>
      obtain ⟨hvalid, hrecords⟩ := extend?_valid hext hrun
      obtain ⟨first, rest, hsplit, hpre, hchain⟩ := ih hvalid
      refine ⟨first, rest, hsplit, ?_, hchain⟩
      exact (hrecords ▸ prefix_append _ _ : run.records <+: longer.records).trans hpre
    | none =>
      obtain ⟨first, rest, hsplit, hpre, hchain⟩ := ih (single_valid r)
      refine ⟨run, first :: rest, by rw [← hsplit], prefix_refl _, ?_⟩
      refine isChain_cons_cons.mpr ⟨⟨r, ?_, ?_⟩, hchain⟩
      · obtain ⟨tail, htail⟩ := hpre
        rw [← htail]
        rfl
      grind [extend?]

theorem split_chain (rs : List Record) : IsChain Stops (split rs) := by
  cases rs with
  | nil => exact .nil
  | cons r rs =>
    obtain ⟨first, rest, hsplit, -, hchain⟩ := splitFrom_chain (single_valid r) rs
    show IsChain Stops (splitFrom (single r) rs)
    rw [hsplit]
    exact hchain

end SkipRun

/-! ## Pieces -/

abbrev Numbered := Record × Nat

/-- A run of a guarded list, what is put around it, and the part of the numbered list that it is. -/
structure Piece where
  run : SkipRun
  wrap : Wrap Numbered
  chunk : List Numbered

namespace Piece

variable {limit : Nat} {test : SkipCondition} {taken : Int → Prop} {p q : Piece} {ps qs : List Piece}

def wrapped (p : Piece) : List Numbered := p.wrap.apply p.chunk

/-- The parts of a piece belong together. -/
structure Fits (limit : Nat) (test : SkipCondition) (taken : Int → Prop) (p : Piece) : Prop where
  valid : p.run.Valid
  records : p.chunk.map Prod.fst = p.run.records
  covers : (p.wrap.map Prod.fst).Covers limit test taken p.run

theorem Fits.length (h : p.Fits limit test taken) : p.wrap.length = p.chunk.length := by
  have hlength : p.wrap.length = p.run.records.length := h.covers.length
  rw [hlength, ← h.records, length_map]

/-- The pieces of a guarded list. -/
structure Cut (limit : Nat) (test : SkipCondition) (taken : Int → Prop) (ws : List (Wrap Numbered))
    (xs : List Numbered) (ps : List Piece) : Prop where
  runs : ps.map run = SkipRun.split (xs.map Prod.fst)
  wraps : ps.map wrap = ws
  chunks : ps.flatMap chunk = xs
  fits : ∀ p ∈ ps, p.Fits limit test taken

theorem exists_cut (h : Forall₂ (Wrap.Covers limit test taken) (SkipRun.split (xs.map Prod.fst))
      (ws.map (·.map Prod.fst))) : ∃ ps, Cut limit test taken ws xs ps := by
  have hall : ∀ {runs : List SkipRun} {ws : List (Wrap Numbered)} {xs : List Numbered},
      Forall₂ (Wrap.Covers limit test taken) runs (ws.map (·.map Prod.fst)) →
      (∀ run ∈ runs, run.Valid) → xs.map Prod.fst = runs.flatMap (·.records) →
      ∃ ps : List Piece, ps.map run = runs ∧ ps.map wrap = ws ∧ ps.flatMap chunk = xs ∧
        ∀ p ∈ ps, p.Fits limit test taken := by
    intro runs ws xs hws hvalid hxs
    induction runs generalizing ws xs with
    | nil =>
      have hnil : ws = [] := by simpa using forall₂_nil_left_iff.mp hws
      exact ⟨[], rfl, hnil.symm, (map_eq_nil_iff.mp hxs).symm, by simp⟩
    | cons run runs ih =>
      cases ws with
      | nil => cases hws
      | cons w ws =>
        obtain ⟨hw, hws⟩ := forall₂_cons.mp hws
        obtain ⟨hrun, hvalid⟩ := forall_mem_cons.mp hvalid
        obtain ⟨chunk, rest, rfl, hchunk, hrest⟩ := map_eq_append_iff.mp hxs
        obtain ⟨ps, rfl, rfl, rfl, hfits⟩ := ih hws hvalid hrest
        exact ⟨⟨run, w, chunk⟩ :: ps, rfl, rfl, rfl, forall_mem_cons.mpr ⟨⟨hrun, hchunk, hw⟩, hfits⟩⟩
  obtain ⟨ps, hruns, hwraps, hchunks, hfits⟩ := hall h SkipRun.split_valid (SkipRun.split_records _).symm
  exact ⟨ps, hruns, hwraps, hchunks, hfits⟩

theorem wrapAll_eq (h : ∀ p ∈ ps, p.Fits limit test taken) :
    wrapAll (ps.map wrap) (ps.flatMap chunk) = ps.flatMap wrapped := by
  induction ps with
  | nil => rfl
  | cons p ps ih =>
    obtain ⟨hp, hps⟩ := forall_mem_cons.mp h
    rw [map_cons, flatMap_cons, wrapAll_cons hp.length, ih hps]
    rfl

theorem countedRuns_eq (h : ∀ p ∈ ps, p.Fits limit test taken) :
    countedRuns (ps.map wrap) (ps.flatMap chunk) = ps.flatMap fun p => p.wrap.counted p.chunk := by
  induction ps with
  | nil => rfl
  | cons p ps ih =>
    obtain ⟨hp, hps⟩ := forall_mem_cons.mp h
    grind [countedRuns, hp.length]

end Piece

def numberedRuns (xs : List Numbered) : List (List Numbered) :=
  ((SkipRun.split (xs.map Prod.fst)).map (·.records.length)).splitLengths xs

theorem Piece.Cut.numberedRuns_eq {limit : Nat} {test : SkipCondition} {taken : Int → Prop} {ps : List Piece}
    (h : Cut limit test taken ws xs ps) : numberedRuns xs = ps.map chunk := by
  have hall : ∀ {ps : List Piece}, (∀ p ∈ ps, p.Fits limit test taken) →
      ((ps.map run).map (·.records.length)).splitLengths (ps.flatMap chunk) = ps.map chunk := by
    intro ps hps
    induction ps with
    | nil => rfl
    | cons p ps ih =>
      obtain ⟨hp, hps⟩ := forall_mem_cons.mp hps
      have hlength : p.run.records.length = p.chunk.length := by
        rw [← hp.records, length_map]
      grind [splitLengths_cons]
  unfold numberedRuns
  rw [← h.runs]
  conv_lhs => rw [← h.chunks]
  exact hall h.fits

section Contiguous

variable {α : Type} {l m xs ys : List α}

theorem infix_filter_of_infix {p : α → Bool} (h : m <:+: l) (hm : ∀ x ∈ m, p x = true) : m <:+: l.filter p := by
  have hpart := h.filter p
  rwa [filter_eq_self.mpr hm] at hpart

theorem infix_left_of_nodup (hnodup : (xs ++ ys).Nodup) (h : m <:+: xs ++ ys) (hsub : m ⊆ xs) : m <:+: xs := by
  classical
  have hfilter : (xs ++ ys).filter (· ∈ xs) = xs := by
    rw [filter_append, filter_eq_self.mpr (by simp), filter_eq_nil_iff.mpr, append_nil]
    intro y hy
    simpa using fun hx => (nodup_append.mp hnodup).2.2 y hx y hy rfl
  exact hfilter ▸ infix_filter_of_infix h fun x hx => by simpa using hsub hx

theorem infix_right_of_nodup (hnodup : (xs ++ ys).Nodup) (h : m <:+: xs ++ ys) (hsub : m ⊆ ys) : m <:+: ys := by
  grind [reverse_append, nodup_reverse, infix_left_of_nodup]

theorem tail_eq_of_nodup {x : α} {pre pre' post post' : List α} (hnodup : (pre ++ x :: post).Nodup)
    (h : pre ++ x :: post = pre' ++ x :: post') : post = post' := by
  obtain ⟨-, hcons, hdisjoint⟩ := nodup_append.mp hnodup
  have hpre : x ∉ pre := fun hx => hdisjoint x hx x (by simp) rfl
  exact ((append_cons_inj_of_notMem hpre (nodup_cons.mp hcons).1).mp h).2.2

end Contiguous

namespace Piece

variable {ps : List Piece} {m : List Numbered}

theorem chunk_subset_wrapped (ps : List Piece) : ps.flatMap chunk ⊆ ps.flatMap wrapped := by
  grind [wrapped, Wrap.apply]

theorem wrapped_perm (ps : List Piece) :
    (ps.flatMap wrapped).Perm (ps.flatMap (·.wrap.inserted) ++ ps.flatMap chunk) := by
  classical
  rw [perm_iff_count]
  intro a
  induction ps with
  | nil => rfl
  | cons p ps ih => grind [wrapped, Wrap.apply, Wrap.inserted]

theorem infix_chunks (hnodup : (ps.flatMap wrapped).Nodup) (h : m <:+: ps.flatMap wrapped)
    (hsub : m ⊆ ps.flatMap chunk) : m <:+: ps.flatMap chunk := by
  classical
  obtain ⟨-, -, hdisjoint⟩ := nodup_append.mp ((wrapped_perm ps).nodup_iff.mp hnodup)
  have hfilter : ∀ {qs : List Piece}, qs ⊆ ps →
      (qs.flatMap wrapped).filter (· ∈ ps.flatMap chunk) = qs.flatMap chunk := by
    intro qs hqs
    induction qs with
    | nil => rfl
    | cons q qs ih =>
      have hinserted : ∀ x ∈ q.wrap.inserted, x ∉ ps.flatMap chunk := fun x hx hx' =>
        hdisjoint x (mem_flatMap.mpr ⟨q, hqs (by simp), hx⟩) x hx' rfl
      have hskip : q.wrap.skip.toList.filter (· ∈ ps.flatMap chunk) = [] := filter_eq_nil_iff.mpr fun x hx => by
          simpa using hinserted x (mem_append_left _ hx)
      have hlabel : q.wrap.label.toList.filter (· ∈ ps.flatMap chunk) = [] := filter_eq_nil_iff.mpr fun x hx => by
          simpa using hinserted x (mem_append_right _ hx)
      have hchunk : q.chunk.filter (· ∈ ps.flatMap chunk) = q.chunk := filter_eq_self.mpr fun x hx => by
          simpa using ⟨q, hqs (by simp), hx⟩
      rw [flatMap_cons, filter_append, ih fun p hp => hqs (by simp [hp])]
      simp only [wrapped, Wrap.apply, filter_append, hskip, hlabel, hchunk, nil_append, append_nil, flatMap_cons]
  exact hfilter (Subset.refl ps) ▸ infix_filter_of_infix h fun x hx => by simpa using hsub hx

/-- The elements `m` begin in the piece `p` and go on in the next one, `q`, and nothing is inserted
between the two pieces. -/
structure Crosses (ps : List Piece) (m : List Numbered) (p q : Piece) (l r : List Piece)
    (u v : List Numbered) : Prop where
  pieces : ps = l ++ p :: q :: r
  first_ne : u ≠ []
  second_ne : v ≠ []
  elements : m = u ++ v
  first : u <:+ p.chunk
  second : v <+: (q :: r).flatMap chunk
  label : p.wrap.label = none
  skip : q.wrap.skip = none

theorem inserted_eq_none {p q : Piece} {r : List Piece} {u v : List Numbered}
    (hnodup : ((p :: q :: r).flatMap wrapped).Nodup) (hu : u ≠ []) (hv : v ≠ []) (hfirst : u <:+ p.chunk)
    (hsecond : v <+: (q :: r).flatMap chunk) (h : u ++ v <:+: (p :: q :: r).flatMap wrapped) :
    p.wrap.label = none ∧ q.wrap.skip = none := by
  obtain ⟨u, a, rfl⟩ := eq_nil_or_concat u |>.resolve_left hu
  obtain ⟨b, v, rfl⟩ := exists_cons_of_ne_nil hv
  obtain ⟨start, hstart⟩ := hfirst
  obtain ⟨pre, post, hpost⟩ := h
  have hb : b ∈ (q :: r).flatMap chunk := hsecond.subset (by simp)
  -- what comes after `a` in the guarded list is `b`
  have hlist : (p :: q :: r).flatMap wrapped =
      (p.wrap.skip.toList ++ start ++ u) ++ a :: (p.wrap.label.toList ++ (q :: r).flatMap wrapped) := by
    rw [flatMap_cons, wrapped, Wrap.apply, ← hstart]
    simp
  rw [hlist] at hnodup hpost
  have hplace : (p.wrap.skip.toList ++ start ++ u) ++
      a :: (p.wrap.label.toList ++ (q :: r).flatMap wrapped) = (pre ++ u) ++ a :: b :: (v ++ post) := by
    rw [← hpost]
    simp
  have htail := tail_eq_of_nodup hnodup hplace
  have hrest : (p.wrap.label.toList ++ (q :: r).flatMap wrapped).Nodup := (nodup_cons.mp (nodup_append.mp hnodup).2.1).2
  cases hlabel : p.wrap.label with
  | some label =>
    rw [hlabel] at htail hrest
    obtain ⟨rfl, -⟩ := List.cons.inj htail
    exact absurd (chunk_subset_wrapped (q :: r) hb) (nodup_cons.mp hrest).1
  | none =>
    rw [hlabel] at htail hrest
    cases hskip : q.wrap.skip with
    | some skip =>
      have hnext : (q :: r).flatMap wrapped = skip :: (q.chunk ++ q.wrap.label.toList ++ r.flatMap wrapped) := by
        simp [wrapped, Wrap.apply, hskip]
      rw [hnext] at htail hrest
      obtain ⟨rfl, -⟩ := List.cons.inj htail
      have hmem : skip ∈ q.chunk ++ q.wrap.label.toList ++ r.flatMap wrapped := by
        rcases mem_append.mp hb with hb | hb
        · simp [hb]
        · exact mem_append_right _ (chunk_subset_wrapped r hb)
      exact absurd hmem (nodup_cons.mp hrest).1
    | none => exact ⟨rfl, rfl⟩

/-- Elements that follow each other in a guarded list are in one piece, or nothing is inserted between the
first two pieces that they are in. -/
theorem mem_chunk_or_crosses (hnodup : (ps.flatMap wrapped).Nodup) (hm : m ≠ [])
    (h : m <:+: ps.flatMap wrapped) (hsub : m <:+: ps.flatMap chunk) :
    (∃ p ∈ ps, m <:+: p.chunk) ∨ ∃ p q l r u v, Crosses ps m p q l r u v := by
  induction ps with
  | nil => exact absurd (infix_nil.mp hsub) hm
  | cons p ps ih =>
    rcases infix_append_iff_ne_nil.mp hsub with hp | hps | ⟨u, v, hu, hv, rfl, hfirst, hsecond⟩
    · exact .inl ⟨p, by simp, hp⟩
    · have hrest : m <:+: ps.flatMap wrapped :=
        infix_right_of_nodup hnodup h fun x hx => chunk_subset_wrapped ps (hps.subset hx)
      rcases ih (nodup_append.mp hnodup).2.1 hrest hps with
        ⟨q, hq, hm⟩ | ⟨p', q, l, r, u, v, hcross⟩
      · exact .inl ⟨q, by simp [hq], hm⟩
      · exact .inr ⟨p', q, p :: l, r, u, v, { hcross with pieces := by rw [hcross.pieces]; rfl }⟩
    · cases ps with
      | nil => exact absurd (prefix_nil.mp hsecond) hv
      | cons q r =>
        obtain ⟨hlabel, hskip⟩ := inserted_eq_none hnodup hu hv hfirst hsecond h
        exact .inr ⟨p, q, [], r, u, v, rfl, hu, hv, rfl, hfirst, hsecond, hlabel, hskip⟩

end Piece

end Grf
