import Grf.Proofs.Conditional.Lowered

/-! # Every jump finds its own label

A skip to a label looks for its marker after itself and, if there is none, from the first record on. It finds the one
made with it (`lowerAll_resolves`): the marker of a run comes after the skip, in the same declaration, where no label is
used twice, and the start of a loop is the only marker with its label in all of the output.
-/

namespace Grf

open List Scaffold Record

/-- The label that a skip jumps to. A number up to the limit is a count. -/
def Record.jump? (limit : Nat) (r : Record) : Option Int :=
  match r.body with
  | .skip _ _ target => if (limit : Int) < target then some target else none
  | _ => none

/-- The marker that a jump to the label `n` finds: the first one after it, or the first one of all. -/
def findMarker (n : Int) (after all : List Numbered) : Option Numbered :=
  (after.find? (·.1.label? == some n)).or (all.find? (·.1.label? == some n))

def Wrap.link {α : Type} (w : Wrap α) : List (α × α) :=
  match w.skip, w.label with
  | some skip, some label => [(skip, label)]
  | _, _ => []

namespace Scaffold

variable {α : Type}

/-- The skips and jumps of a scaffold that come with a label, each with the label made for it. -/
def links (s : Scaffold α) : List (α × α) := s.wraps.flatMap Wrap.link ++ s.loops

def parts : Scaffold α → List (Scaffold α)
  | append first second => first :: second.parts
  | _ => []

end Scaffold

section

variable {n : Int} {x m : Numbered} {before mid after all : List Numbered}

theorem label?_ne_of_count (hcount : (labels ((before ++ m :: after).map Prod.fst)).count n ≤ 1)
    (hm : m.1.label? = some n) : ∀ y ∈ before ++ after, y.1.label? ≠ some n := by
  have hlabel : labels [m.1] = [n] := by simp [labels, hm]
  have hsplit : labels ((before ++ m :: after).map Prod.fst) =
      labels (before.map Prod.fst) ++ ([n] ++ labels (after.map Prod.fst)) := by
    rw [← hlabel, ← labels_append, ← labels_append]
    simp
  rw [hsplit, count_append, count_append, count_singleton_self] at hcount
  have habsent : ∀ {ys : List Numbered}, (labels (ys.map Prod.fst)).count n = 0 → ∀ y ∈ ys, y.1.label? ≠ some n := by
    intro ys hzero y hy hlabel
    refine count_eq_zero.mp hzero ?_
    exact mem_filterMap.mpr ⟨y.1, mem_map_of_mem hy, hlabel⟩
  grind

theorem find?_marker (hm : m.1.label? = some n) (hbefore : ∀ y ∈ before, y.1.label? ≠ some n) :
    (before ++ m :: after).find? (·.1.label? == some n) = some m := by
  have hnone : before.find? (·.1.label? == some n) = none := by
    grind
  rw [find?_append, hnone, find?_cons, hm]
  simp

/-- The marker `m` is what a jump `x` to the label `n` leads to: it is the next one with this label, or it
comes before the jump and its label is that of a loop. -/
def Leads (all : List Numbered) (n : Int) (x m : Numbered) : Prop :=
  (∃ before mid after, all = before ++ x :: (mid ++ m :: after) ∧ ∀ y ∈ mid, y.1.label? ≠ some n) ∨
    0x80 ≤ n ∧ List.Sublist [m, x] all

theorem Leads.append_left (h : Leads all n x m) (others : List Numbered) : Leads (all ++ others) n x m := by
  rcases h with ⟨before, mid, after, rfl, hmid⟩ | ⟨hn, hsub⟩
  · exact .inl ⟨before, mid, after ++ others, by simp, hmid⟩
  · exact .inr ⟨hn, hsub.trans (sublist_append_left _ _)⟩

theorem Leads.append_right (h : Leads all n x m) (others : List Numbered) : Leads (others ++ all) n x m := by
  rcases h with ⟨before, mid, after, rfl, hmid⟩ | ⟨hn, hsub⟩
  · exact .inl ⟨others ++ before, mid, after, by simp, hmid⟩
  · exact .inr ⟨hn, hsub.trans (sublist_append_right _ _)⟩

theorem exists_split_of_pair {a b : Numbered} (h : Sublist [a, b] all) :
    ∃ before mid after, all = before ++ a :: (mid ++ b :: after) := by
  obtain ⟨first, second, rfl, ha, hb⟩ := cons_sublist_iff.mp h
  obtain ⟨before, mid, rfl⟩ := append_of_mem ha
  obtain ⟨mid', after, rfl⟩ := append_of_mem (singleton_sublist.mp hb)
  exact ⟨before, mid ++ mid', after, by simp⟩

/-- **A jump finds what it leads to.** -/
theorem Leads.findMarker_eq (h : Leads all n x m) (hnodup : all.Nodup) (hm : m.1.label? = some n)
    (hlong : 0x80 ≤ n → (labels (all.map Prod.fst)).count n ≤ 1) {before after : List Numbered}
    (hsplit : all = before ++ x :: after) : findMarker n after all = some m := by
  unfold findMarker
  rcases h with ⟨before', mid, after', hall, hmid⟩ | ⟨hn, hsub⟩
  · have hafter : after = mid ++ m :: after' := by
      rw [hsplit] at hnodup hall
      exact tail_eq_of_nodup hnodup hall
    rw [hafter, find?_marker hm hmid]
    rfl
  · obtain ⟨before', mid, after', hall⟩ := exists_split_of_pair hsub
    have hothers : ∀ y ∈ before' ++ (mid ++ x :: after'), y.1.label? ≠ some n := label?_ne_of_count (hall ▸ hlong hn) hm
    have hafter : after = after' := by
      have hjump : before ++ x :: after = (before' ++ m :: mid) ++ x :: after' := by
        rw [← hsplit, hall, append_assoc, cons_append]
      exact tail_eq_of_nodup (hsplit ▸ hnodup) hjump
    have hnone : after.find? (·.1.label? == some n) = none := by
      refine find?_eq_none.mpr fun y hy => ?_
      grind
    have hfirst : all.find? (·.1.label? == some n) = some m := by
      rw [hall]
      exact find?_marker hm fun y hy => hothers y (mem_append_left _ hy)
    rw [hnone, hfirst]
    rfl

end

namespace Lowering

variable {c c' : Context} {s : Scaffold Record} {limit depth k : Nat} {x : Numbered} {n : Int} {ds : List Declaration}

/-! ## Jumps of scaffolds -/

/-- The guards of a scaffold are made for the lists they are put around. Skips and labels come from guards
and loops only, and a skip that comes with a label jumps to it. -/
structure Shaped (limit : Nat) (s : Scaffold Record) : Prop where
  fits : s.Fits
  own : ∀ r ∈ s.own, ¬r.IsControl
  wraps : ∀ w ∈ s.wraps, ∃ test taken run, Wrap.Covers limit test taken run w
  loops : ∀ p ∈ s.loops, ∃ label pos, (0x80 : Int) ≤ label ∧ p = (.jumpTo label pos, .ofLabel label pos)

theorem shaped_of_laid (h : s.Laid limit) : Shaped limit s := by
  have hspans : ∀ {g : Guard Record} {xs : List Record}, g.Formed limit xs → Spans g.wraps xs :=
    fun hg => spans_of_covers hg.covers
  have hcovers : ∀ {g : Guard Record} {xs : List Record}, g.Formed limit xs →
      ∀ w ∈ g.wraps, ∃ test taken run, Wrap.Covers limit test taken run w := by
    intro g xs hg w hw
    obtain ⟨run, hcovers⟩ := exists_covers hg.covers w hw
    exact ⟨_, _, run, hcovers⟩
  have hor : ∀ {g : Option (Guard Record)} {xs : List Record}, (∀ g' ∈ g, g'.Formed limit xs) →
      ∀ w ∈ Guard.wrapsOf g, ∃ test taken run, Wrap.Covers limit test taken run w := by
    intro g xs hg w hw
    cases g with
    | none => cases hw
    | some g => exact hcovers (hg g rfl) w hw
  induction s with
  | done => exact ⟨trivial, by simp [own], by simp [wraps], by simp [loops]⟩
  | leaf decl records => exact ⟨trivial, h, by simp [wraps], by simp [loops]⟩
  | append first second ih ih' =>
    obtain ⟨hfits, hown, hwraps, hloops⟩ := ih h.1
    obtain ⟨hfits', hown', hwraps', hloops'⟩ := ih' h.2
    exact ⟨⟨hfits, hfits'⟩, forall_mem_append.mpr ⟨hown, hown'⟩, forall_mem_append.mpr ⟨hwraps, hwraps'⟩,
      forall_mem_append.mpr ⟨hloops, hloops'⟩⟩
  | chain start arms ih =>
    obtain ⟨hfits, hown, hwraps, hloops⟩ := ih h.2
    exact ⟨hfits, forall_mem_cons.mpr ⟨h.1, hown⟩, hwraps, hloops⟩
  | branch cond before mark inner outer body rest ih ih' =>
    obtain ⟨hplain, hinner, houter, hbody, hrest⟩ := h
    obtain ⟨hfits, hown, hwraps, hloops⟩ := ih hbody
    obtain ⟨hfits', hown', hwraps', hloops'⟩ := ih' hrest
    refine ⟨⟨hspans hinner, fun g hg => hspans (houter g hg), hfits, hfits'⟩, ?_, ?_,
      forall_mem_append.mpr ⟨hloops, hloops'⟩⟩
    · exact forall_mem_append.mpr ⟨forall_mem_append.mpr ⟨hplain, hown⟩, hown'⟩
    · refine forall_mem_append.mpr ⟨forall_mem_append.mpr ⟨?_, hwraps⟩, hwraps'⟩
      exact forall_mem_append.mpr ⟨hcovers hinner, hor houter⟩
  | last g body ih =>
    obtain ⟨hfits, hown, hwraps, hloops⟩ := ih h.2
    exact ⟨⟨hspans h.1, hfits⟩, hown, forall_mem_append.mpr ⟨hcovers h.1, hwraps⟩, hloops⟩
  | loop cond start before g body jump ih =>
    obtain ⟨⟨label, pos, hlabel, rfl, rfl⟩, hbefore, hformed, hbody⟩ := h
    obtain ⟨hfits, hown, hwraps, hloops⟩ := ih hbody
    exact ⟨⟨fun g hg => hspans (hformed g hg), hfits⟩, forall_mem_append.mpr ⟨hbefore, hown⟩,
      forall_mem_append.mpr ⟨hor hformed, hwraps⟩, forall_mem_cons.mpr ⟨⟨label, pos, hlabel, rfl⟩, hloops⟩⟩

theorem jump_of_covers {w : Wrap Numbered} {test : SkipCondition} {taken : Int → Prop}
    {run : SkipRun} (hw : (w.map Prod.fst).Covers limit test taken run) (hx : x ∈ w.inserted)
    (hjump : x.1.jump? limit = some n) : ∃ m, w.skip = some x ∧ w.label = some m ∧ m.1.label? = some n := by
  obtain ⟨length, skip, label⟩ := w
  generalize hmapped : Wrap.map Prod.fst ⟨length, skip, label⟩ = mapped at hw
  have hskip : skip.map Prod.fst = mapped.skip := hmapped ▸ rfl
  have hlabel : label.map Prod.fst = mapped.label := hmapped ▸ rfl
  cases hw with
  | alone => simp_all [Wrap.inserted]
  | counted pos action haction hnone hlength =>
    -- a count is no label
    obtain ⟨a, rfl, ha⟩ := Option.map_eq_some_iff.mp hskip
    obtain rfl : label = none := by simpa using hlabel
    obtain rfl : x = a := by simpa [Wrap.inserted] using hx
    simp [jump?, ha] at hjump
    omega
  | labelled pos action target =>
    obtain ⟨a, rfl, ha⟩ := Option.map_eq_some_iff.mp hskip
    obtain ⟨b, rfl, hb⟩ := Option.map_eq_some_iff.mp hlabel
    have hx' : x = a ∨ x = b := by simpa [Wrap.inserted] using hx
    rcases hx' with rfl | rfl
    · refine ⟨b, rfl, rfl, ?_⟩
      obtain ⟨-, rfl⟩ : (limit : Int) < target ∧ target = n := by simpa [jump?, ha] using hjump
      rw [hb]
      rfl
    · simp [jump?, hb, ofLabel] at hjump

/-- **Every jump is linked with a label**, which comes after it, or before it if it is that of a loop. -/
theorem Shaped.exists_link (hs : Shaped limit s) (hx : x ∈ (s.number k).elements) (hjump : x.1.jump? limit = some n) :
    ∃ m, (x, m) ∈ (s.number k).links ∧ m.1.label? = some n ∧
      (Sublist [x, m] (s.number k).elements ∨ 0x80 ≤ n ∧ Sublist [m, x] (s.number k).elements) := by
  have hfits := fits_number hs.fits k
  rcases mem_elements hx with hown | ⟨w, hw, hx⟩ | ⟨p, hp, hx⟩
  · -- no other record is a skip
    have hown' : x.1 ∈ s.own := by
      rw [← s.map_number k, own_map]
      exact mem_map_of_mem hown
    refine absurd ?_ (hs.own x.1 hown')
    grind [jump?, Record.IsControl]
  · have hw' : w.map Prod.fst ∈ s.wraps := by
      have hmem := mem_map_of_mem (f := (·.map Prod.fst)) hw
      rwa [← wraps_map, s.map_number k] at hmem
    obtain ⟨test, taken, run, hcovers⟩ := hs.wraps _ hw'
    obtain ⟨m, hskip, hlabel, hm⟩ := jump_of_covers hcovers hx hjump
    refine ⟨m, ?_, hm, .inl ((pairsIn_elements hfits).1 w hw _ _ hskip hlabel)⟩
    refine mem_append_left _ (mem_flatMap.mpr ⟨w, hw, ?_⟩)
    rw [Wrap.link, hskip, hlabel]
    exact mem_singleton_self _
  · obtain ⟨jump, mark⟩ := p
    have hp' : (jump.1, mark.1) ∈ s.loops := by
      have hmem := mem_map_of_mem (f := fun p : Numbered × Numbered => (p.1.1, p.2.1)) hp
      rwa [← loops_map Prod.fst, s.map_number k] at hmem
    obtain ⟨label, pos, hlong, heq⟩ := hs.loops _ hp'
    obtain ⟨hjumpTo, hofLabel⟩ := Prod.mk.inj heq
    rcases hx with rfl | rfl
    · obtain rfl : label = n := by
        grind [jump?, jumpTo]
      refine ⟨mark, mem_append_right _ hp, by rw [hofLabel]; rfl, .inr ⟨hlong, ?_⟩⟩
      exact (pairsIn_elements hfits).2 _ hp
    · rw [hofLabel] at hjump
      cases hjump

theorem Shaped.leads (hs : Shaped limit s) (hlabels : (labels s.elements).Nodup)
    (hx : x ∈ (s.number k).elements) (hjump : x.1.jump? limit = some n) :
    ∃ m, (x, m) ∈ (s.number k).links ∧ m.1.label? = some n ∧ Leads (s.number k).elements n x m := by
  obtain ⟨m, hlink, hm, hsub | hloop⟩ := hs.exists_link hx hjump
  · obtain ⟨before, mid, after, hsplit⟩ := exists_split_of_pair hsub
    refine ⟨m, hlink, hm, .inl ⟨before, mid, after, hsplit, fun y hy => ?_⟩⟩
    have hcount : (labels (((before ++ x :: mid) ++ m :: after).map Prod.fst)).count n ≤ 1 := by
      have hall : (before ++ x :: mid) ++ m :: after = (s.number k).elements := by simp [hsplit]
      grind [s.elements_number]
    exact label?_ne_of_count hcount hm y (by simp [hy])
  · exact ⟨m, hlink, hm, .inr hloop⟩

theorem BuildsAll.leads (h : BuildsAll ds c s c') (hc : c.InRange) (hx : x ∈ (s.number k).elements)
    (hjump : x.1.jump? c.maxInlineSkip = some n) :
    ∃ m, (x, m) ∈ (s.number k).links ∧ m.1.label? = some n ∧ Leads (s.number k).elements n x m := by
  induction ds generalizing c s k with
  | nil =>
    cases h
    cases hx
  | cons decl ds ih =>
    cases h with
    | @cons _ _ _ d _ first rest h h' =>
      obtain ⟨hsound, hnodup, -⟩ := h.sound ⟨hc, rfl, rfl⟩
      have hlinks : ∀ p, p ∈ (first.number k).links ∨ p ∈ (rest.number (k + first.block.size)).links →
          p ∈ ((append first rest).number k).links := by
        grind [links, number, wraps, loops]
      rcases mem_append.mp hx with hx | hx
      · obtain ⟨m, hlink, hm, hleads⟩ := (shaped_of_laid hsound.laid).leads hnodup hx hjump
        exact ⟨m, hlinks _ (.inl hlink), hm, hleads.append_left _⟩
      · rw [← hsound.ext.limit] at hjump
        obtain ⟨m, hlink, hm, hleads⟩ := ih h' (hsound.ext.inRange hc) hx hjump
        exact ⟨m, hlinks _ (.inr hlink), hm, hleads.append_right _⟩

theorem BuildsAll.nodup_parts (h : BuildsAll ds c s c') (hc : c.InRange) :
    ∀ part ∈ s.parts, (labels part.elements).Nodup := by
  induction ds generalizing c s with
  | nil =>
    cases h
    simp [parts]
  | cons decl ds ih =>
    cases h with
    | cons h h' =>
      obtain ⟨hsound, hnodup, -⟩ := h.sound ⟨hc, rfl, rfl⟩
      exact forall_mem_cons.mpr ⟨hnodup, ih h' (hsound.ext.inRange hc)⟩

theorem nodup_long (h : Sound limit depth c s c') : ((labels s.elements).filter (0x80 ≤ ·)).Nodup := by
  grind [h.labelled.nodup, lasting]

theorem issued_of_long (h : Sound limit depth c s c') (hn : n ∈ labels s.elements) (hlong : 0x80 ≤ n) :
    n ∉ c.longLabels.issued ∧ n ∈ c'.longLabels.issued := by
  have hlasting : n ∈ lasting depth (labels s.elements) := by
    grind [lasting]
  rw [← spent_long hlong, ← spent_long hlong]
  exact ⟨h.labelled.fresh n hlasting, h.labelled.spent n hlasting⟩

theorem Shaped.lt_label (hs : Shaped limit s) (hlimit : limit < Context.firstShortLabel)
    (hn : n ∈ labels s.elements) : (limit : Int) < n := by
  obtain ⟨r, hr, hlabel⟩ := mem_filterMap.mp hn
  rcases mem_elements hr with hown | ⟨w, hw, hr⟩ | ⟨p, hp, hr⟩
  · rw [label?_of_not_isControl (hs.own r hown)] at hlabel
    cases hlabel
  · obtain ⟨test, taken, run, hcovers⟩ := hs.wraps w hw
    cases hcovers with
    | alone => cases hr
    | counted =>
      obtain rfl := mem_singleton.mp hr
      cases hlabel
    | labelled pos action label _ _ _ hfresh =>
      have hr' : r = ⟨pos, .skip action test label⟩ ∨ r = .ofLabel label pos := by
        simpa [Wrap.inserted] using hr
      rcases hr' with rfl | rfl
      · cases hlabel
      · obtain rfl : label = n := Option.some.inj hlabel
        exact hfresh.1
  · obtain ⟨label, pos, hlong, rfl⟩ := hs.loops p hp
    rcases hr with rfl | rfl
    · cases hlabel
    · obtain rfl : label = n := Option.some.inj hlabel
      unfold Context.firstShortLabel at hlimit
      omega

/-- **Every jump finds its own label.** The records that declarations are lowered to are numbered, with
each jump linked to the marker made with it: that after its run, or the start of its loop. A search for the
label after the jump, and from the first record on if that fails, ends at this marker. No label is used
twice in one declaration, no label of a loop is used twice at all, not even by what has been lowered before,
and no label is a number of records that can be skipped. -/
theorem lowerAll_resolves {ds : List Declaration} {rs : List Record} (hc : c.InRange)
    (h : Declaration.lowerAll ds c = .ok rs c') :
    ∃ s, BuildsAll ds c s c' ∧ (s.number 0).elements.Nodup ∧ (s.number 0).elements.map Prod.fst = rs ∧
      (∀ before x after n, (s.number 0).elements = before ++ x :: after → x.1.jump? c.maxInlineSkip = some n →
        ∃ m, (x, m) ∈ (s.number 0).links ∧ m.1.label? = some n ∧ findMarker n after (s.number 0).elements = some m) ∧
      (∀ part ∈ s.parts, (labels part.elements).Nodup) ∧
      ((labels rs).filter (0x80 ≤ ·)).Nodup ∧
      (∀ n ∈ labels rs, 0x80 ≤ n → n ∉ c.longLabels.issued ∧ n ∈ c'.longLabels.issued) ∧
      (∀ n ∈ labels rs, (c.maxInlineSkip : Int) < n) := by
  obtain ⟨s, hs, rfl, hsound, -⟩ := lowerAll_sound hc h
  have hlong := nodup_long hsound
  refine ⟨s, hs, s.nodup_number 0, s.elements_number 0, ?_, hs.nodup_parts hc, hlong,
    fun n hn hn' => issued_of_long hsound hn hn', fun n hn => (shaped_of_laid hsound.laid).lt_label hc.limit hn⟩
  intro before x after n hsplit hjump
  have hx : x ∈ (s.number 0).elements := by
    rw [hsplit]
    simp
  obtain ⟨m, hlink, hm, hleads⟩ := hs.leads hc hx hjump
  refine ⟨m, hlink, hm, hleads.findMarker_eq (s.nodup_number 0) hm (fun hn => ?_) hsplit⟩
  have hcount := List.nodup_iff_count_le_one.mp hlong n
  rw [List.count_filter (by simpa using hn)] at hcount
  rwa [s.elements_number 0]

/-- A conditional, a loop around another one, and a third one. With runs of one record at most being
counted, all runs have labels. Those of the first conditional are used again inside of the loop and after
it, but the label of the loop is not. -/
theorem lowerAll_resolves_reused :
    let two : List Declaration := [.assign (.const 3) (.const 1) {}, .assign (.const 4) (.const 2) {}]
    let choice (n : Int) : Declaration := .conditional [⟨some (.paramAt n), two, {}⟩] {}
    let ds : List Declaration := [choice 1, .loop (.paramAt 2) [choice 5] {}, choice 6]
    let c : Context := .create 1 none none
    ∃ rs c' s, Declaration.lowerAll ds c = .ok rs c' ∧ BuildsAll ds c s c' ∧
      labels rs = [0x10, 0x80, 0x10, 0x11, 0x10] ∧ rs.filterMap (Record.jump? 1) = [0x10, 0x11, 0x10, 0x80, 0x10] ∧
      (s.number 0).elements.map Prod.fst = rs ∧
      ∀ before x after n, (s.number 0).elements = before ++ x :: after → x.1.jump? 1 = some n →
        ∃ m, (x, m) ∈ (s.number 0).links ∧ m.1.label? = some n ∧ findMarker n after (s.number 0).elements = some m := by
  intro two choice ds c
  have hok : succeeds (Declaration.lowerAll ds) c (fun rs _ =>
      labels rs = [0x10, 0x80, 0x10, 0x11, 0x10] ∧
        rs.filterMap (Record.jump? 1) = [0x10, 0x11, 0x10, 0x80, 0x10]) = true := by
    decide +kernel
  obtain ⟨rs, c', h, hlabels⟩ := eq_ok_of_succeeds hok
  obtain ⟨hlabels, hjumps⟩ := of_decide_eq_true hlabels
  obtain ⟨s, hs, -, hrecords, hresolves, -⟩ := lowerAll_resolves (Context.create_inRange 1 none none) h
  exact ⟨rs, c', s, h, hs, hlabels, hjumps, hrecords, hresolves⟩

end Lowering

end Grf
