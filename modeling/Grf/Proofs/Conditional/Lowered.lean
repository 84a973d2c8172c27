import Grf.Proofs.Conditional.Labels

/-! # What is known of scaffolds

Every list of declarations that is lowered has a well-formed scaffold with the structure of the declarations
(`lowerAll_sound`). What is shown of the bodies is `Sound`: inside of a conditional the labels of the records stay taken
until the outermost one is closed, so a label that is handed out for a guard does not occur in the list it is put
around.
-/

namespace Grf

open List Guard Declaration Scaffold

/-! ## Fewer parameters held -/

theorem BranchFormed.mono {limit : Nat} {held held' : Int → Prop} {cond : Expr}
    {before mark body : List Record} {inner : Guard Record}
    (h : BranchFormed limit held cond before mark inner body) (hsub : ∀ t, held' t → held t) :
    BranchFormed limit held' cond before mark inner body :=
  ⟨h.scratch.mono (fun t ht h' => ht (hsub t h')) id, h.holds, h.formed⟩

theorem Scaffold.mono_held {limit : Nat} (s : Scaffold Record) :
    (∀ {held held' : Int → Prop}, (∀ t, held' t → held t) → s.Formed limit held → s.Formed limit held') ∧
    (∀ {held held' : Int → Prop} {untaken : Int} {first : Bool}, (∀ t, held' t → held t) →
      s.Arms limit held untaken first → s.Arms limit held' untaken first) := by
  induction s with
  | done => exact ⟨fun _ _ => .done, fun _ _ => .done⟩
  | leaf decl records =>
    refine ⟨fun hsub h => ?_, fun _ h => ?_⟩
    · cases h with
      | leaf h => exact .leaf (h.mono (fun t ht h' => ht (hsub t h')) id)
    · cases h
  | append a b iha ihb =>
    refine ⟨fun hsub h => ?_, fun _ h => ?_⟩
    · cases h with
      | append ha hb => exact .append (iha.1 hsub ha) (ihb.1 hsub hb)
    · cases h
  | chain start arms ih =>
    refine ⟨fun hsub h => ?_, fun _ h => ?_⟩
    · cases h with
      | chain htemp hfresh harms =>
        exact .chain htemp (fun h => hfresh (hsub _ h)) (ih.2 (fun t ht => ht.imp_left (hsub t)) harms)
    · cases h
  | branch cond before mark inner outer body rest ihbody ihrest =>
    refine ⟨fun hsub h => ?_, fun hsub h => ?_⟩
    · cases h with
      | branch hbranch hbody => exact .branch (hbranch.mono hsub) (ihbody.1 hsub hbody)
    · cases h with
      | first hbranch hbody hrest => exact .first (hbranch.mono hsub) (ihbody.1 hsub hbody) (ihrest.2 hsub hrest)
      | other hbranch hmark htest houter hbody hrest =>
        exact .other (hbranch.mono hsub) hmark htest houter (ihbody.1 hsub hbody) (ihrest.2 hsub hrest)
  | last g body ih =>
    refine ⟨fun _ h => ?_, fun hsub h => ?_⟩
    · cases h
    · cases h with
      | last htest hguard hbody => exact .last htest hguard (ih.1 hsub hbody)
  | loop =>
    refine ⟨fun _ _ => .loop, fun _ h => ?_⟩
    cases h

namespace Lowering

variable {limit depth : Nat} {c c' d inner c₁ c₂ c₃ c₄ : Context} {pos : Position} {rs xs before mark : List Record}
  {ds : List Declaration} {decl : Declaration} {cond : Expr} {label untaken : Int} {g : Guard Record}
  {outer : Option (Guard Record)} {s s' : Scaffold Record}

abbrev Held (c : Context) (t : Int) : Prop := t ∈ c.tempParams.inUse

/-- Whether no declaration assigns to a temporary parameter by its number. -/
def Fits (ds : List Declaration) : Prop := ∀ d ∈ Declaration.walkAll ds, d.Spares IsTemporary

/-- A state in which the records of a body are made, inside of `depth` conditionals and loops. -/
structure Stands (limit depth : Nat) (c : Context) : Prop where
  inRange : c.InRange
  limit : c.maxInlineSkip = limit
  depth : c.depth = depth

theorem Stands.of_extends (h : Stands limit depth c) (hext : c.Extends c') : Stands limit depth c' :=
  ⟨hext.inRange h.inRange, hext.limit.trans h.limit, hext.depth.trans h.depth⟩

theorem Stands.inside (h : Stands limit depth c) (hframe : Encloses c inner d c') : Stands limit (depth + 1) inner := by
  obtain ⟨hlimit, hdepth, -⟩ := hframe.fields
  exact ⟨hframe.inRange h.inRange, hlimit.trans h.limit, hdepth.trans (congrArg (· + 1) h.depth)⟩

/-- What is known of a scaffold that is built between two states. -/
structure Sound (limit depth : Nat) (c : Context) (s : Scaffold Record) (c' : Context) : Prop where
  ext : c.Extends c'
  laid : s.Laid limit
  guardable : 0 < depth → Guardable c' limit s.elements
  labelled : Labelled c (lasting depth (labels s.elements)) c'

/-! ## Guards -/

/-- The guard `g`, if there is one, is put around the list `xs`. -/
def GuardsOr (c : Context) (g : Option (Guard Record)) (xs : List Record) (c' : Context) : Prop :=
  (g = none ∧ c' = c) ∨ ∃ g', g = some g' ∧ Guards c g'.test xs g'.wraps c'

theorem Guards.or (h : Guards c g.test xs g.wraps c') : GuardsOr c (some g) xs c' := .inr ⟨g, rfl, h⟩

theorem GuardsOr.spec (h : GuardsOr c outer xs c') (hc : Stands limit depth c) (hxs : Guardable c limit xs) :
    c.Extends c' ∧ Labelled c (wrapLabels (wrapsOf outer)) c' ∧
      (labels (aroundOr outer xs)).Perm (wrapLabels (wrapsOf outer) ++ labels xs) ∧
      Guardable c' limit (aroundOr outer xs) ∧ ∀ g ∈ outer, g.Formed limit xs := by
  obtain ⟨-, rfl, -⟩ := hc
  rcases h with ⟨rfl, rfl⟩ | ⟨g, rfl, h⟩
  · exact ⟨.refl _, .none rfl rfl, .refl _, hxs, by simp⟩
  · obtain ⟨hys, hformed⟩ := h.guard hxs
    refine ⟨h.ext, h.labelled, labels_wrapAll h.covers, hys, ?_⟩
    rintro g' ⟨rfl⟩
    exact hformed

theorem guardable_label (pos : Position) (h : 0x80 ≤ label) :
    Guardable c limit [.ofLabel label pos] ∧ Guardable c limit [.jumpTo label pos] := by
  have notPatch : ∀ {r : Record}, r.IsControl → Complete [r] := fun hr => .cons (fun hp => by
    obtain ⟨patches, hp⟩ := hp
    rw [Record.IsControl, hp] at hr
    exact hr) .nil
  refine ⟨⟨notPatch trivial, fun r hr n hn => ?_⟩, ⟨notPatch trivial, fun r hr n hn => ?_⟩⟩
  · obtain rfl := mem_singleton.mp hr
    obtain rfl : label = n := hn
    exact .inr h
  · obtain rfl := mem_singleton.mp hr
    obtain ⟨rfl, -⟩ := hn
    exact .inr h

/-! ## Parts of scaffolds -/

namespace Sound

theorem done : Sound limit depth c .done c where
  ext := .refl c
  laid := trivial
  guardable _ := .nil
  labelled := by
    show Labelled c (lasting depth []) c
    rw [lasting_nil]
    exact .none rfl rfl

theorem leaf (hc : c.InRange) (hd : decl.IsSimple) (h : decl.lower c = .ok rs c') :
    Sound limit depth c (.leaf decl rs) c' ∧ (labels rs).Nodup := by
  -- whatever the declaration assigns to, its records are straight
  obtain ⟨hext, hstraight⟩ := lower_keeps hd decl.spares_false c rs c' hc (fun t ht => ht.elim) h
  obtain ⟨hshort, hlong, -⟩ := lower_spends hd hc h
  have hlabels : labels rs = [] := labels_of_not_isControl hstraight.not_isControl
  refine ⟨⟨hext, hstraight.not_isControl, fun _ => .of_straight hstraight, ?_⟩, hlabels ▸ nodup_nil⟩
  rw [elements, hlabels, lasting_nil]
  exact .none hshort hlong

theorem append (h : Sound limit depth c s d) (h' : Sound limit depth d s' c') :
    Sound limit depth c (.append s s') c' where
  ext := h.ext.trans h'.ext
  laid := ⟨h.laid, h'.laid⟩
  guardable hdepth := ((h.guardable hdepth).of_extends h'.ext).append (h'.guardable hdepth)
  labelled := by
    rw [elements, labels_append, lasting_append]
    exact h.labelled.trans h'.labelled

theorem close (hc : Stands limit depth c) (hframe : Encloses c inner d c')
    (h : Sound limit (depth + 1) inner s d) : Sound limit depth c s c' ∧ (labels s.elements).Nodup := by
  obtain ⟨hext, hguardable⟩ := hframe.close h.ext
  have hlabelled := h.labelled
  rw [lasting_succ] at hlabelled
  refine ⟨⟨hext, h.laid, fun hpos => ?_, hc.depth ▸ hframe.labelled h.ext hlabelled⟩, hlabelled.nodup⟩
  obtain ⟨hcomplete, hmentions⟩ := h.guardable depth.succ_pos
  refine ⟨hcomplete, fun r hr n hn => ?_⟩
  grind [Taken, hc.depth]

theorem chain (hc : Stands limit (depth + 1) c) (htemp : popTemp pos c = .ok untaken c₁) (value : Int)
    (h : Sound limit (depth + 1) c₁ s c') :
    Sound limit (depth + 1) c (.chain (.constantAssignment untaken value pos) s) c' := by
  have hstart := straight_constantAssignment untaken value pos
  refine ⟨(popTemp_eq_ok hc.inRange htemp).1.trans h.ext, ⟨hstart.not_isControl _ (by simp), h.laid⟩,
    fun hdepth => (Guardable.of_straight hstart).append (h.guardable hdepth), ?_⟩
  have hlabelled := (popTemp_labelled hc.inRange htemp).trans h.labelled
  rwa [lasting_succ, nil_append] at hlabelled

/-- A branch with its guards: its condition, the body, the inner guard, the outer guard if there is one, and the
branches after it. -/
theorem branch (hc : Stands limit (depth + 1) c) (hconst : constantCondition? cond = none)
    (hmark : Straight (fun _ => True) True mark) (hbefore : lowerCondition cond pos c = .ok (before, g.test) c₁)
    (h : Sound limit (depth + 1) c₁ s c₂) (hinner : Guards c₂ g.test (mark ++ s.elements) g.wraps c₃)
    (houter : GuardsOr c₃ outer (before ++ g.around (mark ++ s.elements)) c₄)
    (hrest : Sound limit (depth + 1) c₄ s' c') :
    Sound limit (depth + 1) c (.branch cond before mark g outer s s') c' ∧
      BranchFormed limit (Held c) cond before mark g s.elements := by
  obtain ⟨hext₁, htests⟩ := lowerCondition_spec hc.inRange hconst hbefore
  have hscratch : Straight (fun t => ¬Held c t) False before := htests.scratch.mono (fun t ht => ht.2) id
  have hext₂ := hext₁.trans h.ext
  obtain ⟨hext₃, hinnerLabelled, hinnerLabels, hinside, hformed⟩ := hinner.or.spec (hc.of_extends hext₂)
    ((Guardable.of_straight hmark).append (h.guardable depth.succ_pos))
  obtain ⟨hext₄, houterLabelled, houterLabels, hwhole, houterFormed⟩ :=
    houter.spec (hc.of_extends (hext₂.trans hext₃)) ((Guardable.of_straight hscratch).append hinside)
  rw [labels_append, labels_of_not_isControl hmark.not_isControl, nil_append] at hinnerLabels
  rw [labels_append, labels_of_not_isControl hscratch.not_isControl, nil_append] at houterLabels
  refine ⟨⟨((hext₂.trans hext₃).trans hext₄).trans hrest.ext, ⟨?_, hformed g rfl, houterFormed, h.laid, hrest.laid⟩,
    fun hdepth => (hwhole.of_extends hrest.ext).append (hrest.guardable hdepth), ?_⟩,
    ⟨hscratch, htests.holds, hformed g rfl⟩⟩
  · exact forall_mem_append.mpr ⟨hscratch.not_isControl, hmark.not_isControl⟩
  · -- the labels in the order in which they are handed out
    have hall := ((((lowerCondition_labelled hc.inRange hbefore).trans h.labelled).trans hinnerLabelled).trans
      houterLabelled).trans hrest.labelled
    refine hall.perm ?_
    simp only [lasting_succ, nil_append, elements, labels_append]
    refine Perm.append_right _ ?_
    calc Perm (labels s.elements ++ wrapLabels g.wraps ++ wrapLabels (wrapsOf outer))
          (wrapLabels (wrapsOf outer) ++ (labels s.elements ++ wrapLabels g.wraps)) := perm_append_comm
      Perm _ (wrapLabels (wrapsOf outer) ++ (wrapLabels g.wraps ++ labels s.elements)) :=
            Perm.append_left _ perm_append_comm
      Perm _ (wrapLabels (wrapsOf outer) ++ labels (g.around (mark ++ s.elements))) :=
            Perm.append_left _ hinnerLabels.symm
      Perm _ (labels (aroundOr outer (before ++ g.around (mark ++ s.elements)))) := houterLabels.symm

theorem last (hc : Stands limit (depth + 1) c) (h : Sound limit (depth + 1) c s d)
    (hguard : Guards d g.test s.elements g.wraps c') : Sound limit (depth + 1) c (.last g s) c' := by
  obtain ⟨hext, hlabelled, hlabels, hwhole, hformed⟩ :=
    hguard.or.spec (hc.of_extends h.ext) (h.guardable depth.succ_pos)
  refine ⟨h.ext.trans hext, ⟨hformed g rfl, h.laid⟩, fun _ => hwhole, ?_⟩
  have hall := h.labelled.trans hlabelled
  rw [lasting_succ] at hall ⊢
  exact hall.perm (perm_append_comm.trans hlabels.symm)

theorem loop {test : SkipCondition} (hc : Stands limit (depth + 1) c) (hlabel : popLongLabel pos c = .ok label c₁)
    (hbefore : (before = [] ∧ c₂ = c₁) ∨
      constantCondition? cond = none ∧ lowerCondition cond pos c₁ = .ok (before, test) c₂)
    (h : Sound limit (depth + 1) c₂ s c₃) (hguard : GuardsOr c₃ outer (s.elements ++ [.jumpTo label pos]) c') :
    Sound limit (depth + 1) c (.loop cond (.ofLabel label pos) before outer s (.jumpTo label pos)) c' := by
  obtain ⟨hext₁, hlong⟩ := popLongLabel_eq_ok hc.inRange hlabel
  obtain ⟨hext₂, hbeforeLabelled, hcontrol, hbeforeGuardable⟩ : c₁.Extends c₂ ∧ Labelled c₁ [] c₂ ∧
      (∀ r ∈ before, ¬r.IsControl) ∧ Guardable c' limit before := by
    rcases hbefore with ⟨rfl, rfl⟩ | ⟨hconst, hbefore⟩
    · exact ⟨.refl _, .none rfl rfl, by simp, .nil⟩
    · have hc₁ := hext₁.inRange hc.inRange
      obtain ⟨hext₂, htests⟩ := lowerCondition_spec hc₁ hconst hbefore
      exact ⟨hext₂, lowerCondition_labelled hc₁ hbefore, htests.scratch.not_isControl, .of_straight htests.scratch⟩
  have hext₃ := (hext₁.trans hext₂).trans h.ext
  obtain ⟨hext₄, hguardLabelled, hguardLabels, hwhole, hformed⟩ :=
    hguard.spec (hc.of_extends hext₃) ((h.guardable depth.succ_pos).append (guardable_label pos hlong).2)
  refine ⟨hext₃.trans hext₄, ⟨⟨label, pos, hlong, rfl, rfl⟩, hcontrol, hformed, h.laid⟩,
    fun _ => (guardable_label pos hlong).1.append (hbeforeGuardable.append hwhole), ?_⟩
  have hall := (((popLongLabel_labelled hc.inRange hlabel).trans hbeforeLabelled).trans h.labelled).trans hguardLabelled
  refine hall.perm ?_
  have hjumpLabels : labels (s.elements ++ [.jumpTo label pos]) = labels s.elements := by
    rw [labels_append]
    exact append_nil _
  have helements : labels (Scaffold.loop cond (.ofLabel label pos) before outer s (.jumpTo label pos)).elements =
      label :: labels (aroundOr outer (s.elements ++ [.jumpTo label pos])) := by
    show label :: labels (before ++ _) = _
    rw [labels_append, labels_of_not_isControl hcontrol]
    rfl
  rw [hjumpLabels] at hguardLabels
  rw [lasting_succ, lasting_succ, helements]
  exact (perm_append_comm.trans hguardLabels.symm).cons label

end Sound

/-! ## Declarations -/

theorem isTrue?_ne_of_constantCondition? {e : Expr} {b : Bool} (h : constantCondition? e = some b)
    (p : Params) : e.isTrue? p ≠ some !b := by
  grind [isTrue?_of_constantCondition?]

/-- Whether no declaration in a branch assigns to a temporary parameter by its number. -/
def FitsBranches (branches : List (IfBranch Declaration)) : Prop :=
  ∀ d ∈ Declaration.walkBranches branches, d.Spares IsTemporary

theorem fitsBranches_cons {ib : IfBranch Declaration} {branches : List (IfBranch Declaration)} :
    FitsBranches (ib :: branches) ↔ Fits ib.body ∧ FitsBranches branches := by
  unfold FitsBranches Fits
  rw [walkBranches, forall_mem_append]

theorem outlinesBranches_of_never {branches : List (IfBranch Declaration)}
    (h : ∀ b ∈ branches, ∃ e, b.cond = some e ∧ constantCondition? e = some false) :
    OutlinesBranches branches .done := by
  induction branches with
  | nil => exact .nil
  | cons b branches ih =>
    obtain ⟨cond, body, pos⟩ := b
    obtain ⟨⟨e, rfl, hconst⟩, hrest⟩ := forall_mem_cons.mp h
    exact .never (isTrue?_ne_of_constantCondition? hconst) (ih hrest)

theorem formed_of_simple (hd : decl.IsSimple) (hc : c.InRange) (h : decl.lower c = .ok rs c')
    (hfits : ∀ d ∈ decl.walk, d.Spares IsTemporary) : (Scaffold.leaf decl rs).Formed limit (Held c) := by
  have hspares : decl.Spares IsTemporary := hfits decl (by cases decl <;> simp [walk])
  obtain ⟨-, hkeeps⟩ := lower_keeps hd (hspares.mono fun t ht => hc.held t ht) c rs c' hc (fun t ht => ht) h
  exact .leaf hkeeps

mutual

/-- **A list of declarations is lowered to one of its outlines.** -/
theorem BuildsAll.sound {ds : List Declaration} {limit depth : Nat} {c c' : Context} {s : Scaffold Record}
    (h : BuildsAll ds c s c') (hc : Stands limit depth c) :
    Sound limit depth c s c' ∧ Outlines ds s ∧ (Fits ds → s.Formed limit (Held c)) := by
  cases h with
  | nil => exact ⟨.done, .nil, fun _ => .done⟩
  | cons h h' =>
    obtain ⟨hsound, -, houtlines, hformed⟩ := h.sound hc
    obtain ⟨hsound', houtlines', hformed'⟩ := h'.sound (hc.of_extends hsound.ext)
    refine ⟨hsound.append hsound', .cons houtlines houtlines', fun hfits => ?_⟩
    rw [Fits, walkAll, forall_mem_append] at hfits
    exact .append (hformed hfits.1) ((mono_held _).1 (fun t ht => hsound.ext.inUse ht) (hformed' hfits.2))

theorem Builds.sound {decl : Declaration} {limit depth : Nat} {c c' : Context} {s : Scaffold Record}
    (h : Builds decl c s c') (hc : Stands limit depth c) : Sound limit depth c s c' ∧ (labels s.elements).Nodup ∧
      OutlinesOne decl s ∧ ((∀ d ∈ decl.walk, d.Spares IsTemporary) → s.Formed limit (Held c)) := by
  cases h with
  | simple hd h =>
    obtain ⟨hsound, hlabels⟩ := Sound.leaf hc.inRange hd h
    exact ⟨hsound, hlabels, .simple hc.inRange hd h, formed_of_simple hd hc.inRange h⟩
  | conditional hframe h =>
    obtain ⟨hsound, houtlines, hformed⟩ := h.sound (hc.inside hframe)
    obtain ⟨hsound, hlabels⟩ := hsound.close hc hframe
    refine ⟨hsound, hlabels, houtlines, fun hfits => (mono_held s).1 (fun t ht => ?_) (hformed ?_)⟩
    · exact show t ∈ _ from hframe.fields.2.2 ▸ ht
    · rw [walk] at hfits
      exact (forall_mem_cons.mp hfits).2
  | never hframe hcond =>
    obtain ⟨hsound, hlabels⟩ := Sound.done.close hc hframe
    exact ⟨hsound, hlabels, .never hcond, fun _ => .done⟩
  | forever hframe hcond hlabel h =>
    have hc' := hc.inside hframe
    obtain ⟨hext, hlong⟩ := popLongLabel_eq_ok hc'.inRange hlabel
    obtain ⟨hbody, houtlines, -⟩ := h.sound (hc'.of_extends hext)
    obtain ⟨hsound, hlabels⟩ := Sound.close hc hframe
      (@Sound.loop _ _ _ _ _ _ _ _ _ _ _ _ _ .always hc' hlabel (.inl ⟨rfl, rfl⟩) hbody (.inl ⟨rfl, rfl⟩))
    exact ⟨hsound, hlabels, .forever hcond hlong houtlines, fun _ => .loop⟩
  | loop hframe hcond hlabel hbefore h hguard =>
    have hc' := hc.inside hframe
    obtain ⟨hext, hlong⟩ := popLongLabel_eq_ok hc'.inRange hlabel
    have hc₁ := hc'.of_extends hext
    obtain ⟨hbody, houtlines, -⟩ := h.sound (hc₁.of_extends (lowerCondition_spec hc₁.inRange hcond hbefore).1)
    obtain ⟨hsound, hlabels⟩ := Sound.close hc hframe (.loop hc' hlabel (.inr ⟨hcond, hbefore⟩) hbody hguard.or)
    exact ⟨hsound, hlabels, .loop hc₁.inRange hlong hbefore houtlines, fun _ => .loop⟩

theorem BuildsIf.sound {branches : List (IfBranch Declaration)} {pos : Position} {limit depth : Nat} {c c' : Context}
    {s : Scaffold Record} (h : BuildsIf branches pos c s c') (hc : Stands limit (depth + 1) c) :
    Sound limit (depth + 1) c s c' ∧ OutlinesOne (.conditional branches pos) s ∧
      (FitsBranches branches → s.Formed limit (Held c)) := by
  cases h with
  | nil => exact ⟨.done, .conditional .nil, fun _ => .done⟩
  | never hcond h =>
    obtain ⟨hsound, houtlines, hformed⟩ := h.sound hc
    refine ⟨hsound, ?_, fun hfits => hformed (fitsBranches_cons.mp hfits).2⟩
    cases houtlines with
    | simple _ hd => exact hd.elim
    | conditional hrest => exact .conditional (.never (isTrue?_ne_of_constantCondition? hcond) hrest)
    | chain ht hrest => exact .chain ht (.never (isTrue?_ne_of_constantCondition? hcond) hrest)
  | always hcond h =>
    obtain ⟨hsound, houtlines, hformed⟩ := h.sound hc
    exact ⟨hsound, .conditional (.always (fun e he => isTrue?_ne_of_constantCondition? (hcond e he)) houtlines),
      fun hfits => hformed (fitsBranches_cons.mp hfits).1⟩
  | single hcond hrest hbefore h hguard =>
    obtain ⟨hbody, houtlines, hformed⟩ := h.sound (hc.of_extends (lowerCondition_spec hc.inRange hcond hbefore).1)
    obtain ⟨hsound, hbranch⟩ := hbody.branch hc hcond .nil hbefore hguard (.inl ⟨rfl, rfl⟩) .done
    refine ⟨hsound, .conditional (.branch hc.inRange hbefore (.inl rfl) houtlines (outlinesBranches_of_never hrest)),
      fun hfits => .branch hbranch ((mono_held _).1 (fun t ht => ?_) (hformed (fitsBranches_cons.mp hfits).1))⟩
    exact (lowerCondition_spec hc.inRange hcond hbefore).1.inUse ht
  | @chain _ _ _ pos' _ untaken _ c₁ _ _ _ _ _ _ _ _ hcond htemp hbefore h hguard hrest =>
    obtain ⟨hext₁, htemporary, hfresh, hheld⟩ := popTemp_eq_ok hc.inRange htemp
    have hc₁ := hc.of_extends hext₁
    have hext₂ := (lowerCondition_spec hc₁.inRange hcond hbefore).1
    obtain ⟨hbody, houtlines, hformed⟩ := h.sound (hc₁.of_extends hext₂)
    have hext₄ := (hext₂.trans hbody.ext).trans hguard.ext
    obtain ⟨harms, houtlines', hformed'⟩ := hrest.sound (hc₁.of_extends hext₄) htemporary
    obtain ⟨hsound, hbranch⟩ :=
      hbody.branch hc₁ hcond (straight_constantAssignment untaken 0 pos') hbefore hguard (.inl ⟨rfl, rfl⟩) harms
    refine ⟨hsound.chain hc htemp _, .chain htemporary (.branch hc₁.inRange hbefore (.inr ⟨untaken, htemporary, rfl⟩)
      houtlines houtlines'), fun hfits => ?_⟩
    obtain ⟨hfits, hfits'⟩ := fitsBranches_cons.mp hfits
    have hsub : ∀ t, Held c t ∨ t = untaken → Held c₁ t := by
      rintro t (ht | rfl)
      · exact hext₁.inUse ht
      · exact hheld
    refine .chain htemporary hfresh (.first (hbranch.mono hsub) ?_ ?_)
    · exact (mono_held _).1 (fun t ht => hext₂.inUse (hsub t ht)) (hformed hfits)
    · exact (mono_held _).2 (fun t ht => hext₄.inUse (hsub t ht)) (hformed' hfits')

theorem BuildsArms.sound {untaken : Int} {branches : List (IfBranch Declaration)} {limit depth : Nat} {c c' : Context}
    {s : Scaffold Record} (h : BuildsArms untaken branches c s c') (hc : Stands limit (depth + 1) c)
    (htemp : IsTemporary untaken) : Sound limit (depth + 1) c s c' ∧ OutlinesBranches branches s ∧
      (FitsBranches branches → s.Arms limit (Held c) untaken false) := by
  cases h with
  | nil => exact ⟨.done, .nil, fun _ => .done⟩
  | never hcond h =>
    obtain ⟨hsound, houtlines, hformed⟩ := h.sound hc htemp
    exact ⟨hsound, .never (isTrue?_ne_of_constantCondition? hcond) houtlines,
      fun hfits => hformed (fitsBranches_cons.mp hfits).2⟩
  | always hcond h hguard =>
    obtain ⟨hbody, houtlines, hformed⟩ := h.sound hc
    have hsound := hbody.last (g := ⟨_, _⟩) hc hguard
    exact ⟨hsound, .last (fun e he => isTrue?_ne_of_constantCondition? (hcond e he)) houtlines,
      fun hfits => .last rfl hsound.laid.1 (hformed (fitsBranches_cons.mp hfits).1)⟩
  | @branch _ _ _ pos _ _ _ _ _ _ _ _ mark _ _ _ _ hcond hmark hbefore h hinner houter hrest =>
    have hext₁ := (lowerCondition_spec hc.inRange hcond hbefore).1
    obtain ⟨hbody, houtlines, hformed⟩ := h.sound (hc.of_extends hext₁)
    have hext₄ := ((hext₁.trans hbody.ext).trans hinner.ext).trans houter.ext
    obtain ⟨harms, houtlines', hformed'⟩ := hrest.sound (hc.of_extends hext₄) htemp
    obtain ⟨hstraight, hismark⟩ : Straight (fun _ => True) True mark ∧ IsMark pos mark := by
      rcases hmark with rfl | ⟨rfl, -⟩
      · exact ⟨straight_constantAssignment untaken 0 pos, .inr ⟨untaken, htemp, rfl⟩⟩
      · exact ⟨.nil, .inl rfl⟩
    obtain ⟨hsound, hbranch⟩ := hbody.branch hc hcond hstraight hbefore hinner (.inr ⟨⟨_, _⟩, rfl, houter⟩) harms
    refine ⟨hsound, .branch hc.inRange hbefore hismark houtlines houtlines', fun hfits => ?_⟩
    obtain ⟨hfits, hfits'⟩ := fitsBranches_cons.mp hfits
    refine .other hbranch hmark rfl (hsound.laid.2.2.1 _ rfl) ?_ ?_
    · exact (mono_held _).1 (fun t ht => hext₁.inUse ht) (hformed hfits)
    · exact (mono_held _).2 (fun t ht => hext₄.inUse ht) (hformed' hfits')

end

/-- **Declarations that are lowered have an outline.** -/
theorem lowerAll_sound (hc : c.InRange) (h : lowerAll ds c = .ok rs c') :
    ∃ s, BuildsAll ds c s c' ∧ s.elements = rs ∧ Sound c.maxInlineSkip c.depth c s c' ∧ Outlines ds s ∧
      (Fits ds → s.Formed c.maxInlineSkip (Held c)) := by
  obtain ⟨s, hs, hrecords, -⟩ := lowerAll_builds ds hc h
  exact ⟨s, hs, hrecords, hs.sound ⟨hc, rfl, rfl⟩⟩

end Lowering

end Grf
