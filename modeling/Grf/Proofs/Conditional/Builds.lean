import Grf.Proofs.Conditional.Outline
import Grf.Proofs.Conditional.Runs

/-! # How scaffolds are built

`BuildsAll ds c s c'` follows the lowering of the declarations `ds` step by step, from the state `c` to the state `c'`,
where `s` is the scaffold of the records. So an invariant of the states can be shown by induction on the steps, with
what it says about the records. Every lowering that succeeds is built in this way (`lowerAll_builds`).
-/

namespace Grf.Lowering

open List Declaration Record

variable {c c' d inner : Context} {pos : Position} {rs xs ys mark : List Record}
  {test : SkipCondition} {b : Branch} {untaken : Int} {branches : List (IfBranch Declaration)}
  {bs : List Branch}

/-! ## Frames -/

/-- The frames around the records of a conditional or a loop: opened in the state `c` they give the
state `inner`, and closed in the state `d` they give the state `c'`. -/
structure Encloses (c inner d c' : Context) : Prop where
  opened : ∃ entry, inner = enterConditional { saveTemps c with log := entry :: c.log }
  closed : ∃ e, exitConditional d = .ok e ∧ restoreTemps e = .ok c'

theorem Encloses.inRange (h : Encloses c inner d c') (hc : c.InRange) : inner.InRange := by
  obtain ⟨entry, rfl⟩ := h.opened
  exact enterConditional_inRange ⟨hc.temps, hc.held, hc.shortLabels, hc.longLabels, hc.limit⟩

theorem framed_encloses {decl : Declaration} {body : Lowering (List Record)}
    (h : framed decl (bracket enterConditional exitConditional body) c = .ok rs c') :
    ∃ inner d, Encloses c inner d c' ∧ body inner = .ok rs d := by
  obtain ⟨e, h, hrestore⟩ := bracket_eq_ok.mp h
  obtain ⟨d, h, hexit⟩ := bracket_eq_ok.mp h
  exact ⟨_, d, ⟨⟨_, rfl⟩, e, hexit, hrestore⟩, h⟩

section
variable (h : Encloses c inner d c')
include h

theorem Encloses.close (hext : inner.Extends d) :
    c.Extends c' ∧ (0 < c.depth → c'.shortLabels = d.shortLabels) ∧ c'.longLabels.issued = d.longLabels.issued := by
  obtain ⟨entry, rfl⟩ := h.opened
  obtain ⟨e, hexit, hrestore⟩ := h.closed
  have hsaved : (saveTemps c).Extends { saveTemps c with log := entry :: c.log } :=
    { Context.Extends.refl (saveTemps c) with }
  obtain ⟨hinside, hshort, hissued⟩ := exitConditional_extends hext hexit
  obtain ⟨hout, hshort', hlong'⟩ := restoreTemps_extends (hsaved.trans hinside) hrestore
  exact ⟨hout, fun hin => hshort'.trans (hshort hin), hlong' ▸ hissued⟩

theorem Encloses.fields : inner.maxInlineSkip = c.maxInlineSkip ∧ inner.depth = c.depth + 1 ∧
      inner.tempParams.inUse = c.tempParams.inUse := by
  obtain ⟨entry, rfl⟩ := h.opened
  exact enterConditional_fields { saveTemps c with log := entry :: c.log }

theorem Encloses.steady : Steady c inner ∧ Steady d c' := by
  obtain ⟨entry, rfl⟩ := h.opened
  obtain ⟨e, hexit, hrestore⟩ := h.closed
  have hlog : Context.Tame ({.labels} : Set Effect) fun c => { c with log := entry :: c.log } := by
    constructor <;> intros <;> rfl
  refine ⟨fun R hR => ?_, fun R hR => hR.trans (hR.exitConditional hexit) (hR.restoreTemps hrestore)⟩
  exact hR.trans (hR.pools c c.tempParams.save _ _ _) (hR.trans (hR.update hlog _) (hR.enterConditional _))

end

theorem straight_constantAssignment (t value : Int) (pos : Position) :
    Straight (fun _ => True) True [.constantAssignment t value pos] :=
  .assign trivial .nil

/-! ## Steps -/

mutual

/-- The lowering of a list of declarations. -/
inductive BuildsAll : List Declaration → Context → Scaffold Record → Context → Prop
  | nil {c : Context} : BuildsAll [] c .done c
  | cons {decl : Declaration} {ds : List Declaration} {c d c' : Context} {s s' : Scaffold Record}
      (h : Builds decl c s d) (h' : BuildsAll ds d s' c') : BuildsAll (decl :: ds) c (.append s s') c'

/-- The lowering of a declaration. -/
inductive Builds : Declaration → Context → Scaffold Record → Context → Prop
  | simple {decl : Declaration} {c c' : Context} {rs : List Record} (hd : decl.IsSimple)
      (h : decl.lower c = .ok rs c') : Builds decl c (.leaf decl rs) c'
  | conditional {branches : List (IfBranch Declaration)} {pos : Position} {c inner d c' : Context}
      {s : Scaffold Record} (hframe : Encloses c inner d c') (h : BuildsIf branches pos inner s d) :
      Builds (.conditional branches pos) c s c'
  | never {cond : Expr} {body : List Declaration} {pos : Position} {c inner c' : Context}
      (hframe : Encloses c inner inner c') (hcond : constantCondition? cond = some false) :
      Builds (.loop cond body pos) c .done c'
  | forever {cond : Expr} {body : List Declaration} {pos : Position} {label : Int}
      {c inner c₁ d c' : Context} {s : Scaffold Record} (hframe : Encloses c inner d c')
      (hcond : constantCondition? cond = some true) (hlabel : popLongLabel pos inner = .ok label c₁)
      (h : BuildsAll body c₁ s d) :
      Builds (.loop cond body pos) c (.loop cond (.ofLabel label pos) [] none s (.jumpTo label pos)) c'
  | loop {cond : Expr} {body : List Declaration} {pos : Position} {label : Int}
      {c inner c₁ c₂ c₃ d c' : Context} {before : List Record} {g : Guard Record} {s : Scaffold Record}
      (hframe : Encloses c inner d c')
      (hcond : constantCondition? cond = none) (hlabel : popLongLabel pos inner = .ok label c₁)
      (hbefore : lowerCondition cond pos c₁ = .ok (before, g.test) c₂) (h : BuildsAll body c₂ s c₃)
      (hguard : Guards c₃ g.test (s.elements ++ [.jumpTo label pos]) g.wraps d) :
      Builds (.loop cond body pos) c (.loop cond (.ofLabel label pos) before (some g) s (.jumpTo label pos)) c'

/-- The lowering of the branches of a conditional. If more than one of them can be taken, a temporary
parameter tells whether one has been. -/
inductive BuildsIf : List (IfBranch Declaration) → Position → Context → Scaffold Record → Context → Prop
  | nil {pos : Position} {c : Context} : BuildsIf [] pos c .done c
  | never {cond : Expr} {body : List Declaration} {pos pos' : Position}
      {rest : List (IfBranch Declaration)} {c c' : Context} {s : Scaffold Record}
      (hcond : constantCondition? cond = some false) (h : BuildsIf rest pos c s c') :
      BuildsIf (⟨some cond, body, pos'⟩ :: rest) pos c s c'
  | always {cond : Option Expr} {body : List Declaration} {pos pos' : Position}
      {rest : List (IfBranch Declaration)} {c c' : Context} {s : Scaffold Record}
      (hcond : ∀ e ∈ cond, constantCondition? e = some true) (h : BuildsAll body c s c') :
      BuildsIf (⟨cond, body, pos'⟩ :: rest) pos c s c'
  | single {cond : Expr} {body : List Declaration} {pos pos' : Position}
      {rest : List (IfBranch Declaration)} {c c₁ c₂ c' : Context} {before : List Record}
      {inner : Guard Record} {s : Scaffold Record} (hcond : constantCondition? cond = none)
      (hrest : ∀ b ∈ rest, ∃ e, b.cond = some e ∧ constantCondition? e = some false)
      (hbefore : lowerCondition cond pos' c = .ok (before, inner.test) c₁) (h : BuildsAll body c₁ s c₂)
      (hguard : Guards c₂ inner.test s.elements inner.wraps c') :
      BuildsIf (⟨some cond, body, pos'⟩ :: rest) pos c (.branch cond before [] inner none s .done) c'
  | chain {cond : Expr} {body : List Declaration} {pos pos' : Position}
      {rest : List (IfBranch Declaration)} {untaken : Int} {c c₁ c₂ c₃ c₄ c' : Context}
      {before : List Record} {inner : Guard Record} {s s' : Scaffold Record}
      (hcond : constantCondition? cond = none) (htemp : popTemp pos c = .ok untaken c₁)
      (hbefore : lowerCondition cond pos' c₁ = .ok (before, inner.test) c₂) (h : BuildsAll body c₂ s c₃)
      (hguard : Guards c₃ inner.test (.constantAssignment untaken 0 pos' :: s.elements) inner.wraps c₄)
      (hrest : BuildsArms untaken rest c₄ s' c') :
      BuildsIf (⟨some cond, body, pos'⟩ :: rest) pos c (.chain (.constantAssignment untaken 0xFFFFFFFF pos)
          (.branch cond before [.constantAssignment untaken 0 pos'] inner none s s')) c'

/-- The lowering of the branches after the first one. Only the last one does not tell that it is taken. -/
inductive BuildsArms : Int → List (IfBranch Declaration) → Context → Scaffold Record → Context → Prop
  | nil {untaken : Int} {c : Context} : BuildsArms untaken [] c .done c
  | never {untaken : Int} {cond : Expr} {body : List Declaration} {pos : Position}
      {rest : List (IfBranch Declaration)} {c c' : Context} {s : Scaffold Record}
      (hcond : constantCondition? cond = some false) (h : BuildsArms untaken rest c s c') :
      BuildsArms untaken (⟨some cond, body, pos⟩ :: rest) c s c'
  | always {untaken : Int} {cond : Option Expr} {body : List Declaration} {pos : Position}
      {rest : List (IfBranch Declaration)} {c c₁ c' : Context} {ws : List (Wrap Record)}
      {s : Scaffold Record} (hcond : ∀ e ∈ cond, constantCondition? e = some true)
      (h : BuildsAll body c s c₁) (hguard : Guards c₁ (takenTest untaken) s.elements ws c') :
      BuildsArms untaken (⟨cond, body, pos⟩ :: rest) c (.last ⟨takenTest untaken, ws⟩ s) c'
  | branch {untaken : Int} {cond : Expr} {body : List Declaration} {pos : Position}
      {rest : List (IfBranch Declaration)} {c c₁ c₂ c₃ c₄ c' : Context} {before mark : List Record}
      {inner : Guard Record} {outer : List (Wrap Record)} {s s' : Scaffold Record}
      (hcond : constantCondition? cond = none)
      (hmark : mark = [.constantAssignment untaken 0 pos] ∨ mark = [] ∧ s' = .done)
      (hbefore : lowerCondition cond pos c = .ok (before, inner.test) c₁) (h : BuildsAll body c₁ s c₂)
      (hinner : Guards c₂ inner.test (mark ++ s.elements) inner.wraps c₃)
      (houter : Guards c₃ (takenTest untaken) (before ++ inner.around (mark ++ s.elements)) outer c₄)
      (hrest : BuildsArms untaken rest c₄ s' c') :
      BuildsArms untaken (⟨some cond, body, pos⟩ :: rest) c
        (.branch cond before mark inner (some ⟨takenTest untaken, outer⟩) s s') c'

end

/-! ## Every lowering is built -/

theorem lowerBranch_always (h : lowerBranch ⟨b, true⟩ mark c = .ok rs c') :
    ∃ body, b.body c = .ok body c' ∧ rs = mark ++ body := by
  have h : (do return mark ++ (← b.body) : Lowering (List Record)) c = .ok rs c' := by
    unfold lowerBranch at h
    cases hcond : b.cond <;> simp only [hcond] at h <;> exact h
  obtain ⟨body, hbody, rfl⟩ := bind_pure_eq_ok.mp h
  exact ⟨body, hbody, rfl⟩

theorem lowerOthers_cons {b : KeptBranch} {rest : List KeptBranch} (h : lowerOthers untaken (b :: rest) c = .ok rs c') :
    ∃ mark records d ys d' others,
      (mark = [.constantAssignment untaken 0 b.branch.pos] ∧ rest ≠ [] ∨ mark = [] ∧ rest = []) ∧
      lowerBranch b mark c = .ok records d ∧
      skipRuns records (takenTest untaken) b.branch.pos d = .ok ys d' ∧
      lowerOthers untaken rest d' = .ok others c' ∧ rs = ys ++ others := by
  obtain ⟨records, d, hrecords, h⟩ := bind_eq_ok.mp h
  obtain ⟨ys, d', hys, h⟩ := bind_eq_ok.mp h
  obtain ⟨others, hothers, rfl⟩ := bind_pure_eq_ok.mp h
  refine ⟨_, records, d, ys, d', others, ?_, hrecords, hys, hothers, rfl⟩
  cases rest with
  | nil => exact .inr ⟨rfl, rfl⟩
  | cons b' rest => exact .inl ⟨rfl, by simp⟩

/-- What else is known of the records `rs` with the scaffold `s`: in which order the `leaves` have been
lowered. -/
structure Assembled (n : Nat) (leaves : List Declaration) (c : Context) (s : Scaffold Record) (rs : List Record)
    (c' : Context) : Prop where
  records : s.elements = rs
  ext : c.Extends c'
  runs : RunsTo n leaves c rs c'

/-- The lowering of a branch belongs to a branch of a declaration. -/
structure BranchBuilds (ib : IfBranch Declaration) (b : Branch) : Prop where
  cond : b.cond = ib.cond
  pos : b.pos = ib.pos
  body : ∀ c rs c', c.InRange → b.body c = .ok rs c' →
    ∃ s, BuildsAll ib.body c s c' ∧ Assembled c.depth (Declaration.flowAll ib.body).leaves c s rs c'

theorem BranchBuilds.keptBranches_cons {ib : IfBranch Declaration} (hb : BranchBuilds ib b) (rest : List Branch) :
    ((∀ e ∈ ib.cond, constantCondition? e = some true) ∧ keptBranches (b :: rest) = [⟨b, true⟩]) ∨
      ∃ e, ib.cond = some e ∧ ((constantCondition? e = some false ∧ keptBranches (b :: rest) = keptBranches rest) ∨
          (constantCondition? e = none ∧ keptBranches (b :: rest) = ⟨b, false⟩ :: keptBranches rest)) := by
  rw [← hb.cond]
  cases hcond : b.cond with
  | none => exact .inl ⟨by simp, by simp [keptBranches, hcond]⟩
  | some e =>
    cases hconst : constantCondition? e with
    | none => exact .inr ⟨e, rfl, .inr ⟨hconst, by simp [keptBranches, hcond, hconst]⟩⟩
    | some value =>
      cases value with
      | true => exact .inl ⟨by simpa using hconst, by simp [keptBranches, hcond, hconst]⟩
      | false => exact .inr ⟨e, rfl, .inl ⟨hconst, by simp [keptBranches, hcond, hconst]⟩⟩

theorem skipRuns_steady (h : skipRuns xs test pos c = .ok ys c') : Steady c c' :=
  (skipRuns_program (Set.mem_singleton _)).steady h

theorem popLongLabel_steady {label : Int} (h : popLongLabel pos c = .ok label c') : Steady c c' :=
  (Program.popLongLabel pos (Set.mem_singleton _)).steady h

theorem lowerBranch_builds {ib : IfBranch Declaration} {cond : Expr} (hb : BranchBuilds ib b)
    (hcond : ib.cond = some cond) (hconst : constantCondition? cond = none)
    (hmark : ∀ r ∈ mark, r.IsGlue) (hc : c.InRange) (h : lowerBranch ⟨b, false⟩ mark c = .ok rs c') :
    ∃ before, ∃ inner : Guard Record, ∃ s c₁ c₂, lowerCondition cond ib.pos c = .ok (before, inner.test) c₁ ∧
      BuildsAll ib.body c₁ s c₂ ∧ Guards c₂ inner.test (mark ++ s.elements) inner.wraps c' ∧
      rs = before ++ inner.around (mark ++ s.elements) ∧ c.Extends c' ∧
      RunsTo c.depth (flowAll ib.body).leaves c rs c' := by
  unfold lowerBranch at h
  simp only [hb.cond, hcond] at h
  obtain ⟨⟨before, test⟩, c₁, hbefore, h⟩ := bind_eq_ok.mp h
  obtain ⟨records, c₂, hrecords, h⟩ := bind_eq_ok.mp h
  obtain ⟨ys, hskip, rfl⟩ := bind_pure_eq_ok.mp h
  have hext := (lowerCondition_spec hc hconst hbefore).1
  obtain ⟨s, hs, rfl, hext', hruns⟩ := hb.body c₁ records c₂ (hext.inRange hc) hrecords
  obtain ⟨inner, hguard, rfl⟩ := skipRuns_guards ((hext.trans hext').inRange hc) hskip
  obtain ⟨hglue, hsize⟩ := lowerCondition_glue hbefore
  rw [hext.depth] at hruns
  exact ⟨before, ⟨test, inner⟩, s, c₁, c₂, hb.pos ▸ hbefore, hs, hguard, rfl,
    (hext.trans hext').trans hguard.ext, hruns.around (lowerCondition_program.steady hbefore)
      (skipRuns_steady hskip) (((Pads.front hmark).trans (hguard.pads hsize)).trans (.front hglue))⟩

section
variable (hbs : Forall₂ BranchBuilds branches bs)
include hbs

theorem lowerOthers_builds (hc : c.InRange) (h : lowerOthers untaken (keptBranches bs) c = .ok rs c') :
    ∃ s, BuildsArms untaken branches c s c' ∧
      Assembled c.depth (flowBranches branches).leaves c s rs c' ∧ (keptBranches bs = [] → s = .done) := by
  induction hbs generalizing c rs with
  | nil =>
    obtain ⟨rfl, rfl⟩ := pure_eq_ok.mp h
    exact ⟨.done, .nil, ⟨rfl, .refl c, .nil (.refl c)⟩, fun _ => rfl⟩
  | @cons ib b branches bs hb hbs ih =>
    obtain ⟨cond, body, pos⟩ := ib
    rcases hb.keptBranches_cons bs with ⟨hconst, hkept⟩ | ⟨e, he, ⟨hconst, hkept⟩ | ⟨hconst, hkept⟩⟩
    · -- the branch is the last one
      rw [hkept] at h ⊢
      obtain ⟨mark, records, d, ys, d', others, hmark, hbranch, hskip, hothers, rfl⟩ := lowerOthers_cons h
      obtain ⟨rfl, rfl⟩ := pure_eq_ok.mp hothers
      obtain rfl : mark = [] := by simpa using hmark
      obtain ⟨bodyRecords, hrecords, rfl⟩ := lowerBranch_always hbranch
      obtain ⟨s, hs, rfl, hext, hruns⟩ := hb.body c _ d hc hrecords
      obtain ⟨ws, hguard, rfl⟩ := skipRuns_guards (hext.inRange hc) hskip
      rw [append_nil, flowBranches_always hconst]
      exact ⟨_, .always hconst hs hguard, ⟨rfl, hext.trans hguard.ext,
        hruns.around (.refl c) (skipRuns_steady hskip) (hguard.pads (.inr (.inr rfl)))⟩, by simp⟩
    · -- the branch is never taken
      rw [hkept] at h ⊢
      obtain rfl : cond = some e := he
      obtain ⟨s, hs, hrest⟩ := ih hc h
      exact ⟨s, .never hconst hs, (flowBranches_never hconst).symm ▸ hrest⟩
    · -- the branch has a condition
      rw [hkept] at h ⊢
      obtain ⟨mark, records, d, ys, d', others, hmark, hbranch, hskip, hothers, rfl⟩ := lowerOthers_cons h
      obtain rfl : cond = some e := he
      have hglue : ∀ r ∈ mark, r.IsGlue := by
        rcases hmark with ⟨rfl, -⟩ | ⟨rfl, -⟩
        · exact forall_mem_singleton.mpr (glue_constantAssignment _ _ _)
        · simp
      obtain ⟨before, inner, s, c₁, c₂, hbefore, hs, hinner, rfl, hext, hruns⟩ :=
        lowerBranch_builds hb rfl hconst hglue hc hbranch
      obtain ⟨outer, houter, rfl⟩ := skipRuns_guards (hext.inRange hc) hskip
      have hext' := hext.trans houter.ext
      obtain ⟨s', hs', ⟨rfl, hext'', hruns'⟩, hdone⟩ := ih (hext'.inRange hc) hothers
      have hpos : b.pos = pos := hb.pos
      have hmark' : mark = [.constantAssignment untaken 0 pos] ∨ mark = [] ∧ s' = .done :=
        hmark.imp (fun hmark => hpos ▸ hmark.1) (And.imp_right hdone)
      rw [hext'.depth] at hruns'
      refine ⟨_, .branch hconst hmark' hbefore hs hinner houter hs', ⟨rfl, hext'.trans hext'', ?_⟩, by simp⟩
      rw [flowBranches_either hconst]
      exact (hruns.around (.refl c) (skipRuns_steady hskip) (houter.pads (.inr (.inr rfl)))).append hruns'

theorem cond_of_kept_nil (h : keptBranches bs = []) :
    ∀ ib ∈ branches, ∃ e, ib.cond = some e ∧ constantCondition? e = some false := by
  induction hbs with
  | nil => simp
  | @cons ib b branches bs hb hbs ih => grind [hb.keptBranches_cons]

theorem lowerIf_builds (hc : c.InRange) (h : (match keptBranches bs with
      | [] => return []
      | [b] => lowerBranch b []
      | b :: rest => do
        let untaken ← popTemp pos
        let records ← lowerBranch b [.constantAssignment untaken 0 b.branch.pos]
        let others ← lowerOthers untaken rest
        return .constantAssignment untaken 0xFFFFFFFF pos :: records ++ others :
          Lowering (List Record)) c = .ok rs c') :
    ∃ s, BuildsIf branches pos c s c' ∧ Assembled c.depth (flowBranches branches).leaves c s rs c' := by
  induction hbs with
  | nil =>
    obtain ⟨rfl, rfl⟩ := pure_eq_ok.mp h
    exact ⟨.done, .nil, rfl, .refl c, .nil (.refl c)⟩
  | @cons ib b branches bs hb hbs ih =>
    obtain ⟨cond, body, pos'⟩ := ib
    have hpos : b.pos = pos' := hb.pos
    rcases hb.keptBranches_cons bs with ⟨hconst, hkept⟩ | ⟨e, he, ⟨hconst, hkept⟩ | ⟨hconst, hkept⟩⟩
    · -- the branch is the only one
      rw [hkept] at h
      obtain ⟨records, hrecords, rfl⟩ := lowerBranch_always h
      obtain ⟨s, hs, hrest⟩ := hb.body c _ c' hc hrecords
      rw [flowBranches_always hconst]
      exact ⟨s, .always hconst hs, hrest⟩
    · -- the branch is never taken
      rw [hkept] at h
      obtain rfl : cond = some e := he
      obtain ⟨s, hs, hrest⟩ := ih h
      exact ⟨s, .never hconst hs, (flowBranches_never hconst).symm ▸ hrest⟩
    · -- the branch has a condition
      rw [hkept] at h
      obtain rfl : cond = some e := he
      rw [flowBranches_either hconst]
      cases hrest : keptBranches bs with
      | nil =>
        rw [hrest] at h
        obtain ⟨before, inner, s, c₁, c₂, hbefore, hs, hinner, rfl, hext, hruns⟩ :=
          lowerBranch_builds hb rfl hconst (by simp) hc h
        have hnever := cond_of_kept_nil hbs hrest
        refine ⟨_, .single hconst hnever hbefore hs hinner, append_nil _, hext, ?_⟩
        simp_all [Flow.leaves, flowBranches_of_never]
      | cons b' rest =>
        rw [hrest] at h
        obtain ⟨untaken, d₁, hpop, h⟩ := bind_eq_ok.mp h
        obtain ⟨records, d₂, hrecords, h⟩ := bind_eq_ok.mp h
        obtain ⟨others, hothers, rfl⟩ := bind_pure_eq_ok.mp h
        have hext := (popTemp_eq_ok hc hpop).1
        obtain ⟨before, inner, s, c₁, c₂, hbefore, hs, hinner, rfl, hext', hruns⟩ :=
          lowerBranch_builds hb rfl hconst
            (forall_mem_singleton.mpr (glue_constantAssignment _ _ _)) (hext.inRange hc) hrecords
        rw [← hrest] at hothers
        have hext'' := hext.trans hext'
        obtain ⟨s', hs', ⟨rfl, hext₃, hruns'⟩, -⟩ := lowerOthers_builds hbs (hext''.inRange hc) hothers
        rw [show (⟨b, false⟩ : KeptBranch).branch.pos = pos' from hpos] at hinner hruns ⊢
        rw [hext.depth] at hruns
        rw [hext''.depth] at hruns'
        refine ⟨_, .chain hconst hpop hbefore hs hinner hs', by simp [Scaffold.elements, Guard.aroundOr],
          hext''.trans hext₃, ?_⟩
        exact (hruns.append hruns').around ((Program.popTemp pos).steady hpop) (.refl _)
          (.insert (glue_constantAssignment _ _ _) (.refl _))

end

mutual

theorem lower_builds (decl : Declaration) {c c' : Context} {rs : List Record} (hc : c.InRange)
    (h : decl.lower c = .ok rs c') :
    ∃ s, Builds decl c s c' ∧ Assembled (c.depth + decl.nesting) decl.flow.leaves c s rs c' := by
  cases decl with
  | conditional branches pos =>
    unfold lower at h
    obtain ⟨inner, d, hframe, h⟩ := framed_encloses h
    obtain ⟨s, hs, hrecords, hext, hruns⟩ :=
      lowerIf_builds (lowerBranches_builds branches) (hframe.inRange hc) h
    rw [hframe.fields.2.1] at hruns
    exact ⟨s, .conditional hframe hs, hrecords, (hframe.close hext).1,
      hruns.around hframe.steady.1 hframe.steady.2 (.refl rs)⟩
  | loop cond body pos =>
    unfold lower at h
    obtain ⟨inner, d, hframe, h⟩ := framed_encloses h
    have hinner := hframe.inRange hc
    cases hconst : constantCondition? cond with
    | some value =>
      rw [hconst] at h
      cases value with
      | false =>
        obtain ⟨rfl, rfl⟩ := pure_eq_ok.mp h
        rw [flow, if_pos hconst]
        exact ⟨.done, .never hframe hconst, rfl, (hframe.close (.refl _)).1,
          .nil (hframe.steady.1.trans hframe.steady.2)⟩
      | true =>
        obtain ⟨label, c₁, hpop, h⟩ := bind_eq_ok.mp h
        obtain ⟨records, hrecords, rfl⟩ := bind_pure_eq_ok.mp h
        have hext := (popLongLabel_eq_ok hinner hpop).1
        obtain ⟨s, hs, rfl, hext', hruns⟩ := lowerAll_builds body (hext.inRange hinner) hrecords
        rw [hext.depth, hframe.fields.2.1] at hruns
        rw [flow, if_neg (by simp [hconst])]
        refine ⟨_, .forever hframe hconst hpop hs, rfl, (hframe.close (hext.trans hext')).1, ?_⟩
        exact hruns.around (hframe.steady.1.trans (popLongLabel_steady hpop)) hframe.steady.2
          (.insert (glue_ofLabel label pos) (.back (glue_jumpTo label pos)))
    | none =>
      rw [hconst] at h
      obtain ⟨label, c₁, hpop, h⟩ := bind_eq_ok.mp h
      obtain ⟨⟨before, test⟩, c₂, hbefore, h⟩ := bind_eq_ok.mp h
      obtain ⟨records, c₃, hrecords, h⟩ := bind_eq_ok.mp h
      obtain ⟨ys, hskip, rfl⟩ := bind_pure_eq_ok.mp h
      have hext := (popLongLabel_eq_ok hinner hpop).1
      have hext₂ := hext.trans (lowerCondition_spec (hext.inRange hinner) hconst hbefore).1
      obtain ⟨s, hs, rfl, hext', hruns⟩ := lowerAll_builds body (hext₂.inRange hinner) hrecords
      have hext₃ := hext₂.trans hext'
      obtain ⟨ws, hguard, rfl⟩ := skipRuns_guards (hext₃.inRange hinner) hskip
      obtain ⟨hglue, hsize⟩ := lowerCondition_glue hbefore
      rw [hext₂.depth, hframe.fields.2.1] at hruns
      rw [flow, if_neg (by simp [hconst])]
      have hopen := (hframe.steady.1.trans (popLongLabel_steady hpop)).trans (lowerCondition_program.steady hbefore)
      refine ⟨_, @Builds.loop _ _ _ _ _ _ _ _ _ _ _ _ ⟨test, ws⟩ _ hframe hconst hpop hbefore hs hguard, rfl,
        (hframe.close (hext₃.trans hguard.ext)).1, hruns.around hopen ((skipRuns_steady hskip).trans hframe.steady.2) ?_⟩
      exact .insert (glue_ofLabel label pos)
        (((Pads.back (glue_jumpTo label pos)).trans (hguard.pads hsize)).trans (.front hglue))
  | _ =>
    refine ⟨.leaf _ rs, .simple ?_ h, rfl, lower_extends ?_ hc h, .leaf ?_ h⟩
    all_goals trivial

/-- **Every list of declarations that is lowered has a scaffold.** -/
theorem lowerAll_builds (ds : List Declaration) {c c' : Context} {rs : List Record} (hc : c.InRange)
    (h : lowerAll ds c = .ok rs c') : ∃ s, BuildsAll ds c s c' ∧ Assembled c.depth (flowAll ds).leaves c s rs c' := by
  cases ds with
  | nil =>
    obtain ⟨rfl, rfl⟩ := pure_eq_ok.mp h
    exact ⟨.done, .nil, rfl, .refl c, .nil (.refl c)⟩
  | cons decl ds =>
    obtain ⟨first, d, hfirst, h⟩ := bind_eq_ok.mp h
    obtain ⟨rest, hrest, rfl⟩ := bind_pure_eq_ok.mp h
    obtain ⟨s, hs, rfl, hext, hruns⟩ := lower_builds decl hc hfirst
    obtain ⟨s', hs', rfl, hext', hruns'⟩ := lowerAll_builds ds (hext.inRange hc) hrest
    rw [hext.depth] at hruns'
    exact ⟨.append s s', .cons hs hs', rfl, hext.trans hext',
      (hruns.mono (Nat.le_add_right _ _)).append hruns'⟩

theorem lowerBranches_builds (branches : List (IfBranch Declaration)) :
    Forall₂ BranchBuilds branches (lowerBranches branches) := by
  cases branches with
  | nil => exact .nil
  | cons b rest =>
    obtain ⟨cond, body, pos⟩ := b
    exact .cons ⟨rfl, rfl, fun c rs c' hc h => lowerAll_builds body hc h⟩ (lowerBranches_builds rest)

end

end Grf.Lowering
