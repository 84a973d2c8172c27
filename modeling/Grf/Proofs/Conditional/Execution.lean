import Grf.Proofs.Conditional.Outline

/-! # Conditionals execute the right branch

The engine passes over the records of a scaffold and has done what the scaffold means (`Scaffold.done_of_formed`), if
every guard on the way stays open and no assignment with a computed target goes to a temporary parameter. A branch that
is executed sets the parameter `untaken` to zero first, so that the guards around all later branches leave these out.
-/

namespace Grf

open Engine Guard

theorem Engine.executeAll_constantAssignment {e : Engine} (he : e.Ready) (t value : Int) (pos : Position) :
    (e.executeAll [.constantAssignment t value pos]).Ready ∧
      (e.executeAll [.constantAssignment t value pos]).params = e.params.set t (Word.ofInt value) := by
  refine ⟨⟨?_, rfl⟩, ?_⟩
  · exact (e.executeAll_mode _).trans he.mode
  · show AssignRecord.exec (AssignRecord.patched _ e.params e.pending) e.params = _
    rw [he.pending]
    rfl

theorem takenTest_holds {untaken : Int} (h : IsTemporary untaken) (p : Params) :
    (takenTest untaken).holds p = (p untaken == 0) := by
  have hne : untaken ≠ SkipCondition.always.param := by
    rintro rfl
    exact absurd h (by decide)
  unfold takenTest
  rw [(Comparison.holds_word p untaken 0).1, Params.read_of_ne p hne]
  rfl

namespace Scaffold

variable {limit : Nat} {e e' : Engine} {s : Scaffold Record}

theorem log_subset_exec? (h : s.exec? e = some e') : ∀ x ∈ e.log, x ∈ e'.log := by
  induction s generalizing e e' with
  | done =>
    obtain rfl := Option.some.inj h
    exact fun x hx => hx
  | leaf decl records =>
    obtain rfl := Option.some.inj h
    exact e.log_subset_executeAll records
  | append first second ih ih' =>
    obtain ⟨d, hd, h⟩ := Option.bind_eq_some_iff.mp h
    exact fun x hx => ih' h x (ih hd x hx)
  | chain start arms ih => exact fun x hx => ih h x (e.log_subset_executeAll [start] x hx)
  | branch cond before mark inner outer body rest ihbody ihrest =>
    have hbefore := e.log_subset_executeAll before
    have hmark := (e.executeAll before).log_subset_executeAll mark
    grind [exec?]
  | last g body ih => exact ih h
  | loop => cases h

end Scaffold

namespace BranchFormed

variable {limit : Nat} {held : Int → Prop} {cond : Expr} {before mark body : List Record}
  {inner : Guard Record} {e e' : Engine}
variable (h : BranchFormed limit held cond before mark inner body) (he : e.Ready)
include h he

theorem ready_before : (e.executeAll before).Ready ∧ ∀ t, held t → (e.executeAll before).params t = e.params t := by
  obtain ⟨hpending, hframe⟩ := h.scratch.frame he.pending
  refine ⟨⟨(e.executeAll_mode before).trans he.mode, hpending⟩, fun t ht => ?_⟩
  exact hframe t (fun hnot => hnot ht) False.elim

theorem run_false (hcan : cond.CanTest e.params) (hcond : cond.isTrue? e.params = some false) :
    e.run limit (before ++ inner.around (mark ++ body)) = e.executeAll before := by
  rw [run_append, h.scratch.run_eq he.mode]
  exact h.formed.run_skipped (h.ready_before he).1 (h.holds e false he.pending hcan hcond)

theorem run_true (hmark : ∀ r ∈ mark, ¬r.IsControl) (hstays : inner.Stays limit (mark ++ body) (e.executeAll before))
    (hbody : ((e.executeAll before).executeAll mark).run limit body = e') (he' : e'.Ready) :
    e.run limit (before ++ inner.around (mark ++ body)) = e' := by
  have hready := (h.ready_before he).1
  have hrun : (e.executeAll before).run limit (mark ++ body) = e' := by
    rw [run_append, run_eq_executeAll hmark hready.mode]
    exact hbody
  rw [run_append, h.scratch.run_eq he.mode]
  rw [h.formed.run_taken hready hstays (.inl (by rw [hrun]; exact he'.mode))]
  exact hrun

end BranchFormed

namespace Scaffold

variable {limit : Nat} {held : Int → Prop} {untaken : Int} {e e' : Engine} {s body rest : Scaffold Record}
  {cond : Expr} {before mark : List Record} {inner : Guard Record} {outer : Option (Guard Record)} {pos : Position}

theorem Arms.run_skipped (harms : Arms limit held untaken false s) (htemp : IsTemporary untaken)
    (he : e.Ready) (hzero : e.params untaken = 0) : e.run limit s.elements = e := by
  have hclosed : (takenTest untaken).holds e.params = true := by
    rw [takenTest_holds htemp, hzero]
    rfl
  induction s with
  | done => rfl
  | branch cond before mark inner outer body rest _ ih =>
    cases harms with
    | other hbranch hmark htest houter hbody hrest =>
      show e.run limit (Guard.around _ _ ++ rest.elements) = e
      simp_all [run_append, houter.run_skipped]
  | last g body _ =>
    cases harms with
    | last htest hguard hbody => exact hguard.run_skipped he (by rw [htest]; exact hclosed)
  | leaf | append | chain | loop => cases harms

/-- A scaffold that is reached by an engine which executes records, with what it is meant to do, under
the conditions that make the engine do it. -/
structure Goes (limit : Nat) (s : Scaffold Record) (e e' : Engine) : Prop where
  ready : e.Ready
  exec : s.exec? e = some e'
  stays : s.GuardsStay limit e
  spares : ∀ x ∈ e'.log, ∀ n, IsTemporary n → x.Spares n

/-- The engine does what a scaffold is meant to do, and `kept` parameters keep their values. -/
structure Done (limit : Nat) (kept : Int → Prop) (s : Scaffold Record) (e e' : Engine) : Prop where
  run : e.run limit s.elements = e'
  ready : e'.Ready
  frame : ∀ t, kept t → e'.params t = e.params t

theorem Goes.branch (h : Goes limit (.branch cond before mark inner outer body rest) e e')
    (hbefore : (e.executeAll before).Ready) (hmark : ((e.executeAll before).executeAll mark).Ready) :
    (cond.isTrue? e.params = some true ∧ inner.Stays limit (mark ++ body.elements) (e.executeAll before) ∧
        Goes limit body ((e.executeAll before).executeAll mark) e') ∨
      (cond.isTrue? e.params = some false ∧ Goes limit rest (e.executeAll before) e') := by
  obtain ⟨-, hexec, ⟨-, -, htrue, hfalse⟩, hspares⟩ := h
  simp only [exec?] at hexec
  split at hexec
  · cases hexec
  · rename_i hcond
    obtain ⟨hstays, hbody⟩ := htrue hcond
    exact .inl ⟨hcond, hstays, hmark, hexec, hbody, hspares⟩
  · rename_i hcond
    exact .inr ⟨hcond, hbefore, hexec, hfalse hcond, hspares⟩

theorem done_done (h : Goes limit .done e e') : Done limit held .done e e' := by
  obtain rfl := Option.some.inj h.exec
  exact ⟨rfl, h.ready, fun _ _ => rfl⟩

theorem done_leaf {decl : Declaration} {rs : List Record} (hkeeps : Lowering.Keeps held rs)
    (hheld : ∀ t, held t → IsTemporary t) (h : Goes limit (.leaf decl rs) e e') :
    Done limit held (.leaf decl rs) e e' := by
  obtain rfl := Option.some.inj h.exec
  obtain ⟨hpending, hframe⟩ := hkeeps.frame h.ready.pending
  refine ⟨hkeeps.run_eq h.ready.mode, ⟨(e.executeAll_mode rs).trans h.ready.mode, hpending⟩, ?_⟩
  grind [h.spares]

theorem run_aroundOr {xs : List Record} (he : e.Ready) (hformed : ∀ g ∈ outer, g.Formed limit xs)
    (hstays : ∀ g ∈ outer, g.Stays limit xs e) (hsettled : (e.run limit xs).Settled) :
    e.run limit (aroundOr outer xs) = e.run limit xs := by
  cases outer with
  | none => rfl
  | some g => exact (hformed g rfl).run_taken he (hstays g rfl) hsettled

/-- A branch and the branches after it do what they are meant to do, if its body does, the branches after
it do, and these are left out once its body has been executed. -/
theorem done_branch {kept : Int → Prop} (hkept : ∀ t, kept t → held t)
    (hbranch : BranchFormed limit held cond before mark inner body.elements) (hcontrol : ∀ r ∈ mark, ¬r.IsControl)
    (hmark : ∀ d : Engine, d.Ready → (d.executeAll mark).Ready ∧
      ∀ t, kept t → (d.executeAll mark).params t = d.params t)
    (houter : ∀ g ∈ outer, g.Formed limit (before ++ inner.around (mark ++ body.elements)))
    (h : Goes limit (.branch cond before mark inner outer body rest) e e')
    (hbody : ∀ d, Goes limit body d e' → Done limit held body d e')
    (htaken : ∀ d : Engine, d.Ready → Done limit held body (d.executeAll mark) e' →
      e'.run limit rest.elements = e') (hrest : ∀ d, (∀ t, held t → d.params t = e.params t) → Goes limit rest d e' →
      Done limit kept rest d e') : Done limit kept (.branch cond before mark inner outer body rest) e e' := by
  obtain ⟨hready, hframe⟩ := hbranch.ready_before h.ready
  obtain ⟨hready', hframe'⟩ := hmark _ hready
  obtain ⟨hcan, hstays, -⟩ := h.stays
  rcases h.branch hready hready' with ⟨hcond, hinner, hgoes⟩ | ⟨hcond, hgoes⟩
  · -- the condition is true: the body is executed, and the branches after it are left out
    have hdone := hbody _ hgoes
    have hrun : e.run limit (before ++ inner.around (mark ++ body.elements)) = e' :=
      hbranch.run_true h.ready hcontrol hinner hdone.run hdone.ready
    refine ⟨?_, hdone.ready, fun t ht => ?_⟩
    · rw [elements, run_append, run_aroundOr h.ready houter hstays, hrun]
      · exact htaken _ hready hdone
      · exact .inl (by rw [hrun]; exact hdone.ready.mode)
    grind [hdone.frame]
  · -- the condition is false: the body is left out, and the branches after it are tried
    have hdone := hrest _ hframe hgoes
    have hrun : e.run limit (before ++ inner.around (mark ++ body.elements)) = e.executeAll before :=
      hbranch.run_false h.ready hcan hcond
    refine ⟨?_, hdone.ready, fun t ht => ?_⟩
    · rw [elements, run_append, run_aroundOr h.ready houter hstays, hrun]
      · exact hdone.run
      · exact .inl (by rw [hrun]; exact hready.mode)
    · rw [hdone.frame t ht, hframe t (hkept t ht)]

def DoneFormed (limit : Nat) (s : Scaffold Record) : Prop :=
  ∀ {held : Int → Prop} {e e' : Engine}, (∀ t, held t → IsTemporary t) → Formed limit held s →
    Goes limit s e e' → Done limit held s e e'

/-- Well-formed branches do what they are meant to do while none has been taken. -/
def DoneArms (limit : Nat) (s : Scaffold Record) : Prop :=
  ∀ {held : Int → Prop} {untaken : Int} {first : Bool} {e e' : Engine},
    (∀ t, held t → IsTemporary t) → held untaken → Arms limit held untaken first s →
    e.params untaken = Word.ofInt 0xFFFFFFFF → Goes limit s e e' →
    Done limit (fun t => held t ∧ t ≠ untaken) s e e'

theorem doneFormed_chain {start : Record} {arms : Scaffold Record} (ih : DoneArms limit arms) :
    DoneFormed limit (.chain start arms) := by
  intro held e e' hheld hformed h
  obtain ⟨he, hexec, hstays, hspares⟩ := h
  cases hformed with
  | @chain _ untaken pos _ htemp hfresh harms =>
    obtain ⟨hready, hparams⟩ := executeAll_constantAssignment he untaken 0xFFFFFFFF pos
    have hheld' : ∀ t, held t ∨ t = untaken → IsTemporary t := by
      rintro t (ht | rfl)
      · exact hheld t ht
      · exact htemp
    have hall : (e.executeAll [.constantAssignment untaken 0xFFFFFFFF pos]).params untaken = Word.ofInt 0xFFFFFFFF := by
      rw [hparams, Params.set_self]
    obtain ⟨hrun, hready', hframe⟩ := ih hheld' (.inr rfl) harms hall ⟨hready, hexec, hstays, hspares⟩
    refine ⟨?_, hready', fun t ht => ?_⟩
    · have hstart : e.run limit [.constantAssignment untaken 0xFFFFFFFF pos] =
          e.executeAll [.constantAssignment untaken 0xFFFFFFFF pos] :=
        run_eq_executeAll (by simp [Record.IsControl, Record.constantAssignment]) he.mode
      show e.run limit ([_] ++ arms.elements) = e'
      rw [run_append, hstart, hrun]
    · have hne : t ≠ untaken := by
        rintro rfl
        exact hfresh ht
      rw [hframe t ⟨.inl ht, hne⟩, hparams, Params.set_of_ne _ _ _ hne]

theorem doneFormed_append {a b : Scaffold Record} (iha : DoneFormed limit a) (ihb : DoneFormed limit b) :
    DoneFormed limit (.append a b) := by
  intro held e e' hheld hformed h
  cases hformed with
  | append hforma hformb =>
    obtain ⟨he, hexec, ⟨hstaysa, hstaysb⟩, hspares⟩ := h
    obtain ⟨d, hd, hexec⟩ := Option.bind_eq_some_iff.mp hexec
    have hspares' : ∀ x ∈ d.log, ∀ n, IsTemporary n → x.Spares n := fun x hx => hspares x (log_subset_exec? hexec x hx)
    obtain ⟨hrun, hready, hframe⟩ := iha hheld hforma ⟨he, hd, hstaysa, hspares'⟩
    obtain ⟨hrun', hready', hframe'⟩ := ihb hheld hformb ⟨hready, hexec, hstaysb d hd, hspares⟩
    refine ⟨?_, hready', fun t ht => (hframe' t ht).trans (hframe t ht)⟩
    rw [elements, run_append, hrun, hrun']

theorem executeAll_mark {d : Engine} (hd : d.Ready) (untaken : Int) (pos : Position) :
    (d.executeAll [.constantAssignment untaken 0 pos]).Ready ∧
      (d.executeAll [.constantAssignment untaken 0 pos]).params untaken = 0 ∧
      ∀ t, t ≠ untaken → (d.executeAll [.constantAssignment untaken 0 pos]).params t = d.params t := by
  obtain ⟨hready, hparams⟩ := executeAll_constantAssignment hd untaken 0 pos
  refine ⟨hready, ?_, fun t ht => ?_⟩
  · rw [hparams, Params.set_self]
    rfl
  · rw [hparams, Params.set_of_ne _ _ _ ht]

theorem done_marked (ihbody : DoneFormed limit body) (ihrest : DoneArms limit rest)
    (hheld : ∀ t, held t → IsTemporary t) (huntaken : held untaken)
    (hbranch : BranchFormed limit held cond before [.constantAssignment untaken 0 pos] inner body.elements)
    (houter : ∀ g ∈ outer, g.Formed limit
      (before ++ inner.around ([.constantAssignment untaken 0 pos] ++ body.elements)))
    (hbody : Formed limit held body) (hrest : Arms limit held untaken false rest)
    (hall : e.params untaken = Word.ofInt 0xFFFFFFFF)
    (h : Goes limit (.branch cond before [.constantAssignment untaken 0 pos] inner outer body rest) e e') :
    Done limit (fun t => held t ∧ t ≠ untaken)
      (.branch cond before [.constantAssignment untaken 0 pos] inner outer body rest) e e' := by
  refine done_branch (fun t ht => ht.1) hbranch ?_ (fun d hd => ?_) houter h
    (fun d hgoes => ihbody hheld hbody hgoes) (fun d hd hdone => ?_) fun d hframe hgoes => ?_
  · simp [Record.IsControl, Record.constantAssignment]
  · obtain ⟨hready, -, hframe⟩ := executeAll_mark hd untaken pos
    exact ⟨hready, fun t ht => hframe t ht.2⟩
  · -- the mark is still there after the body
    refine hrest.run_skipped (hheld untaken huntaken) hdone.ready ?_
    rw [hdone.frame untaken huntaken, (executeAll_mark hd untaken pos).2.1]
  · exact ihrest hheld huntaken hrest ((hframe untaken huntaken).trans hall) hgoes

theorem doneFormed_branch (ihbody : DoneFormed limit body) :
    DoneFormed limit (.branch cond before mark inner outer body rest) := by
  intro held e e' hheld hformed h
  cases hformed with
  | branch hbranch hbody =>
    exact done_branch (fun _ ht => ht) hbranch (by simp) (fun d hd => ⟨hd, fun _ _ => rfl⟩) (by simp)
      h (fun d hgoes => ihbody hheld hbody hgoes) (fun _ _ _ => rfl)
      fun d _ hgoes => done_done hgoes

theorem doneArms_branch (ihbody : DoneFormed limit body) (ihrest : DoneArms limit rest) :
    DoneArms limit (.branch cond before mark inner outer body rest) := by
  intro held untaken first e e' hheld huntaken harms hall h
  cases harms with
  | first hbranch hbody hrest => exact done_marked ihbody ihrest hheld huntaken hbranch (by simp) hbody hrest hall h
  | @other _ _ _ _ _ pos _ guard _ _ hbranch hmark htest houter hbody hrest =>
    have houter' : ∀ g ∈ some guard, g.Formed limit (before ++ inner.around (mark ++ body.elements)) := by
      rintro g ⟨rfl⟩
      exact houter
    rcases hmark with rfl | ⟨rfl, rfl⟩
    · exact done_marked ihbody ihrest hheld huntaken hbranch houter' hbody hrest hall h
    · -- the last branch needs no mark
      exact done_branch (fun t ht => ht.1) hbranch (by simp) (fun d hd => ⟨hd, fun _ _ => rfl⟩)
        houter' h (fun d hgoes => ihbody hheld hbody hgoes) (fun _ _ _ => rfl)
        fun d _ hgoes => done_done hgoes

theorem doneArms_last {g : Guard Record} (ih : DoneFormed limit body) : DoneArms limit (.last g body) := by
  intro held untaken first e e' hheld _ harms _ h
  cases harms with
  | last htest hguard hbody =>
    obtain ⟨hstays, hinside⟩ := h.stays
    obtain ⟨hrun, hready, hframe⟩ := ih hheld hbody ⟨h.ready, h.exec, hinside, h.spares⟩
    refine ⟨?_, hready, fun t ht => hframe t ht.1⟩
    show e.run limit (g.around body.elements) = e'
    rw [hguard.run_taken h.ready hstays (.inl (by rw [hrun]; exact hready.mode)), hrun]

/-- **The engine does what a scaffold is meant to do.** -/
theorem done_of_formed (limit : Nat) (s : Scaffold Record) : DoneFormed limit s ∧ DoneArms limit s := by
  induction s with
  | done => exact ⟨fun _ _ h => done_done h, fun _ _ _ _ h => done_done h⟩
  | leaf decl records =>
    refine ⟨fun hheld hformed h => ?_, fun _ _ harms _ _ => ?_⟩
    · cases hformed with
      | leaf hkeeps => exact done_leaf hkeeps hheld h
    · cases harms
  | append a b iha ihb =>
    refine ⟨doneFormed_append iha.1 ihb.1, fun _ _ harms _ _ => ?_⟩
    cases harms
  | chain start arms ih =>
    refine ⟨doneFormed_chain ih.2, fun _ _ harms _ _ => ?_⟩
    cases harms
  | branch cond before mark inner outer body rest ihbody ihrest =>
    exact ⟨doneFormed_branch ihbody.1, doneArms_branch ihbody.1 ihrest.2⟩
  | last g body ih =>
    refine ⟨fun _ hformed _ => ?_, doneArms_last ih.1⟩
    cases hformed
  | loop =>
    refine ⟨fun _ _ h => ?_, fun _ _ harms _ _ => ?_⟩
    · exact nomatch h.exec
    · cases harms

end Scaffold

end Grf
