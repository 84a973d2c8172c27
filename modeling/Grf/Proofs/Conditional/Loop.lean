import Grf.Proofs.Conditional.Execution
import Grf.Proofs.Conditional.Lowered
import Grf.Proofs.Skip.Exact

/-! # The turns of lowered loops

`lowerLoop_turns` says what happens on arriving at the label of a loop. If the condition is false, the body and the
jump back are left out. If it is true, the whole body is executed and the jump is made exactly if the guard stays open:
it tests the condition again before each run of the body, and before the jump. `Turns` says what all passes are meant
to do.
-/

namespace Grf

open List Engine

variable {limit : Nat} {e e' : Engine} {label : Int} {pos : Position}

/-! ## One arrival -/

/-- Where an engine arrives that executes records or seeks the label. -/
def Engine.Arrives (e : Engine) (label : Int) : Prop := e.pending = [] ∧ (e.mode = .running ∨ e.mode = .seeking label)

def Engine.arrived (e : Engine) : Engine := { e with mode := .running }

theorem Engine.Arrives.ready (h : e.Arrives label) : e.arrived.Ready := ⟨rfl, h.1⟩

theorem Engine.Arrives.step_label (h : e.Arrives label) : e.step limit (.ofLabel label pos) = e.arrived := by
  obtain ⟨hpending, hmode⟩ := h
  grind [arrived, step, Record.ofLabel]

theorem Engine.Ready.run_jump {targets : Int → Prop} {computed : Prop} {xs : List Record} (he : e.Ready)
    (hxs : Straight targets computed xs) (hlabel : limit < label) :
    e.run limit (xs ++ [.jumpTo label pos]) = { e.executeAll xs with mode := .seeking label } := by
  have hexec : e.run limit xs = e.executeAll xs := hxs.run_eq he.mode
  have hmode : (e.executeAll xs).mode = .running := (e.executeAll_mode xs).trans he.mode
  have hpending : (e.executeAll xs).pending = [] := (hxs.frame he.pending).1
  simp_all [Mode.skipping, run_append, step, Record.jumpTo, SkipCondition.holds_always]

/-! ## One pass

The body of a loop and its jump are guarded like the body of a branch. -/

section Pass

variable {held kept : Int → Prop} {cond : Expr} {before body : List Record} {g : Guard Record}

def loopRecords (label : Int) (pos : Position) (before body : List Record) (g : Guard Record) : List Record :=
  .ofLabel label pos :: before ++ g.around (body ++ [.jumpTo label pos])

theorem run_loop_false (h : BranchFormed limit held cond before [] g (body ++ [.jumpTo label pos]))
    (he : e.Arrives label) (hcan : cond.CanTest e.params) (hcond : cond.isTrue? e.params = some false) :
    e.run limit (loopRecords label pos before body g) = e.arrived.executeAll before := by
  rw [loopRecords, cons_append, run_cons, he.step_label]
  exact h.run_false he.ready hcan hcond

theorem run_loop_true_iff (h : BranchFormed limit held cond before [] g (body ++ [.jumpTo label pos]))
    (hbody : Lowering.Keeps kept body) (hlabel : limit < label) (he : e.Arrives label) :
    e.run limit (loopRecords label pos before body g) =
        { (e.arrived.executeAll before).executeAll body with mode := .seeking label } ↔
      g.Stays limit (body ++ [.jumpTo label pos]) (e.arrived.executeAll before) := by
  obtain ⟨hready, -⟩ := h.ready_before he.ready
  have hformed : g.Formed limit (body ++ [.jumpTo label pos]) := h.formed
  have hiff := hformed.run_eq_iff (.append hbody.not_isControl (.jump label pos hlabel)) hready
  grind [hready.run_jump, loopRecords, run_cons, he.step_label, run_append, h.scratch.run_eq, he.ready.mode]

theorem stays_of_body_unchanged (hbody : Lowering.Keeps kept body) (hlabel : limit < label)
    (he : e.Ready) (htest : g.test.holds e.params = false) (hkept : ∀ ys, ys <+: body →
      (e.executeAll ys).params g.test.param = e.params g.test.param) :
    g.Stays limit (body ++ [.jumpTo label pos]) e := by
  refine Guard.stays_of_unchanged (.append hbody.not_isControl (.jump label pos hlabel)) he.mode htest ?_
  intro ys hys
  rcases prefix_concat_iff.mp hys with rfl | hys
  · grind [he.run_jump]
  grind [run_eq_executeAll, hbody.not_isControl, he.mode]

/-- What a loop is meant to do from an arrival at its label on, with the engines at each arrival: while
its condition is true the whole body is executed, and then the loop is left. -/
inductive Turns (cond : Expr) (before body : List Record) : List Engine → Engine → Engine → Prop
  | leave {e : Engine} (h : cond.isTrue? e.params = some false) : Turns cond before body [e] e (e.executeAll before)
  | turn {arrivals : List Engine} {e e' : Engine} (h : cond.isTrue? e.params = some true)
      (h' : Turns cond before body arrivals ((e.executeAll before).executeAll body) e') :
      Turns cond before body (e :: arrivals) e e'

theorem run_turns {arrivals : List Engine}
    (h : BranchFormed limit held cond before [] g (body ++ [.jumpTo label pos]))
    (hbody : Lowering.Keeps kept body) (hlabel : limit < label)
    (hturns : Turns cond before body arrivals e.arrived e') (he : e.Arrives label)
    (hcan : ∀ a ∈ arrivals, cond.CanTest a.params) (hstays : ∀ a ∈ arrivals, cond.isTrue? a.params = some true →
      g.Stays limit (body ++ [.jumpTo label pos]) (a.executeAll before)) :
    e.run limit (List.replicate arrivals.length (loopRecords label pos before body g)).flatten = e' := by
  generalize harrived : e.arrived = d at hturns
  induction hturns generalizing e with
  | leave hcond =>
    subst harrived
    rw [length_singleton, replicate_one, flatten_singleton]
    exact run_loop_false h he (hcan e.arrived (by simp)) hcond
  | @turn arrivals d e' hcond hturns ih =>
    subst harrived
    obtain ⟨hcan, hcans⟩ := forall_mem_cons.mp hcan
    obtain ⟨hstay, hstays⟩ := forall_mem_cons.mp hstays
    rw [length_cons, replicate_succ, flatten_cons, run_append, (run_loop_true_iff h hbody hlabel he).mpr (hstay hcond)]
    -- the engine is back at the label, with the body executed
    have hready := (h.ready_before he.ready).1
    refine ih ⟨(hbody.frame hready.pending).1, .inr rfl⟩ hcans hstays ?_
    have hmode : ((e.arrived.executeAll before).executeAll body).mode = .running :=
      ((e.arrived.executeAll before).executeAll_mode body).trans hready.mode
    show { (e.arrived.executeAll before).executeAll body with mode := .running } = _
    rw [← hmode]

end Pass

theorem Outlines.keeps {ds : List Declaration} {s : Scaffold Record} (h : Outlines ds s)
    (hds : ∀ d ∈ ds, d.IsSimple) : Lowering.Keeps (fun _ => False) s.elements := by
  induction ds generalizing s with
  | nil =>
    cases h
    exact .nil
  | cons d ds ih =>
    obtain ⟨hd, hds⟩ := forall_mem_cons.mp hds
    cases h with
    | cons hone hrest =>
      have hfirst : ∀ {s : Scaffold Record}, OutlinesOne d s → Lowering.Keeps (fun _ => False) s.elements := by
        intro s hone
        cases hone with
        | simple hc hd h => exact (Lowering.lower_keeps hd d.spares_false _ _ _ hc (fun _ ht => ht.elim) h).2
        | conditional | chain | never | forever | loop => exact hd.elim
      exact (hfirst hone).append (ih hrest hds)

namespace Lowering

/-- **A loop executes whole turns.** On arriving at its label it is left if its condition is false. If the
condition is true, the whole body is executed and the jump to the label is made exactly if the guard
stays open, as it does if the parameter that it tests keeps its value. -/
theorem lowerLoop_turns {cond : Expr} {body : List Declaration} {pos : Position} {c c' : Context}
    {records : List Record} (h : (Declaration.loop cond body pos).lower c = .ok records c')
    (hc : c.InRange) (hconst : constantCondition? cond = none) (hbody : ∀ d ∈ body, d.IsSimple) :
    ∃ label before g s, Outlines body s ∧ Straight IsTemporary False before ∧
      records = loopRecords label pos before s.elements g ∧
      (∀ e : Engine, e.Arrives label → cond.CanTest e.params → (cond.isTrue? e.params = some false →
          e.run c.maxInlineSkip records = e.arrived.executeAll before) ∧
        (cond.isTrue? e.params = some true → (e.run c.maxInlineSkip records =
              { (e.arrived.executeAll before).executeAll s.elements with mode := .seeking label } ↔
            g.Stays c.maxInlineSkip (s.elements ++ [.jumpTo label pos]) (e.arrived.executeAll before)))) ∧
      (∀ e : Engine, e.Ready → g.test.holds e.params = false → (∀ ys, ys <+: s.elements →
          (e.executeAll ys).params g.test.param = e.params g.test.param) →
        g.Stays c.maxInlineSkip (s.elements ++ [.jumpTo label pos]) e) ∧
      ∀ (arrivals : List Engine) (e e' : Engine), e.Arrives label → Turns cond before s.elements arrivals e.arrived e' →
        (∀ a ∈ arrivals, cond.CanTest a.params) →
        (∀ a ∈ arrivals, cond.isTrue? a.params = some true →
          g.Stays c.maxInlineSkip (s.elements ++ [.jumpTo label pos]) (a.executeAll before)) →
        e.run c.maxInlineSkip (List.replicate arrivals.length records).flatten = e' := by
  obtain ⟨s, hs, rfl, -⟩ := lower_builds _ hc h
  obtain ⟨hsound, -, houtlines, -⟩ := hs.sound ⟨hc, rfl, rfl⟩
  cases houtlines with
  | simple _ hd _ => exact hd.elim
  | never hcond | forever hcond => cases hconst.symm.trans hcond
  | @loop _ _ _ label c1 c1' before g s hc1 hlabel hbefore houtlines =>
    obtain ⟨-, -, hguard, -⟩ := hsound.laid
    obtain ⟨-, htests⟩ := lowerCondition_spec hc1 hconst hbefore
    have hkeeps := houtlines.keeps hbody
    have hlimit : c.maxInlineSkip < label := by
      have hshort := hc.limit_lt
      omega
    have hformed : BranchFormed c.maxInlineSkip (fun _ => False) cond before [] g
        (s.elements ++ [.jumpTo label pos]) := ⟨htests.scratch.mono (fun _ _ => id) id, htests.holds, hguard g rfl⟩
    refine ⟨label, before, g, s, houtlines, htests.scratch.mono (fun _ ht => ht.1) id, rfl,
      fun e he hcan => ⟨fun hcond => ?_, fun hcond => ?_⟩, fun e he htest hkept => ?_,
      fun arrivals e e' he hturns hcan hstays => ?_⟩
    · exact run_loop_false hformed he hcan hcond
    · exact run_loop_true_iff hformed hkeeps hlimit he
    · exact stays_of_body_unchanged hkeeps hlimit he htest hkept
    · exact run_turns hformed hkeeps hlimit hturns he hcan hstays

/-- A loop that counts a parameter down, after a record that is skipped in another way. -/
theorem lowerLoop_turns_countdown :
    let cond : Expr := .paramAt 1
    let body : List Declaration :=
      [.deactivate ["ABCD"] {}, .properties 0 0 [⟨1, 1, .computed (.paramAt 2), {}⟩] {},
        .assign (.const 1) (.binary .sub (.paramAt 1) (.const 1)) {}]
    let c : Context := .create 0 none none
    ∃ records c' label before g s, (Declaration.loop cond body {}).lower c = .ok records c' ∧ Outlines body s ∧
      records = loopRecords label {} before s.elements g ∧
      ∀ e : Engine, e.Arrives label → (e.params 1 = 0 → e.run c.maxInlineSkip records = e.arrived.executeAll before) ∧
        (e.params 1 ≠ 0 → (e.run c.maxInlineSkip records =
              { (e.arrived.executeAll before).executeAll s.elements with mode := .seeking label } ↔
            g.Stays c.maxInlineSkip (s.elements ++ [.jumpTo label {}]) (e.arrived.executeAll before))) := by
  intro cond body c
  have hok : succeeds (Declaration.loop cond body {}).lower c (fun records _ => records.length == 8) = true := by
    decide +kernel
  obtain ⟨records, c', h, -⟩ := eq_ok_of_succeeds hok
  have hsimple : ∀ d ∈ body, d.IsSimple := by simp [body, Declaration.IsSimple]
  obtain ⟨label, before, g, s, houtlines, -, hrecords, hstep, -⟩ :=
    lowerLoop_turns h (Context.create_inRange 0 none none) (by decide) hsimple
  refine ⟨records, c', label, before, g, s, h, houtlines, hrecords, fun e he => ?_⟩
  have hcan : cond.CanTest e.params := show ¬IsTemporary 1 by decide
  have hcond : cond.isTrue? e.params = some (e.params 1 != 0) := rfl
  obtain ⟨hfalse, htrue⟩ := hstep e he hcan
  refine ⟨fun hzero => hfalse ?_, fun hne => htrue ?_⟩
  · rw [hcond, hzero]
    rfl
  · rw [hcond, bne_iff_ne.mpr hne]

end Lowering

end Grf
