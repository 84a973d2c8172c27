import Grf.Proofs.Conditional.Execution
import Grf.Proofs.Conditional.Lowered
import Grf.Proofs.Skip.Exact

/-! # The branches of lowered conditionals

Lowered declarations execute, of each conditional they reach, the first branch whose condition is true, if every guard
stays open once it has been passed (`lowerAll_executes`). A guard tests its condition again before each run of a
branch, so the branch may change what the condition reads only after the last run has started.
-/

namespace Grf

/-- The first scaffold is part of the second one, and not in a loop. -/
inductive Scaffold.Part : Scaffold Record → Scaffold Record → Prop
  | refl (s : Scaffold Record) : Part s s
  | first {s a b : Scaffold Record} (h : Part s a) : Part s (.append a b)
  | second {s a b : Scaffold Record} (h : Part s b) : Part s (.append a b)
  | chain {s arms : Scaffold Record} {start : Record} (h : Part s arms) : Part s (.chain start arms)
  | body {s body rest : Scaffold Record} {cond : Expr} {before mark : List Record} {inner : Guard Record}
      {outer : Option (Guard Record)} (h : Part s body) : Part s (.branch cond before mark inner outer body rest)
  | rest {s body rest : Scaffold Record} {cond : Expr} {before mark : List Record} {inner : Guard Record}
      {outer : Option (Guard Record)} (h : Part s rest) : Part s (.branch cond before mark inner outer body rest)
  | last {s body : Scaffold Record} {g : Guard Record} (h : Part s body) : Part s (.last g body)

namespace Scaffold

variable {limit : Nat} {s s' : Scaffold Record}

def FormedOrArms (limit : Nat) (s : Scaffold Record) : Prop :=
  ∃ held, s.Formed limit held ∨ ∃ untaken first, s.Arms limit held untaken first

theorem Part.formedOrArms (hpart : Part s s') (h : s'.FormedOrArms limit) : s.FormedOrArms limit := by
  induction hpart with
  | refl => exact h
  | first _ ih =>
    obtain ⟨held, h | ⟨untaken, first, h⟩⟩ := h
    · cases h with
      | append ha hb => exact ih ⟨held, .inl ha⟩
    · cases h
  | second _ ih =>
    obtain ⟨held, h | ⟨untaken, first, h⟩⟩ := h
    · cases h with
      | append ha hb => exact ih ⟨held, .inl hb⟩
    · cases h
  | chain _ ih =>
    obtain ⟨held, h | ⟨untaken, first, h⟩⟩ := h
    · cases h with
      | chain htemp hfresh harms => exact ih ⟨_, .inr ⟨_, _, harms⟩⟩
    · cases h
  | body _ ih =>
    obtain ⟨held, h | ⟨untaken, first, h⟩⟩ := h
    · cases h with
      | branch hbranch hbody => exact ih ⟨held, .inl hbody⟩
    · cases h with
      | first hbranch hbody hrest => exact ih ⟨held, .inl hbody⟩
      | other hbranch hmark htest houter hbody hrest => exact ih ⟨held, .inl hbody⟩
  | rest _ ih =>
    obtain ⟨held, h | ⟨untaken, first, h⟩⟩ := h
    · cases h with
      | branch hbranch hbody => exact ih ⟨held, .inl .done⟩
    · cases h with
      | first hbranch hbody hrest => exact ih ⟨held, .inr ⟨_, _, hrest⟩⟩
      | other hbranch hmark htest houter hbody hrest => exact ih ⟨held, .inr ⟨_, _, hrest⟩⟩
  | last _ ih =>
    obtain ⟨held, h | ⟨untaken, first, h⟩⟩ := h
    · cases h
    · cases h with
      | last htest hguard hbody => exact ih ⟨held, .inl hbody⟩

theorem FormedOrArms.branchFormed {cond : Expr} {before mark : List Record} {inner : Guard Record}
    {outer : Option (Guard Record)} {body rest : Scaffold Record}
    (h : (branch cond before mark inner outer body rest).FormedOrArms limit) :
    (∀ r ∈ mark, ¬r.IsControl) ∧ ∃ held, BranchFormed limit held cond before mark inner body.elements := by
  have hassign : ∀ (untaken : Int) (pos : Position),
      ∀ r ∈ [Record.constantAssignment untaken 0 pos], ¬r.IsControl := fun untaken pos =>
    (Lowering.straight_constantAssignment untaken 0 pos).not_isControl
  obtain ⟨held, h | ⟨untaken, first, h⟩⟩ := h
  · cases h with
    | branch hbranch hbody => exact ⟨by simp, held, hbranch⟩
  · cases h with
    | @first _ _ _ _ pos _ _ _ hbranch hbody hrest => exact ⟨hassign untaken pos, held, hbranch⟩
    | @other _ _ _ _ _ pos _ _ _ _ hbranch hmark htest houter hbody hrest =>
      refine ⟨?_, held, hbranch⟩
      rcases hmark with rfl | ⟨rfl, -⟩
      · exact hassign untaken pos
      · simp

/-- A branch is executed entirely if its condition is true, and left out if it is false, exactly if its
guard stays open. A last branch without a condition is executed entirely exactly if its guard stays
open. -/
def EntireIffStays (limit : Nat) : Scaffold Record → Prop
  | branch cond before mark inner _ body _ =>
    ∀ (e : Engine) (b : Bool), e.Ready → cond.CanTest e.params → cond.isTrue? e.params = some b →
      (e.run limit (before ++ inner.around (mark ++ body.elements)) =
          e.executeAll (if b then before ++ mark ++ body.elements else before) ↔
        (b = true → inner.Stays limit (mark ++ body.elements) (e.executeAll before)))
  | last g body =>
    ∀ e : Engine, e.Ready → (e.run limit (g.around body.elements) = e.executeAll body.elements ↔
      g.Stays limit body.elements e)
  | _ => True

def Flat : Scaffold Record → Prop
  | branch _ _ _ _ _ body _ | last _ body => ∀ r ∈ body.elements, ¬r.IsControl
  | _ => True

theorem FormedOrArms.entireIffStays (h : s.FormedOrArms limit) (hflat : s.Flat) : s.EntireIffStays limit := by
  cases s with
  | branch cond before mark inner outer body rest =>
    intro e b he hcan hcond
    obtain ⟨hmark, held, hbranch⟩ := h.branchFormed
    obtain ⟨hready, -⟩ := hbranch.ready_before he
    cases b with
    | false => simpa using hbranch.run_false he hcan hcond
    | true =>
      have hall : ∀ r ∈ mark ++ body.elements, ¬r.IsControl := List.forall_mem_append.mpr ⟨hmark, hflat⟩
      have hiff := hbranch.formed.run_eq_iff (.of_not_isControl hall) hready
      rw [Engine.run_eq_executeAll hall hready.mode] at hiff
      rw [Engine.run_append, hbranch.scratch.run_eq he.mode, if_pos rfl, List.append_assoc,
        Engine.executeAll_append, hiff]
      simp
  | last g body =>
    intro e he
    obtain ⟨held, h | ⟨untaken, first, h⟩⟩ := h
    · cases h
    · cases h with
      | last htest hguard hbody =>
        have hiff := hguard.run_eq_iff (.of_not_isControl hflat) he
        rwa [Engine.run_eq_executeAll hflat he.mode] at hiff
  | done | leaf | append | chain | loop => trivial

end Scaffold

namespace Lowering

/-- **Lowered conditionals execute the first branch whose condition is true, entirely, and no other
one**, if every guard stays open once it has been passed. For a branch without further conditionals the
guard has to stay open. -/
theorem lowerAll_executes {ds : List Declaration} {c c' : Context} {records : List Record}
    (h : Declaration.lowerAll ds c = .ok records c') (hc : c.InRange) (hfits : Fits ds) :
    ∃ s, Outlines ds s ∧ s.Formed c.maxInlineSkip (Held c) ∧ s.elements = records ∧
      (∀ e e' : Engine, e.Ready → s.exec? e = some e' → s.GuardsStay c.maxInlineSkip e →
        (∀ x ∈ e'.log, ∀ n, IsTemporary n → x.Spares n) → e.run c.maxInlineSkip records = e') ∧
      ∀ part : Scaffold Record, part.Part s → part.Flat → part.EntireIffStays c.maxInlineSkip := by
  obtain ⟨s, -, rfl, -, houtlines, hformed⟩ := lowerAll_sound hc h
  refine ⟨s, houtlines, hformed hfits, rfl, fun e e' he hexec hstays hspares => ?_, fun part hpart hflat => ?_⟩
  · exact ((Scaffold.done_of_formed _ s).1 hc.held (hformed hfits) ⟨he, hexec, hstays, hspares⟩).run
  · exact (hpart.formedOrArms ⟨Held c, Or.inl (hformed hfits)⟩).entireIffStays hflat

/-- A branch of two runs with a nested conditional, in a state in which its condition is false: all of
it is left out. -/
theorem lowerAll_executes_nested :
    let inner : Declaration :=
      .conditional [⟨some (.paramAt 3), [.assign (.const 4) (.const 1) {}], {}⟩] {}
    let ds : List Declaration := [.conditional [⟨some (.binary .eq (.paramAt 1) (.const 1)),
      [.deactivate ["ABCD"] {}, .properties 0 0 [⟨1, 1, .computed (.paramAt 2), {}⟩] {}, inner], {}⟩] {}]
    let c : Context := .create 0 none none
    let e : Engine := { params := fun _ => 5 }
    ∃ records c' s, Declaration.lowerAll ds c = .ok records c' ∧ records.length = 7 ∧ Outlines ds s ∧
      s.elements = records ∧ s.exec? e = some e ∧ s.GuardsStay c.maxInlineSkip e ∧
      e.run c.maxInlineSkip records = e := by
  intro inner ds c e
  have hok : succeeds (Declaration.lowerAll ds) c (fun records _ =>
      decide (records.length = 7 ∧ records.head?.map (·.kind) ≠ some .paramAssignment)) = true := by
    decide +kernel
  obtain ⟨records, c', h, hchecked⟩ := eq_ok_of_succeeds hok
  obtain ⟨hlength, hhead⟩ := of_decide_eq_true hchecked
  have hfits : Fits ds := by
    simp only [Fits, ds, inner, Declaration.walkAll, Declaration.walk, Declaration.walkBranches]
    simp [Declaration.Spares, Expr.fold, IsTemporary]
  obtain ⟨s, houtlines, hformed, hrecords, hrun, -⟩ :=
    lowerAll_executes h (Context.create_inRange 0 none none) hfits
  have hsome : s.exec? e = some e ∧ s.GuardsStay c.maxInlineSkip e := by
    rcases (show Outlines [.conditional [⟨some _, _, _⟩] _] s from houtlines) with _ | ⟨hone, hnil⟩
    cases hnil
    cases hone with
    | simple _ hd => exact absurd hd (fun h => h)
    | conditional hbranches =>
      cases hbranches with
      | never hcond => exact absurd rfl (hcond fun _ => 1)
      | always hcond => exact absurd rfl (hcond _ rfl fun _ => 0)
      | last hcond => exact absurd rfl (hcond _ rfl fun _ => 0)
      | branch _ hbefore _ _ hrest =>
        cases hrest
        rw [show lowerCondition (.binary .eq (.paramAt 1) (.const 1)) {} = pure ([], ⟨1, 4, 3, 1⟩) from rfl] at hbefore
        rcases hformed with _ | _ | ⟨_ | _ | _ | _, -⟩
        obtain rfl : [] = _ := by injection hbefore with h; exact congrArg Prod.fst h
        refine ⟨rfl, ⟨show ¬IsTemporary 1 by decide, by simp, fun h => absurd h (by decide), fun _ => trivial⟩, ?_⟩
        exact fun _ _ => trivial
    | chain => exact absurd (hrecords ▸ rfl) hhead
  refine ⟨records, c', s, h, hlength, houtlines, hrecords, hsome.1, hsome.2, ?_⟩
  exact hrun e e ⟨rfl, rfl⟩ hsome.1 hsome.2 (by simp [e])

end Lowering

end Grf
