import Grf.Proofs.Conditional.Builds
import Grf.Proofs.Table.Drafts

/-! # What declarations are made of

Conditionals and loops put skips, labels and assignments around the records of their bodies, and all of these
can be written as they are. So the records of declarations can be bound and written if the expressions of
their switches are as declarations have them (`lowerAll_drafts`).
-/

namespace Grf.Lowering

open List Declaration

variable {fits : Prop} {c c' : Context} {ds : List Declaration} {rs : List Record}

theorem simple_drafted {d : Declaration} (hd : d.IsSimple) (h : ∀ s, d = .switch s → s.Declared fits) (hc : c.Numbered)
    (hok : d.lower c = .ok rs c') : AllDrafted fits rs := by
  cases d with
  | properties =>
    obtain ⟨e, hbody, -⟩ := bracket_eq_ok.mp hok
    obtain ⟨_, e', hlog, hbody⟩ := bind_eq_ok.mp hbody
    have hnumbered := log_program.numbered (show (saveTemps c).Numbered from hc) hlog
    exact (lowerProperties_drafted _ _ _ hbody (lowerProperties_program.numbered hnumbered.1 hbody).2).2
  | spriteSets => exact framed_yields lowerSpriteSets_drafted c rs c' hok
  | spriteGroup group => exact framed_yields lowerSpriteGroup_drafted c rs c' hok
  | switch table => exact framed_yields (lowerSwitch_drafted (h table rfl)) c rs c' hok
  | graphics table => exact framed_yields lowerGraphics_drafted c rs c' hok
  | message => exact framed_yields (lowerMessage_drafted _) c rs c' hok
  | assign => exact framed_yields lowerAssignment_drafted c rs c' hok
  | conditional => exact hd.elim
  | loop => exact hd.elim
  | deactivate => exact framed_yields lowerDeactivate_drafted c rs c' hok
  | replace => exact framed_yields lowerReplace_drafted c rs c' hok

theorem Runs.drafted {steps : List Stage} (h : Runs c steps c') (hc : c.Numbered)
    (hsteps : ∀ s ∈ steps, ∀ t, s.decl = .switch t → t.Declared fits) : AllDrafted fits (steps.flatMap Stage.records) := by
  induction h with
  | nil h => exact .nil
  | @cons c c' s steps h hs hrest ih =>
    obtain ⟨hstep, hsteps⟩ := forall_mem_cons.mp hsteps
    have hbefore : s.before.Numbered := h _ (numbered_lasting _) hc
    obtain ⟨m, heq, hm⟩ := lower_program s.decl (Set.subset_univ _)
    have hafter := (hm.withTemps (Set.mem_univ _)).numbered hbefore (heq ▸ hs.lower)
    exact (simple_drafted hs.simple hstep hbefore hs.lower).append (ih hafter.1 hsteps)

/-- **The records of declarations can be bound.** -/
theorem lowerAll_drafts (hdeclared : ∀ s, .switch s ∈ walkAll ds → s.Declared fits) (hc : c.InRange)
    (hnumbered : c.Numbered) (h : lowerAll ds c = .ok rs c') : AllDrafted fits rs := by
  obtain ⟨s, -, hassembled⟩ := lowerAll_builds ds hc h
  obtain ⟨steps, hleaves, hruns, -, hpads⟩ := hassembled.runs
  have hall : AllDrafted fits (steps.flatMap Stage.records) := hruns.drafted hnumbered fun s hs table htable =>
    hdeclared table (htable ▸ mem_walkAll_of_mem_leaves ds (hleaves ▸ mem_map_of_mem hs))
  intro r hr
  exact (hpads.mem hr).elim (hall r) fun hglue => hglue.2 fits

theorem simple_tables {d : Declaration} (hd : d.IsSimple) : Yields d.lower fun rs =>
    ∀ R ∈ rs, ∀ t, R.body = .decisionTable t → ∃ s, d = .switch s ∧ ∃ part, TableOf anyId s part ∧ R ∈ part := by
  cases d with
  | switch s =>
    refine framed_yields fun c rs c' hok R hR t _ => ?_
    obtain ⟨parts, rfl, hparts⟩ := (lowerSwitch_tablesOf s).yields c rs c' hok
    obtain ⟨part, hpart, hR⟩ := mem_flatten.mp hR
    exact ⟨s, rfl, part, hparts part hpart, hR⟩
  | spriteGroup group =>
    exact framed_yields (.after fun _ => .after fun _ => .after fun _ => .after fun _ =>
      .after fun _ => .after fun _ => .pure (by simp))
  | graphics table =>
    exact framed_yields (.after fun _ => .after fun _ => .after fun _ => .after fun _ =>
      .after fun _ => .after fun _ => .pure (by simp))
  | _ =>
    intro c rs c' hok R hR t ht
    have hdetached := (lower_detached hd (fun h => h) c rs c' hok).2.2 R hR
    rw [Record.Detached, ht] at hdetached
    exact hdetached.elim

/-- **The tables of declarations are those of their switches.** -/
theorem lowerAll_tables (hc : c.InRange) (h : lowerAll ds c = .ok rs c') {R : Record} (hR : R ∈ rs)
    {t : TableRecord} (ht : R.body = .decisionTable t) :
    ∃ s, .switch s ∈ walkAll ds ∧ ∃ part, TableOf anyId s part ∧ R ∈ part := by
  obtain ⟨s, -, hassembled⟩ := lowerAll_builds ds hc h
  obtain ⟨steps, hleaves, hruns, -, hpads⟩ := hassembled.runs
  rcases hpads.mem hR with hR | hglue
  · obtain ⟨stage, hstage, hR⟩ := mem_flatMap.mp hR
    have hmade := hruns.made stage hstage
    obtain ⟨s, hs, htable⟩ := simple_tables hmade.simple _ _ _ hmade.lower R hR t ht
    exact ⟨s, hs ▸ mem_walkAll_of_mem_leaves ds (hleaves ▸ mem_map_of_mem hstage), htable⟩
  · have hdetached := hglue.1
    rw [Record.Detached, ht] at hdetached
    exact hdetached.elim

end Grf.Lowering
