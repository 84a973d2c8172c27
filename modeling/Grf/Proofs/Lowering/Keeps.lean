import Grf.Proofs.Lowering.Condition
import Grf.Proofs.Lowering.Followers
import Grf.Proofs.Lowering.Temporaries

/-! # Lowerings without control flow

Every declaration but a conditional or a loop is lowered to a straight list of records, which leaves the temporary
parameters in use alone (`lower_keeps`). An assignment whose target has a constant number has to leave them alone
itself (`Declaration.Spares`). What one with a computed target has changed can only be told once it is executed.
-/

namespace Grf

open List

theorem Straight.targets {targets : Int → Prop} {computed : Prop} {rs all : List Record}
    (h : Straight targets computed rs) (hsub : ∀ r ∈ rs, r ∈ all) :
    Straight (fun t => ∃ r ∈ all, r.target? = some t) computed rs := by
  induction h with
  | nil => exact .nil
  | plain hr _ ih => exact .plain hr (ih (forall_mem_cons.mp hsub).2)
  | assign _ _ ih =>
    obtain ⟨hself, hrest⟩ := forall_mem_cons.mp hsub
    exact .assign ⟨_, hself, rfl⟩ (ih hrest)
  | patched hr hskip _ ih =>
    obtain ⟨-, hrest⟩ := forall_mem_cons.mp hsub
    exact .patched hr hskip (ih (forall_mem_cons.mp hrest).2)
  | patchedAssign ha _ ih =>
    obtain ⟨-, hrest⟩ := forall_mem_cons.mp hsub
    obtain ⟨hself, hrest⟩ := forall_mem_cons.mp hrest
    exact .patchedAssign (ha.imp_left fun ha => ⟨⟨_, hself, rfl⟩, ha.2⟩) (ih hrest)

namespace Lowering

variable {held : Int → Prop} {pos : Position} {c c' : Context} {decl : Declaration} {rs : List Record}

/-- Straight records with no assignment to a parameter `held`, as far as targets are constant. -/
abbrev Keeps (held : Int → Prop) (rs : List Record) : Prop := Straight (fun t => ¬held t) True rs

theorem lower_extends (hd : decl.IsSimple) (hc : c.InRange) (h : decl.lower c = .ok rs c') : c.Extends c' := by
  have htexts : ∀ name id, c.textId? name = some id → c'.textId? name = some id := by
    obtain ⟨m, heq, hm⟩ := lower_program decl (Set.subset_univ _)
    have hend := (hm.withTemps (Set.mem_univ _)).lasting (texts_lasting _) c
    rwa [← heq, endState_of_ok h] at hend
  obtain ⟨d, ts, pool, htakes, hpool, rfl, -⟩ := lower_takes hd hc h
  obtain ⟨pool', hpool', hback, -⟩ := htakes.temps.restore
  obtain rfl := Except.ok.inj (hpool.symm.trans hpool')
  exact { htakes.extends htexts with temps := ⟨[], hback⟩ }

theorem lowerAssignment_keeps {target value : Expr} (hc : c.InRange)
    (hin : ∀ t, held t → t ∈ c.tempParams.inUse) (htarget : ∀ n, target.fold = .const n → ¬held n)
    (h : lowerAssignment target value pos c = .ok rs c') : Keeps held rs := by
  obtain ⟨steps, hsteps, rfl, hfresh⟩ := lowerAssignment_steps h
  obtain ⟨init, s, rfl, -, hs⟩ := hsteps.exists_last
  replace hfresh := (hfresh hc).1
  rw [dropLast_concat] at hfresh
  rw [planned_append]
  refine ((hfresh.scratch pos).mono (fun t ht h => ht.2 (hin t h)) False.elim).append
    (.append (AssignPlan.straight (fun n hn => ?_) (fun _ _ => trivial) pos) .nil)
  rcases hs with ⟨num, hnum, hs⟩ | ⟨num, hs⟩
  · cases hs.symm.trans hn
    exact htarget n hnum
  · cases hs.symm.trans hn

/-- **A declaration that holds no others is lowered to straight records**, which leave the temporary
parameters in use alone. -/
theorem lower_keeps (hd : decl.IsSimple) (hspares : decl.Spares held) : Ensures held decl.lower (Keeps held) := by
  intro c rs c' hc hheld h
  refine ⟨lower_extends hd hc h, ?_⟩
  cases decl with
  | assign target value pos =>
    obtain ⟨d, h, -⟩ := bracket_eq_ok.mp h
    refine lowerAssignment_keeps ?_ ?_ hspares h
    · exact ⟨hc.temps, hc.held, hc.shortLabels, hc.longLabels, hc.limit⟩
    · exact hheld
  | _ =>
    have hfresh := ((lower_spends hd hc h).2.2 trivial).2
    refine ((lower_tidy hd c rs c' h).straight.targets fun _ hr => hr).mono (fun t ht hin => ?_) fun h => h
    have htemp := hc.held t (hheld t hin)
    exact hfresh t (mem_temporaries.mpr ⟨htemp, ht⟩) (hheld t hin)

end Lowering

end Grf
