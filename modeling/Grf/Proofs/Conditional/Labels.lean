import Grf.Proofs.Conditional.Builds

/-! # Labels are handed out once

A label for the end of a run is free again when the outermost conditional is closed, and a label for a loop is never
handed out again. `Spent` says that a label cannot be handed out now, and `Labelled` that the labels made between two
states were not spent before, are spent after, and are all different. So all labels inside of one declaration are
different, and so are all labels of loops.
-/

namespace Grf

open List Scaffold

/-! ## Labels of records -/

theorem Record.label?_of_not_isControl {r : Record} (h : ¬r.IsControl) : r.label? = none := by
  grind [Record.label?, Record.IsControl]

theorem labels_of_not_isControl {rs : List Record} (h : ∀ r ∈ rs, ¬r.IsControl) : labels rs = [] :=
  filterMap_eq_nil_iff.mpr fun r hr => Record.label?_of_not_isControl (h r hr)

theorem labels_wrapAll {limit : Nat} {test : SkipCondition} {taken : Int → Prop} {xs : List Record}
    {ws : List (Wrap Record)} (h : Forall₂ (Wrap.Covers limit test taken) (SkipRun.split xs) ws) :
    (labels (wrapAll ws xs)).Perm (wrapLabels ws ++ labels xs) := by
  have hinserted : labels (ws.flatMap (·.inserted)) = wrapLabels ws := by
    generalize SkipRun.split xs = runs at h
    induction h with
    | nil => rfl
    | @cons run w runs ws hw _ ih =>
      have hskip : labels w.skip.toList = [] := by cases hw <;> rfl
      rw [flatMap_cons, labels_append, ih, Wrap.inserted, labels_append, hskip]
      rfl
  grind [labels, wrapAll_perm, Lowering.spans_of_covers]

namespace Lowering

variable {c c' d inner : Context} {pos : Position} {xs : List Record}
  {test : SkipCondition} {ns ns' : List Int} {ws : List (Wrap Record)} {id label n : Int}
  {p p' : Pool} {cond : Expr} {depth : Nat}

/-! ## Spent labels -/

/-- Whether a label cannot be handed out: it is in use, or it is the label of a loop and has been handed
out before. -/
def Spent (c : Context) (n : Int) : Prop :=
  if n < 0x80 then n ∈ c.shortLabels.inUse else n ∈ c.longLabels.issued

theorem spent_short (h : n < 0x80) : Spent c n ↔ n ∈ c.shortLabels.inUse := by
  rw [Spent, if_pos h]

theorem spent_long (h : 0x80 ≤ n) : Spent c n ↔ n ∈ c.longLabels.issued := by
  rw [Spent, if_neg (by omega)]

/-- Between the states `c` and `c'` the labels `ns` have been handed out. -/
structure Labelled (c : Context) (ns : List Int) (c' : Context) : Prop where
  mono : ∀ n, Spent c n → Spent c' n
  nodup : ns.Nodup
  fresh : ∀ n ∈ ns, ¬Spent c n
  spent : ∀ n ∈ ns, Spent c' n

namespace Labelled

theorem none (hshort : c'.shortLabels = c.shortLabels) (hlong : c'.longLabels = c.longLabels) : Labelled c [] c' where
  mono := fun n h => by
    unfold Spent at h ⊢
    rwa [hshort, hlong]
  nodup := nodup_nil
  fresh := by simp
  spent := by simp

theorem trans (h : Labelled c ns d) (h' : Labelled d ns' c') : Labelled c (ns ++ ns') c' where
  mono := fun n hn => h'.mono n (h.mono n hn)
  nodup := by
    refine nodup_append.mpr ⟨h.nodup, h'.nodup, ?_⟩
    rintro n hn n' hn' rfl
    exact h'.fresh n hn' (h.spent n hn)
  fresh := by
    intro n hn
    rcases mem_append.mp hn with hn | hn
    · exact h.fresh n hn
    · exact fun hspent => h'.fresh n hn (h.mono n hspent)
  spent := by
    grind [h'.mono, h.spent, h'.spent]

theorem perm (h : Labelled c ns c') (hperm : ns.Perm ns') : Labelled c ns' c' where
  mono := h.mono
  nodup := hperm.nodup_iff.mp h.nodup
  fresh := fun n hn => h.fresh n (hperm.mem_iff.mpr hn)
  spent := fun n hn => h.spent n (hperm.mem_iff.mpr hn)

end Labelled

/-! ## Steps -/

theorem mem_issued_of_popUnique (h : p.popUnique pos = .ok (id, p')) :
    id ∉ p.issued ∧ ∀ n, n ∈ p'.issued ↔ n = id ∨ n ∈ p.issued := by
  obtain ⟨hfind, -, rfl⟩ := Pool.popUnique_eq_ok h
  rw [Pool.record_eq]
  exact ⟨by simpa using find?_some hfind, fun n => Pool.mem_issued_taken pos⟩

theorem popLongLabel_labelled (hc : c.InRange) (h : popLongLabel pos c = .ok label c') : Labelled c [label] c' := by
  have hlabel := (popLongLabel_eq_ok hc h).2
  obtain ⟨⟨_, pool⟩, hpop, ⟨⟩⟩ := lift_bind_eq_ok.mp h
  obtain ⟨hfresh, hissued⟩ := mem_issued_of_popUnique hpop
  refine ⟨fun n hn => ?_, nodup_singleton label, ?_, ?_⟩
  · unfold Spent at hn ⊢
    split
    · rwa [if_pos ‹_›] at hn
    simp_all
  · simpa [spent_long hlabel] using hfresh
  · simp only [mem_singleton, forall_eq, spent_long hlabel]
    exact (hissued label).mpr (.inl rfl)

theorem Guards.labelled (h : Guards c test xs ws c') : Labelled c (wrapLabels ws) c' where
  mono := by
    intro n hn
    unfold Spent at hn ⊢
    split
    · rw [if_pos ‹_›] at hn
      obtain ⟨ids, htook⟩ := h.ext.shortLabels
      exact (htook.inUse n).mpr (.inr hn)
    · rw [if_neg ‹_›] at hn
      rwa [h.longLabels]
  nodup := h.nodup
  fresh := by
    intro n hn
    have htaken := (not_taken_of_mem_wrapLabels h.covers n hn).1
    grind [Spent, Taken]
  spent := by
    intro n hn
    have htaken := (not_taken_of_mem_wrapLabels h.covers n hn).1
    have hshort : n < 0x80 := not_le.mp fun hn' => htaken (.inr hn')
    exact (spent_short hshort).mpr (h.taken n hn)

theorem lowerCondition_labelled {x : List Record × SkipCondition} (hc : c.InRange)
    (h : lowerCondition cond pos c = .ok x c') : Labelled c [] c' := by
  obtain ⟨ts, htakes, -⟩ := lowerCondition_program.hands_of_pure c x c' hc h
  exact .none htakes.shortLabels htakes.longLabels

theorem popTemp_labelled {t : Int} (hc : c.InRange) (h : popTemp pos c = .ok t c') : Labelled c [] c' := by
  obtain ⟨ts, htakes, -⟩ := (Program.popTemp pos).hands_of_pure c t c' hc h
  exact .none htakes.shortLabels htakes.longLabels

/-- The labels that stay spent when a declaration is closed: inside of a conditional all of them, and
those of loops otherwise. -/
def lasting (depth : Nat) (ns : List Int) : List Int := if 0 < depth then ns else ns.filter (0x80 ≤ ·)

theorem lasting_append (ns ns' : List Int) : lasting depth (ns ++ ns') = lasting depth ns ++ lasting depth ns' := by
  unfold lasting
  split <;> simp

@[simp] theorem lasting_nil : lasting depth [] = [] := by simp [lasting]

@[simp] theorem lasting_succ (ns : List Int) : lasting (depth + 1) ns = ns := if_pos depth.succ_pos

theorem Encloses.labelled (h : Encloses c inner d c') (hext : inner.Extends d)
    (hinside : Labelled inner ns d) : Labelled c (lasting c.depth ns) c' := by
  obtain ⟨hout, hshort, hlong⟩ := h.close hext
  have hopened : ∀ n, Spent inner n ↔ Spent c n := by
    intro n
    obtain ⟨entry, rfl⟩ := h.opened
    unfold Spent enterConditional
    split <;> split <;> rfl
  have hlongSpent : ∀ n, 0x80 ≤ n → Spent d n → Spent c' n := by
    grind [spent_long]
  have hsub : ∀ n ∈ lasting c.depth ns, n ∈ ns := by
    grind [lasting]
  constructor
  · intro n hn
    by_cases hlt : n < 0x80
    · rw [spent_short hlt] at hn ⊢
      obtain ⟨ids, htook⟩ := hout.shortLabels
      exact (htook.inUse n).mpr (.inr hn)
    · exact hlongSpent n (by omega) (hinside.mono n ((hopened n).mpr hn))
  · grind [lasting, hinside.nodup]
  · exact fun n hn hspent => hinside.fresh n (hsub n hn) ((hopened n).mpr hspent)
  · intro n hn
    have hspent := hinside.spent n (hsub n hn)
    by_cases hin : 0 < c.depth
    · unfold Spent at hspent ⊢
      rwa [hshort hin, hlong]
    simp_all [lasting]

end Lowering

end Grf
