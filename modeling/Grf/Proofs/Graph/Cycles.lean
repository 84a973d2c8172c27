import Mathlib.Data.List.Chain
import Mathlib.Data.List.Nodup
import Mathlib.Data.Nat.Find
import Grf.Proofs.Graph.Order

/-! # The cycles of a graph

A cycle is reported for every graph that has one (`exists_mem_cycles`), and all that is reported is a cycle
(`isCycle_of_mem_cycles`). Every cycle is found from its smallest node. The search follows all ways back to it that
visit no node twice, and there is such a way if there is any (`Way.avoid`).
-/

namespace Grf.Graph

open List

open Relation

/-- The nodes are distinct, each refers to the next one, and the last one refers to the first. -/
def IsCycle (refers : Nat → Nat → Prop) (cycle : List Nat) : Prop :=
  cycle.Nodup ∧ ∃ first rest, cycle = first :: rest ∧ (cycle ++ [first]).IsChain refers

/-- A way from `v` to `start` whose inner nodes are `free`. -/
inductive Way (next : Nat → List Nat) (start : Nat) (free : Nat → Prop) : Nat → Prop
  | close {v : Nat} (h : start ∈ next v) : Way next start free v
  | step {v w : Nat} (hw : w ∈ next v) (hfree : free w) (h : Way next start free w) : Way next start free v

namespace Way

variable {next : Nat → List Nat} {start v : Nat} {free free' : Nat → Prop}
variable (h : Way next start free v)
include h

theorem mono (hsub : ∀ w, free w → free' w) : Way next start free' v := by
  induction h with
  | close h => exact .close h
  | step hw hfree _ ih => exact .step hw (hsub _ hfree) ih

theorem inner : Way next start (fun w => free w ∧ Way next start free w) v := by
  induction h with
  | close h => exact .close h
  | step hw hfree h ih => exact .step hw ⟨hfree, h⟩ ih

theorem avoid (u : Nat) : Way next start (fun w => free w ∧ w ≠ u) v ∨ Way next start (fun w => free w ∧ w ≠ u) u := by
  induction h with
  | close h => exact .inl (.close h)
  | @step v w hw hfree _ ih =>
    rcases ih with ih | ih
    · by_cases hwu : w = u
      · subst hwu
        exact .inr ih
      · exact .inl (.step hw ⟨hfree, hwu⟩ ih)
    · exact .inr ih

end Way

variable {next : Nat → List Nat} {start v : Nat} {free path cycle : List Nat}

theorem IsCycle.transGen {refers : Nat → Nat → Prop} (h : IsCycle refers cycle) :
    ∃ first rest, cycle = first :: rest ∧ ∀ v ∈ cycle, TransGen refers v first := by
  obtain ⟨-, first, rest, hcycle, hchain⟩ := h
  have hpairwise := isChain_iff_pairwise.mp (hchain.imp fun _ _ => TransGen.single)
  exact ⟨first, rest, hcycle, fun v hv => (pairwise_append.mp hpairwise).2.2 v hv first (by simp)⟩

theorem prefix_of_mem_circuits (h : cycle ∈ circuits next start free path v) : path.reverse <+: cycle := by
  fun_induction circuits next start free path v with
  | case1 free path v ih =>
    obtain ⟨w, -, hcycle⟩ := mem_flatMap.mp h
    split_ifs at hcycle with hstart hfree
    · obtain rfl := mem_singleton.mp hcycle
      exact prefix_refl _
    · grind [prefix_append]
    · cases hcycle

theorem isChain_of_mem_circuits (hpath : ∀ w ∈ next v, (w :: path).IsChain fun w v => w ∈ next v)
    (hnodup : (path ++ free).Nodup) (h : cycle ∈ circuits next start free path v) :
    cycle.Nodup ∧ (cycle ++ [start]).IsChain fun v w => w ∈ next v := by
  fun_induction circuits next start free path v with
  | case1 free path v ih =>
    obtain ⟨w, hw, hcycle⟩ := mem_flatMap.mp h
    split_ifs at hcycle with hstart hfree
    · -- the way is closed
      obtain rfl := mem_singleton.mp hcycle
      refine ⟨nodup_reverse.mpr (nodup_append.mp hnodup).1, ?_⟩
      rw [← reverse_cons, isChain_reverse, ← hstart]
      exact hpath w hw
    · refine ih w hfree (fun u hu => isChain_cons_cons.mpr ⟨hu, hpath w hw⟩) ?_ hcycle
      refine (Perm.nodup_iff ?_).mpr hnodup
      exact perm_middle.symm.trans ((perm_cons_erase hfree).symm.append_left path)
    · cases hcycle

theorem exists_mem_circuits (h : Way next start (· ∈ free) v) : ∃ cycle, cycle ∈ circuits next start free path v := by
  fun_induction circuits next start free path v with
  | case1 free path v ih =>
    have hclose : start ∈ next v → ∃ cycle, cycle ∈ (next v).flatMap fun w =>
        if w = start then [path.reverse]
        else if w ∈ free then circuits next start (free.erase w) (w :: path) w else [] :=
      fun hstart => ⟨path.reverse, mem_flatMap.mpr ⟨start, hstart, by simp⟩⟩
    cases h with
    | close hstart => exact hclose hstart
    | @step _ w hw hfree hway =>
      by_cases hstart : w = start
      · exact hclose (hstart ▸ hw)
      · -- the rest of the way need not come back to `w`
        have hrest : Way next start (· ∈ free.erase w) w :=
          ((hway.avoid w).elim id id).mono fun u hu => (mem_erase_of_ne hu.2).mpr hu.1
        obtain ⟨cycle, hcycle⟩ := ih w hfree hrest
        exact ⟨cycle, mem_flatMap.mpr ⟨w, hw, by rwa [if_neg hstart, if_pos hfree]⟩⟩

variable {α : Type} {g : Graph α}

theorem isCycle_of_mem_cycles (hg : g.Closed) (h : cycle ∈ g.cycles) : IsCycle g.Edge cycle := by
  rcases mem_append.mp h with h | h
  · obtain ⟨v, hv, rfl⟩ := mem_map.mp h
    exact ⟨nodup_singleton v, v, [], rfl, by simpa [Edge] using (mem_filter.mp hv).2⟩
  · obtain ⟨v, hv, hcycle⟩ := mem_flatMap.mp h
    have hcycle := (mem_filter.mp hcycle).1
    obtain ⟨rest, hrest⟩ := prefix_of_mem_circuits hcycle
    have hfree : ∀ back, ([v] ++ (g.nodes.filter (v < ·)).filter back).Nodup := fun back =>
      nodup_cons.mpr ⟨by simp, (nodup_range.filter _).filter _⟩
    obtain ⟨hnodup, hchain⟩ := isChain_of_mem_circuits (by simp) (hfree _) hcycle
    exact ⟨hnodup, v, rest, hrest.symm, hchain.imp fun a b hab => hg.mem_successors.mp hab⟩

theorem one_lt_length_of_mem_circuits (hself : start ∉ next start)
    (h : cycle ∈ circuits next start free [start] start) : 1 < cycle.length := by
  rw [circuits] at h
  obtain ⟨w, hw, hcycle⟩ := mem_flatMap.mp h
  split_ifs at hcycle with hstart hfree
  · exact absurd (hstart ▸ hw) hself
  · exact (prefix_of_mem_circuits hcycle).length_le
  · cases hcycle

theorem Way.mem_reach (hg : g.Closed) {larger : List Nat} {u : Nat}
    (h : Way g.successors start (· ∈ larger) u) (hu : u ∈ larger) :
    u ∈ reach (fun v w => g.hasEdge w v) larger [start] := by
  refine Graph.mem_reach.mpr ⟨start, by simp, ?_⟩
  induction h with
  | close h => exact .single ⟨hg.mem_successors.mp h, hu⟩
  | step hw hfree _ ih => exact (ih hfree).tail ⟨hg.mem_successors.mp hw, hu⟩

theorem way_of_cycle (hg : g.Closed) (hmin : ∀ u, TransGen g.Edge u u → start ≤ u)
    (hfrom : v = start ∨ TransGen g.Edge start v) (h : TransGen g.Edge v start) :
    Way g.successors start (· ∈ g.nodes.filter (start < ·)) v := by
  induction h using TransGen.head_induction_on with
  | single hedge => exact .close (hg.mem_successors.mpr hedge)
  | @head v w hedge hrest ih =>
    have hfrom' : TransGen g.Edge start w := by
      rcases hfrom with rfl | hfrom
      · exact .single hedge
      · exact hfrom.tail hedge
    by_cases hw : w = start
    · exact .close (hg.mem_successors.mpr (hw ▸ hedge))
    · have hlarger : start < w := Nat.lt_of_le_of_ne (hmin w (hrest.trans hfrom')) (Ne.symm hw)
      have hnode : w < g.data.size := (hg _ (edge_iff_mem.mp hedge)).2
      refine .step (hg.mem_successors.mpr hedge) ?_ (ih (.inr hfrom'))
      exact mem_filter.mpr ⟨mem_nodes.mpr hnode, decide_eq_true hlarger⟩

/-- **A graph with a cycle has a reported one.** -/
theorem exists_mem_cycles (hg : g.Closed) (h : ¬g.Acyclic) : ∃ cycle, cycle ∈ g.cycles := by
  classical
  unfold Acyclic at h
  push Not at h
  let start := Nat.find h
  have hcycle : TransGen g.Edge start start := Nat.find_spec h
  have hmin : ∀ u, TransGen g.Edge u u → start ≤ u := fun u hu => Nat.find_min' h hu
  have hnode : start ∈ g.nodes := by
    obtain ⟨u, -, hedge⟩ := TransGen.tail'_iff.mp hcycle
    exact mem_nodes.mpr (hg _ (edge_iff_mem.mp hedge)).2
  by_cases hself : g.Edge start start
  · exact ⟨[start], mem_append_left _ (mem_map.mpr ⟨start, mem_filter.mpr ⟨hnode, hself⟩, rfl⟩)⟩
  · have hway := way_of_cycle hg hmin (.inl rfl) hcycle
    -- every inner node of the way leads back to the start, so the search may take it
    have hback := hway.inner.mono fun u hu => mem_filter.mpr ⟨hu.1, contains_iff_mem.mpr (hu.2.mem_reach hg hu.1)⟩
    obtain ⟨cycle, hfound⟩ : ∃ cycle, cycle ∈ circuits g.successors start _ [start] start := exists_mem_circuits hback
    have hlength : 1 < cycle.length := one_lt_length_of_mem_circuits (fun hs => hself (hg.mem_successors.mp hs)) hfound
    exact ⟨cycle, mem_append_right _ (mem_flatMap.mpr ⟨start, hnode, mem_filter.mpr ⟨hfound, decide_eq_true hlength⟩⟩)⟩

end Grf.Graph
