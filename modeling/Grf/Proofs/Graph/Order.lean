import Mathlib.Data.List.Perm.Basic
import Grf.Proofs.Graph.Reach

/-! # The order of an acyclic graph

The depth-first walk lists the nodes in the reverse order in which it leaves them. If there is no cycle, every node is
then listed before those it refers to (`walk_sorted`), and otherwise there is no order (`isSome_order?`). The invariant
is `Walking`: all that is above an entered node on the stack can be reached from it, so a node about to be entered for
the second time has been left, or there is a cycle through it.
-/

namespace Grf.Graph

open List

open Relation

/-! ## The walk -/

def Visit.node : Visit → Nat
  | .enter v | .leave v => v

def leaves : List Visit → List Nat
  | [] => []
  | .enter _ :: rest => leaves rest
  | .leave v :: rest => v :: leaves rest

variable {v w : Nat} {order : List Nat}

theorem mem_leaves {stack : List Visit} : v ∈ leaves stack ↔ .leave v ∈ stack := by
  induction stack with
  | nil => simp [leaves]
  | cons x rest ih => cases x <;> simp [leaves, ih]

theorem leaves_enter_append (vs : List Nat) (rest : List Visit) : leaves (vs.map .enter ++ rest) = leaves rest := by
  induction vs with
  | nil => rfl
  | cons v vs ih => exact ih

def Sorted (next : Nat → List Nat) : List Nat → Prop
  | [] => True
  | v :: rest => (∀ w ∈ next v, w ∈ rest) ∧ Sorted next rest

/-- A visit of `w` is above the end of the visit of `v`. -/
def Above (stack : List Visit) (w v : Nat) : Prop := ∃ pre post, stack = pre ++ .leave v :: post ∧ ∃ x ∈ pre, x.node = w

/-- The state of a walk over the nodes `all`. -/
structure Walking (next : Nat → List Nat) (all unseen done : List Nat) (stack : List Visit) : Prop where
  /-- A node has not been entered, or it has been left, or it has only been entered. -/
  perm : (unseen ++ (leaves stack ++ done)).Perm all
  entered : ∀ v ∈ unseen, .enter v ∈ stack
  path : stack.Pairwise fun x y => ∀ v, y = .leave v → TransGen (fun v w => w ∈ next v) v x.node
  pending : ∀ v ∈ leaves stack, ∀ w ∈ next v, w ∈ done ∨ Above stack w v
  sorted : Sorted next done

variable {next : Nat → List Nat} {all unseen done : List Nat} {stack rest : List Visit} {v : Nat}

theorem eq_nil_of_leave {pre post : List Visit} (hnodup : (leaves (.leave v :: rest)).Nodup)
    (h : Visit.leave v :: rest = pre ++ .leave v :: post) : pre = [] := by
  cases pre with
  | nil => rfl
  | cons x pre =>
    obtain ⟨-, rfl⟩ := List.cons.inj h
    have hmem : v ∈ leaves (pre ++ .leave v :: post) := mem_leaves.mpr (by simp)
    exact absurd hmem (nodup_cons.mp hnodup).1

namespace Walking

theorem pending_tail {x : Visit} {u w : Nat} (h : Walking next all unseen done (x :: rest)) (hu : u ∈ leaves (x :: rest))
    (hw : w ∈ next u) :
    w ∈ done ∨ ∃ pre post, rest = pre ++ .leave u :: post ∧ (x.node = w ∨ ∃ y ∈ pre, y.node = w) := by
  rcases h.pending u hu w hw with hdone | ⟨pre, post, hstack, y, hy, rfl⟩
  · exact .inl hdone
  · cases pre with
    | nil => cases hy
    | cons x pre =>
      obtain ⟨rfl, rfl⟩ := List.cons.inj hstack
      exact .inr ⟨pre, post, rfl, (mem_cons.mp hy).imp (congrArg Visit.node ·.symm) fun hy => ⟨y, hy, rfl⟩⟩

theorem leave (h : Walking next all unseen done (.leave v :: rest)) (hall : all.Nodup) :
    Walking next all unseen (v :: done) rest := by
  have hnodup := (nodup_append.mp (h.perm.nodup_iff.mpr hall)).2.1
  have hleaves := (nodup_append.mp hnodup).1
  refine ⟨h.perm.symm.trans ?_ |>.symm, fun w hw => ?_, (pairwise_cons.mp h.path).2, ?_, ?_, h.sorted⟩
  · refine Perm.append_left _ ?_
    exact perm_middle.symm
  · exact (mem_cons.mp (h.entered w hw)).resolve_left (by simp)
  · intro u hu w hw
    rcases h.pending_tail (mem_cons_of_mem _ hu) hw with hdone | ⟨pre, post, hstack, rfl | habove⟩
    · exact .inl (mem_cons_of_mem _ hdone)
    · exact .inl (by simp [Visit.node])
    · exact .inr ⟨pre, post, hstack, habove⟩
  · intro w hw
    refine (h.pending v (by simp [leaves]) w hw).resolve_right ?_
    rintro ⟨pre, post, hstack, x, hx, -⟩
    rw [eq_nil_of_leave hleaves hstack] at hx
    cases hx

theorem enter (h : Walking next all unseen done (.enter v :: rest)) (hall : all.Nodup) (hv : v ∈ unseen) :
    Walking next all (unseen.erase v) done ((next v).map .enter ++ .leave v :: rest) := by
  obtain ⟨habove, hpath⟩ := pairwise_cons.mp h.path
  refine ⟨?_, fun w hw => ?_, ?_, ?_, h.sorted⟩
  · refine Perm.trans ?_ h.perm
    rw [leaves_enter_append]
    refine perm_middle.trans ?_
    exact (perm_cons_erase hv).symm.append_right _
  · have hnodup : unseen.Nodup := (nodup_append.mp (h.perm.nodup_iff.mpr hall)).1
    grind [h.entered]
  · -- what `v` leads to is reached from `v`, and from all nodes that `v` has been reached from
    refine pairwise_append.mpr ⟨?_, pairwise_cons.mpr ⟨fun y hy u hyu => ?_, hpath⟩, ?_⟩
    · grind [pairwise_of_forall]
    · exact habove y hy u hyu
    · intro x hx y hy u hyu
      obtain ⟨w, hw, rfl⟩ := mem_map.mp hx
      subst hyu
      rcases mem_cons.mp hy with hy | hy
      · obtain rfl := Visit.leave.inj hy
        exact TransGen.single hw
      · exact (habove _ hy u rfl).tail hw
  · intro u hu w hw
    rw [leaves_enter_append] at hu
    rcases mem_cons.mp hu with rfl | hu
    · exact .inr ⟨_, rest, rfl, .enter w, mem_map_of_mem hw, rfl⟩
    · rcases h.pending_tail hu hw with hdone | ⟨pre, post, rfl, hpre⟩
      · exact .inl hdone
      · refine .inr ⟨(next v).map .enter ++ .leave v :: pre, post, by simp, ?_⟩
        rcases hpre with rfl | ⟨x, hx, rfl⟩
        · exact ⟨.leave v, by simp, rfl⟩
        · exact ⟨x, by simp [hx], rfl⟩

theorem pass (h : Walking next all unseen done (.enter v :: rest))
    (hnext : ∀ u, ∀ w ∈ next u, w ∈ all) (hacyclic : ∀ u, ¬TransGen (fun v w => w ∈ next v) u u)
    (hv : v ∉ unseen) : Walking next all unseen done rest := by
  obtain ⟨-, hpath⟩ := pairwise_cons.mp h.path
  refine ⟨h.perm, fun w hw => ?_, hpath, ?_, h.sorted⟩
  · refine (mem_cons.mp (h.entered w hw)).resolve_left fun heq => hv ?_
    obtain rfl := Visit.enter.inj heq
    exact hw
  · intro u hu w hw
    rcases h.pending_tail hu hw with hdone | ⟨pre, post, rfl, rfl | habove⟩
    · exact .inl hdone
    · -- the node that is passed: it is not below the end of `u`
      have hseen := h.perm.mem_iff.mpr (hnext u _ hw)
      rcases mem_append.mp hseen with hunseen | hseen
      · exact absurd hunseen hv
      · rcases mem_append.mp hseen with hleft | hdone
        · have hleave := mem_leaves.mp hleft
          rcases mem_append.mp ((mem_cons.mp hleave).resolve_left (by simp)) with
            hpre | hpost
          · exact .inr ⟨pre, post, rfl, .leave v, hpre, rfl⟩
          · exfalso
            rcases mem_cons.mp hpost with heq | hpost
            · obtain rfl := Visit.leave.inj heq
              exact hacyclic _ (TransGen.single hw)
            · have hbelow := (pairwise_cons.mp (pairwise_append.mp hpath).2.1).1
              exact hacyclic u (TransGen.head hw (hbelow _ hpost v rfl))
        · exact .inl hdone
    · exact .inr ⟨pre, post, rfl, habove⟩

end Walking

/-- **The walk of a graph without cycles sorts the nodes.** -/
theorem walk_sorted (h : Walking next all unseen done stack) (hall : all.Nodup)
    (hnext : ∀ u, ∀ w ∈ next u, w ∈ all) (hacyclic : ∀ u, ¬TransGen (fun v w => w ∈ next v) u u) :
    (walk next unseen done stack).Perm all ∧ Sorted next (walk next unseen done stack) := by
  fun_induction walk next unseen done stack with
  | case1 unseen done =>
    have hunseen : unseen = [] := eq_nil_iff_forall_not_mem.mpr fun v hv => nomatch h.entered v hv
    subst hunseen
    exact ⟨h.perm, h.sorted⟩
  | case2 unseen done v rest ih => exact ih (h.leave hall)
  | case3 unseen done v rest hv ih => exact ih (h.enter hall hv)
  | case4 unseen done v rest hv ih => exact ih (h.pass hnext hacyclic hv)

/-! ## The order of a graph -/

theorem Sorted.idxOf_lt (h : Sorted next order) (hnodup : order.Nodup)
    (hv : v ∈ order) (hw : w ∈ next v) : order.idxOf v < order.idxOf w := by
  induction order with
  | nil => cases hv
  | cons u order ih =>
    obtain ⟨hu, hnodup⟩ := nodup_cons.mp hnodup
    have hmem : ∀ {x : Nat}, x ∈ order → u ≠ x := fun hx heq => hu (heq ▸ hx)
    rcases mem_cons.mp hv with rfl | hv
    · rw [idxOf_cons_self, idxOf_cons_ne _ (hmem (h.1 w hw))]
      exact Nat.succ_pos _
    · have hlt := ih h.2 hnodup hv
      -- `w` is listed as well, since it comes after `v`
      have hwmem : w ∈ order := by
        have hsub : ∀ {l : List Nat}, Sorted next l → v ∈ l → w ∈ l := by
          intro l hl hvl
          induction l with
          | nil => cases hvl
          | cons x l ih =>
            rcases mem_cons.mp hvl with rfl | hvl
            · exact mem_cons_of_mem _ (hl.1 w hw)
            · exact mem_cons_of_mem _ (ih hl.2 hvl)
        exact hsub h.2 hv
      grind

variable {α : Type} {g : Graph α}

def Edge (g : Graph α) (v w : Nat) : Prop := g.hasEdge v w = true

def Acyclic (g : Graph α) : Prop := ∀ v, ¬TransGen g.Edge v v

theorem edge_iff_mem : g.Edge v w ↔ (v, w) ∈ g.edges := contains_iff_mem

theorem mem_successors : w ∈ g.successors v ↔ w < g.data.size ∧ g.Edge v w := by
  rw [successors, mem_filter, mem_nodes, Edge]

theorem Closed.mem_successors (hg : g.Closed) : w ∈ g.successors v ↔ g.Edge v w := by
  rw [Graph.mem_successors, and_iff_right_iff_imp]
  exact fun h => (hg _ (edge_iff_mem.mp h)).2

theorem edge_insertEdge {s t : Nat} : (g.insertEdge s t).Edge v w ↔ g.Edge v w ∨ (v = s ∧ w = t) := by
  unfold insertEdge
  split_ifs with hedge
  · refine ⟨.inl, ?_⟩
    rintro (h | ⟨rfl, rfl⟩)
    · exact h
    · exact hedge
  · simp only [edge_iff_mem, mem_cons, Prod.mk.injEq, or_comm]

theorem data_insertEdge (g : Graph α) (s t : Nat) : (g.insertEdge s t).data = g.data := by
  unfold insertEdge
  split_ifs <;> rfl

theorem walkOrder_sorted (hg : g.Closed) (hacyclic : g.Acyclic) :
    g.walkOrder.Perm g.nodes ∧ g.respects g.walkOrder = true := by
  have hnodup : g.nodes.reverse.Nodup := (reverse_perm _).nodup_iff.mpr nodup_range
  have hnext : ∀ {u w : Nat}, w ∈ (g.successors u).reverse ↔ g.Edge u w := by
    intro u w
    rw [mem_reverse, hg.mem_successors]
  have hstart : Walking (fun v => (g.successors v).reverse) g.nodes.reverse g.nodes.reverse []
      (g.nodes.reverse.map .enter) := by
    have hleaves : leaves (g.nodes.reverse.map .enter) = [] := by
      have happend := leaves_enter_append g.nodes.reverse []
      rwa [append_nil] at happend
    refine ⟨?_, fun v hv => mem_map_of_mem hv, ?_, fun v hv => ?_, trivial⟩
    · rw [hleaves, append_nil, append_nil]
    · grind
    · rw [hleaves] at hv
      cases hv
  obtain ⟨hperm, hsorted⟩ := walk_sorted hstart hnodup
    (fun u w hw => by simpa using mem_nodes.mpr (mem_successors.mp (mem_reverse.mp hw)).1)
    (fun u hcycle => hacyclic u (TransGen.mono (fun a b hab => hnext.mp hab) u u hcycle))
  refine ⟨hperm.trans (reverse_perm _), all_eq_true.mpr fun e he => decide_eq_true ?_⟩
  refine hsorted.idxOf_lt (hperm.nodup_iff.mpr hnodup) ?_ (hnext.mpr (edge_iff_mem.mpr he))
  exact hperm.mem_iff.mpr (mem_reverse.mpr (mem_nodes.mpr (hg e he).1))

theorem idxOf_lt_of_respects (h : g.respects order = true) (hedge : g.Edge v w) : order.idxOf v < order.idxOf w :=
  of_decide_eq_true (all_eq_true.mp h (v, w) (edge_iff_mem.mp hedge))

theorem acyclic_of_respects (h : g.respects order = true) : g.Acyclic := by
  intro v hcycle
  have hlt : ∀ {w : Nat}, TransGen g.Edge v w → order.idxOf v < order.idxOf w := by
    intro w hw
    induction hw with
    | single hab => exact idxOf_lt_of_respects h hab
    | tail _ hab ih => exact Nat.lt_trans ih (idxOf_lt_of_respects h hab)
  exact Nat.lt_irrefl _ (hlt hcycle)

/-- **There is an order exactly if there is no cycle.** -/
theorem isSome_order? (hg : g.Closed) : g.order?.isSome = true ↔ g.Acyclic := by
  unfold order?
  constructor
  · intro h
    by_cases hrespects : g.respects g.walkOrder = true
    · exact acyclic_of_respects hrespects
    · rw [if_neg hrespects] at h
      cases h
  simp_all [walkOrder_sorted]

/-- An order lists each node once, and before the nodes it refers to. -/
theorem order?_sorted (hg : g.Closed) (h : g.order? = some order) :
    order.Perm g.nodes ∧ ∀ v w, g.Edge v w → order.idxOf v < order.idxOf w := by
  have hacyclic := (isSome_order? hg).mp (by rw [h]; rfl)
  obtain ⟨hperm, hrespects⟩ := walkOrder_sorted hg hacyclic
  rw [order?, if_pos hrespects] at h
  cases h
  exact ⟨hperm, fun v w => idxOf_lt_of_respects hrespects⟩

end Grf.Graph
