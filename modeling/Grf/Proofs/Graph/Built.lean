import Grf.Proofs.Graph.Cycles
import Grf.Proofs.Record.Layout
import Grf.Proofs.Registry.Lookup

/-! # Graphs as they are built

A graph grows by nodes and by references between nodes that are there, and its edges are the references that have been
added (`Built.spec`). So what is computed on a graph is stated by the references alone: the component of a node
(`connected_component`), the order of the nodes, and the cycles where there is no order (`order?_agrees`).
-/

namespace Grf.Graph

open List Relation

variable {α : Type}

/-- A step in building a graph: a node is added, or a reference. -/
inductive Step (α : Type)
  | node (a : α)
  | edge (source target : Int)

/-- The graph has been built by `steps`, the last one first. -/
inductive Built : List (Step α) → Graph α → Prop
  | empty : Built [] {}
  | node {steps g} (h : Built steps g) (a : α) : Built (.node a :: steps) (g.addNode a).2
  | edge {steps g g'} {source target : Int} (h : Built steps g) (hadd : g.addEdge source target = .ok g') :
      Built (.edge source target :: steps) g'

def Refers (steps : List (Step α)) (v w : Nat) : Prop := .edge v w ∈ steps

variable {g g' : Graph α} {steps : List (Step α)} {v w : Nat}

theorem node_eq_ok {id : Int} : g.node id = .ok v ↔ id = v ∧ v < g.data.size := by
  unfold node isNode
  split_ifs with h <;> simp_all <;> omega

theorem addEdge_eq_ok {s t : Int} (h : g.addEdge s t = .ok g') :
    ∃ v w : Nat, s = v ∧ t = w ∧ v < g.data.size ∧ w < g.data.size ∧ g' = g.insertEdge v w := by
  obtain ⟨v, hs, h⟩ := except_bind_eq_ok h
  obtain ⟨w, ht, ⟨⟩⟩ := except_bind_eq_ok h
  obtain ⟨hsource, hv⟩ := node_eq_ok.mp hs
  obtain ⟨htarget, hw⟩ := node_eq_ok.mp ht
  exact ⟨v, w, hsource, htarget, hv, hw, rfl⟩

/-- The edges of a graph are the references that have been added, and they are between its nodes. -/
theorem Built.spec (h : Built steps g) : g.Closed ∧ ∀ v w, g.Edge v w ↔ Refers steps v w := by
  induction h with
  | empty => simp [Closed, edge_iff_mem, Refers]
  | node _ a ih =>
    refine ⟨fun e he => ?_, fun v w => ?_⟩
    · have hlt := ih.1 e he
      simp only [addNode, Array.size_push]
      omega
    · rw [Refers, mem_cons, or_iff_right (by simp)]
      exact ih.2 v w
  | edge _ hadd ih =>
    obtain ⟨s, t, rfl, rfl, hs, ht, rfl⟩ := addEdge_eq_ok hadd
    refine ⟨fun e he => ?_, fun v w => ?_⟩
    · rw [data_insertEdge]
      rcases edge_insertEdge.mp (edge_iff_mem.mpr he) with he | ⟨hv, hw⟩
      · exact ih.1 e (edge_iff_mem.mp he)
      · exact ⟨hv ▸ hs, hw ▸ ht⟩
    · rw [edge_insertEdge, ih.2, or_comm, Refers, Refers, mem_cons, Step.edge.injEq, Int.ofNat_inj, Int.ofNat_inj]

theorem Built.linked_iff (h : Built steps g) :
    g.Linked v w ↔ ReflTransGen (fun a b => Refers steps a b ∨ Refers steps b a) v w := by
  have hadjacent : (fun a b => g.adjacent a b = true) = fun a b => Refers steps a b ∨ Refers steps b a := by
    funext a b
    rw [adjacent, Bool.or_eq_true, ← h.spec.2, ← h.spec.2]
    rfl
  rw [Linked, hadjacent]

/-- **The nodes connected to a node are the others of its weak component.** They are listed in increasing order. So
two nodes are connected to each other or not at all, and the nodes of a component have the same component. -/
theorem connected_component (h : Built steps g) (v : Nat) : (g.connected v).Pairwise (· < ·) ∧
    (∀ w, w ∈ g.connected v ↔ w ≠ v ∧ ReflTransGen (fun a b => Refers steps a b ∨ Refers steps b a) v w) ∧
    (∀ w, w ∈ g.connected v ↔ v ∈ g.connected w) ∧
    (∀ w, w ∈ g.connected v → ∀ u, u ∈ v :: g.connected v ↔ u ∈ w :: g.connected w) := by
  have hmem : ∀ {v w}, w ∈ g.connected v ↔ w ≠ v ∧ g.Linked v w := mem_connected h.spec.1
  refine ⟨(pairwise_lt_range.filter _).filter _, fun w => ?_, fun w => ?_, fun w hw u => ?_⟩
  · rw [hmem, h.linked_iff]
  · rw [hmem, hmem]
    exact and_congr ne_comm ⟨.symm, .symm⟩
  · obtain ⟨-, hlinked⟩ := hmem.mp hw
    rw [mem_component h.spec.1, mem_component h.spec.1]
    exact ⟨hlinked.symm.trans, hlinked.trans⟩

/-- Three nodes are linked by edges of both directions, and one refers to itself only. -/
theorem connected_component_mixed : ∃ (steps : List (Step Nat)) (g : Graph Nat), Built steps g ∧
    g.edges = [(3, 3), (2, 1), (0, 1)] ∧ g.connected 0 = [1, 2] ∧ g.connected 3 = [] ∧
    ReflTransGen (fun a b => Refers steps a b ∨ Refers steps b a) 0 2 := by
  have hbuilt : Built [.edge 3 3, .edge 2 1, .edge 0 1, .node 8, .node 7, .node 6, .node 5]
      (⟨#[5, 6, 7, 8], [(3, 3), (2, 1), (0, 1)]⟩ : Graph Nat) :=
    .edge (.edge (.edge ((((Built.empty.node 5).node 6).node 7).node 8) rfl) rfl) rfl
  have hconnected : connected (⟨#[5, 6, 7, 8], [(3, 3), (2, 1), (0, 1)]⟩ : Graph Nat) 0 = [1, 2] := by decide +kernel
  refine ⟨_, _, hbuilt, rfl, hconnected, by decide +kernel, ?_⟩
  exact (((connected_component hbuilt 0).2.1 2).mp (by simp [hconnected])).2

/-! ## Orders and cycles -/

/-- The references are refused, and the error names the first cycle, which is one of `edge`. -/
def NamesCycle (r : Registry) (edge : Nat → Nat → Prop) : Prop :=
  ∃ v rest d ds, r.graph.cycles.head? = some (v :: rest) ∧ IsCycle edge (v :: rest) ∧
    (v :: rest).map r.get? = (d :: ds).map some ∧ r.checkCycles = .error (.compile .unsupportedOperator d.pos
      ("cyclic references between records are not supported: " ++ " -> ".intercalate ((d :: ds ++ [d]).map (·.name))))

theorem checkCycles_cases {r : Registry} (hclosed : r.graph.Closed) :
    (r.graph.Acyclic ∧ r.checkCycles = .ok ()) ∨ (¬r.graph.Acyclic ∧ NamesCycle r r.graph.Edge) := by
  by_cases hacyclic : r.graph.Acyclic
  · exact .inl ⟨hacyclic, if_pos ((isSome_order? hclosed).mpr hacyclic)⟩
  refine .inr ⟨hacyclic, ?_⟩
  obtain ⟨cycle, hcycle⟩ := exists_mem_cycles hclosed hacyclic
  obtain ⟨cycle, cycles, hcycles⟩ := exists_cons_of_ne_nil (ne_nil_of_mem hcycle)
  have hcycle := isCycle_of_mem_cycles hclosed (hcycles ▸ mem_cons_self : cycle ∈ _)
  obtain ⟨v, rest, rfl, hleads⟩ := hcycle.transGen
  -- every node of the cycle refers to another one, so it is there
  have hget : ∀ u ∈ v :: rest, ∃ d, r.get? u = some d := by
    intro u hu
    obtain ⟨w, hedge, -⟩ := TransGen.head'_iff.mp (hleads u hu)
    exact Registry.get?_of_lt (hclosed _ (edge_iff_mem.mp hedge)).1
  have hmap : (v :: rest).map r.get? = ((v :: rest).filterMap r.get?).map some := by
    rw [map_filterMap_some_eq_filter_map_isSome]
    refine (filter_eq_self.mpr fun d? hd => ?_).symm
    obtain ⟨u, hu, rfl⟩ := mem_map.mp hd
    obtain ⟨d, hd⟩ := hget u hu
    rw [hd]
    rfl
  obtain ⟨d, hd⟩ := hget v mem_cons_self
  rw [filterMap_cons_some hd] at hmap
  refine ⟨v, rest, d, rest.filterMap r.get?, by rw [hcycles, head?_cons], hcycle, hmap, ?_⟩
  unfold Registry.checkCycles
  rw [if_neg fun h => hacyclic ((isSome_order? hclosed).mp h), hcycles, head?_cons, Option.getD_some,
    filterMap_cons_some hd]

/-- **The order and the cycles agree.** There is an order if and only if no path of references leads from a node to
itself, and then it lists each node once, before those it refers to. Otherwise there are cycles, which are found and
are the ones of the references. The error for a registry with these nodes and edges names one of them. -/
theorem order?_agrees {g : Graph α} (h : Built steps g) : (g.order? = none ↔ ∃ v, TransGen (Refers steps) v v) ∧
    (∀ order, g.order? = some order → order.Perm g.nodes ∧ ∀ v w, Refers steps v w → order.idxOf v < order.idxOf w) ∧
    (g.cycles ≠ [] ↔ g.order? = none) ∧
    (∀ cycle ∈ g.cycles, IsCycle (Refers steps) cycle) ∧
    ∀ r : Registry, r.graph.data.size = g.data.size → r.graph.edges = g.edges → g.order? = none →
      NamesCycle r (Refers steps) := by
  obtain ⟨hclosed, hedge⟩ := h.spec
  have hedges : ∀ {β : Type} {g' : Graph β}, g'.edges = g.edges → g'.Edge = Refers steps := by
    intro β g' hg'
    funext v w
    rw [← hedge v w, edge_iff_mem, edge_iff_mem, hg']
  have hnone : g.order? = none ↔ ¬g.Acyclic := by
    rw [← isSome_order? hclosed, Option.not_isSome_iff_eq_none]
  have hcycles : ∀ cycle ∈ g.cycles, IsCycle g.Edge cycle := fun cycle => isCycle_of_mem_cycles hclosed
  rw [hnone]
  refine ⟨?_, fun order horder => ?_, ⟨fun hne hacyclic => ?_, fun hcyclic => ?_⟩, ?_, fun r hsize hr hcyclic => ?_⟩
  · rw [← hedges rfl, Acyclic]
    push Not
    rfl
  · rw [← hedges rfl]
    exact order?_sorted hclosed horder
  · obtain ⟨cycle, hcycle⟩ := exists_mem_of_ne_nil _ hne
    obtain ⟨v, rest, rfl, hleads⟩ := (hcycles cycle hcycle).transGen
    exact hacyclic v (hleads v mem_cons_self)
  · obtain ⟨cycle, hcycle⟩ := exists_mem_cycles hclosed hcyclic
    exact ne_nil_of_mem hcycle
  · rwa [← hedges rfl]
  · have hrclosed : r.graph.Closed := by
      rwa [Closed, hsize, hr]
    rcases checkCycles_cases hrclosed with ⟨hacyclic, -⟩ | ⟨-, hnamed⟩
    · rw [Acyclic, hedges hr, ← hedges rfl] at hacyclic
      exact absurd hacyclic hcyclic
    · rwa [hedges hr] at hnamed

/-- Two records that refer to each other. -/
theorem order?_agrees_pair : ∃ steps g, Built steps g ∧ g.order? = none ∧ g.cycles = [[0, 1]] ∧
    Registry.checkCycles { graph := g } = .error (.compile .unsupportedOperator { file := "f" }
      "cyclic references between records are not supported: a -> b -> a") := by
  let a : Definition := { name := "a", feature := 0, pos := { file := "f" } }
  let b : Definition := { name := "b", feature := 0, pos := {} }
  have hbuilt : Built [.edge 1 0, .edge 0 1, .node b, .node a] (⟨#[a, b], [(1, 0), (0, 1)]⟩ : Graph Definition) :=
    .edge (.edge ((Built.empty.node a).node b) rfl) rfl
  have hcycles : cycles (⟨#[a, b], [(1, 0), (0, 1)]⟩ : Graph Definition) = [[0, 1]] := by decide +kernel
  obtain ⟨-, -, hagree, -, hnamed⟩ := order?_agrees hbuilt
  have hnone := hagree.mp (by simp [hcycles])
  obtain ⟨v, rest, d, ds, hfirst, -, hnames, hcheck⟩ := hnamed { graph := _ } rfl rfl hnone
  refine ⟨_, _, hbuilt, hnone, hcycles, hcheck.trans ?_⟩
  obtain ⟨rfl, rfl⟩ : v = 0 ∧ rest = [1] := by simpa [hcycles, eq_comm] using hfirst
  obtain ⟨rfl, rfl⟩ : d = a ∧ ds = [b] := by simpa [Registry.get?, eq_comm] using hnames
  rfl

end Grf.Graph
