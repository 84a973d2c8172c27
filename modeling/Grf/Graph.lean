import Grf.Error

/-! # Directed graphs of references

An edge from `a` to `b` says that `a` refers to `b`. Nodes are numbered from zero in the order of their
creation and never removed. The graph answers which nodes hang together, in which order the nodes can
be listed so that each comes before what it refers to, and which cycles prevent such an order.
-/

namespace Grf

/-- A directed graph with data of type `α` at its nodes. `edges` holds each edge once. -/
structure Graph (α : Type) where
  data : Array α := #[]
  edges : List (Nat × Nat) := []
deriving Repr, Inhabited

namespace Graph

variable {α : Type}

def nodes (g : Graph α) : List Nat := List.range g.data.size

def addNode (g : Graph α) (a : α) : Nat × Graph α :=
  (g.data.size, { g with data := g.data.push a })

def isNode (g : Graph α) (id : Int) : Bool := 0 ≤ id && id < g.data.size

def node (g : Graph α) (id : Int) : Except Fault Nat :=
  if g.isNode id then .ok id.toNat else .error (.unknownNode id)

def get (g : Graph α) (id : Int) : Except Fault α :=
  match if 0 ≤ id then g.data[id.toNat]? else none with
  | some a => .ok a
  | none => .error (.unknownNode id)

def hasEdge (g : Graph α) (source target : Nat) : Bool := g.edges.contains (source, target)

def insertEdge (g : Graph α) (source target : Nat) : Graph α :=
  if g.hasEdge source target then g else { g with edges := (source, target) :: g.edges }

def addEdge (g : Graph α) (source target : Int) : Except Fault (Graph α) := do
  let s ← g.node source
  let t ← g.node target
  return g.insertEdge s t

def successors (g : Graph α) (v : Nat) : List Nat := g.nodes.filter (g.hasEdge v)

def adjacent (g : Graph α) (v w : Nat) : Bool := g.hasEdge v w || g.hasEdge w v

theorem length_partition (p : Nat → Bool) (l : List Nat) :
    (l.partition p).1.length + (l.partition p).2.length = l.length := by
  rw [List.partition_eq_filter_filter]
  induction l with
  | nil => rfl
  | cons a l ih => by_cases h : p a <;> simp_all <;> omega

/-- The nodes reached from those of `queue` when `near v w` leads from `v` to `w`. The nodes of
`unseen` have not been reached yet. -/
def reach (near : Nat → Nat → Bool) (unseen : List Nat) : List Nat → List Nat
  | [] => []
  | v :: queue =>
    let parts := unseen.partition (near v)
    v :: reach near parts.2 (queue ++ parts.1)
termination_by queue => unseen.length + queue.length
decreasing_by
  have h := length_partition (near v) unseen
  simp only [List.length_append, List.length_cons]
  omega

/-- The nodes that edges, taken in either direction, lead to from `v`. The node itself is left out. -/
def connected (g : Graph α) (v : Nat) : List Nat :=
  let unseen := g.nodes.filter (· != v)
  let reached := reach g.adjacent unseen [v]
  unseen.filter reached.contains

/-- A step of the depth-first walk: a node is entered, or all it refers to has been listed. -/
inductive Visit
  | enter (v : Nat)
  | leave (v : Nat)

/-- A depth-first walk. `unseen` are the nodes that have not been entered, `done` the nodes that have
been left, the last one first. -/
def walk (next : Nat → List Nat) (unseen done : List Nat) : List Visit → List Nat
  | [] => done
  | .leave v :: rest => walk next unseen (v :: done) rest
  | .enter v :: rest =>
    if v ∈ unseen then
      walk next (unseen.erase v) done ((next v).map .enter ++ .leave v :: rest)
    else walk next unseen done rest
termination_by stack => (unseen.length, stack.length)
decreasing_by
  · exact Prod.Lex.right _ (by simp)
  · rename_i h
    refine Prod.Lex.left _ _ ?_
    rw [List.length_erase_of_mem h]
    have := List.length_pos_of_mem h
    omega
  · exact Prod.Lex.right _ (by simp)

/-- The nodes in the reverse order in which a depth-first walk leaves them. The walk starts at the
largest node first, and takes larger nodes first everywhere. -/
def walkOrder (g : Graph α) : List Nat :=
  let starts := g.nodes.reverse
  walk (fun v => (g.successors v).reverse) starts [] (starts.map .enter)

def respects (g : Graph α) (order : List Nat) : Bool :=
  g.edges.all fun (v, w) => order.idxOf v < order.idxOf w

/-- The nodes in an order in which each comes before those it refers to. There is none if the graph
has a cycle. -/
def order? (g : Graph α) : Option (List Nat) :=
  let order := g.walkOrder
  if g.respects order then some order else none

/-- The ways to close a cycle at `start`. `path` is the way from `start` to the node `v`, the last node
first, and `free` the nodes that may still be taken. -/
def circuits (next : Nat → List Nat) (start : Nat) (free path : List Nat) (v : Nat) :
    List (List Nat) :=
  (next v).flatMap fun w =>
    if w = start then [path.reverse]
    else if w ∈ free then circuits next start (free.erase w) (w :: path) w
    else []
termination_by free.length
decreasing_by
  rename_i h
  rw [List.length_erase_of_mem h]
  have := List.length_pos_of_mem h
  omega

/-- The cycles of two nodes or more whose smallest node is `start`. Only nodes that lead back to
`start` are tried. -/
def cyclesFrom (g : Graph α) (start : Nat) : List (List Nat) :=
  let larger := g.nodes.filter (start < ·)
  let back := reach (fun v w => g.hasEdge w v) larger [start]
  circuits g.successors start (larger.filter back.contains) [start] start
    |>.filter fun cycle => 1 < cycle.length

/-- The cycles that visit no node twice. References of a node to itself come first, then the other
cycles by their smallest nodes, at which they start. -/
def cycles (g : Graph α) : List (List Nat) :=
  (g.nodes.filter fun v => g.hasEdge v v).map ([·]) ++ g.nodes.flatMap g.cyclesFrom

end Graph

end Grf
