import Grf.Graph
import Grf.Pool
import Grf.Text.Natural

/-! # The registry of named records

Decision tables and sprite groups have names, by which other records refer to them. The output knows
ids instead: a definition gets an id from the pool of its feature when its record is bound, and the id
is free again once the last reference to it has been bound. The registry counts the references and
keeps them as a graph.

Definitions are listed and looked up in an index that is ordered by name.
-/

namespace Grf

/-- A named record. Its id is negative until it is bound. -/
structure Definition where
  name : String
  feature : Int
  pos : Position
  /-- The references that have not been bound yet. -/
  refCount : Nat := 0
  /-- All references ever added. -/
  totalRefs : Nat := 0
  id : Int := -1
  released : Bool := false
deriving Repr, Inhabited, DecidableEq

def Definition.isBound (d : Definition) : Bool := 0 ≤ d.id

/-- The named records, their references and the pools of their ids. A definition is known by its node
in the graph. -/
structure Registry where
  graph : Graph Definition := {}
  /-- The nodes, ordered by the names of their definitions. -/
  index : Array Nat := #[]
  /-- The pools of record ids with their features, in increasing order. -/
  idPools : List (Int × Pool) := []
deriving Repr, Inhabited

namespace Registry

/-- The order of the index: natural order, and character by character where that makes no
difference. -/
def nameLess (a b : String) : Bool :=
  if Text.naturalLt a b then true
  else if Text.naturalLt b a then false
  else Text.lexLess a.toList b.toList

def get? (r : Registry) (node : Nat) : Option Definition := r.graph.data[node]?

def nameOf (r : Registry) (node : Nat) : String := ((r.get? node).map (·.name)).getD ""

/-- The place of the first name of the index, from `low` on and below `high`, that `name` comes
before. -/
def upperBound (r : Registry) (name : String) (low high : Nat) : Nat :=
  if low < high then
    let mid := (low + high) / 2
    match r.index[mid]? with
    | none => low
    | some node =>
      if nameLess name (r.nameOf node) then r.upperBound name low mid
      else r.upperBound name (mid + 1) high
  else low
termination_by high - low
decreasing_by all_goals omega

/-- The place of `name` in the index, and whether the name just before that place is `name` itself. -/
def search (r : Registry) (name : String) : Nat × Option Nat :=
  let place := r.upperBound name 0 r.index.size
  match if place = 0 then none else r.index[place - 1]? with
  | none => (place, none)
  | some node => (place, if nameLess (r.nameOf node) name then none else some node)

def lookup? (r : Registry) (name : String) : Option Nat := (r.search name).2

def define (r : Registry) (name : String) (feature : Int) (pos : Position) :
    Except Failure (Nat × Registry) :=
  match r.search name with
  | (_, some node) =>
    let place := ((r.get? node).map (·.pos)).getD {}
    .error (.compile .duplicateIdentifier pos (name ++ " is already defined at " ++ place.text))
  | (place, none) =>
    let (node, graph) := r.graph.addNode { name, feature, pos }
    .ok (node, { r with graph, index := r.index.insertIdxIfInBounds place node })

def modify (r : Registry) (node : Nat) (f : Definition → Definition) : Registry :=
  { r with graph := { r.graph with data := r.graph.data.modify node f } }

def notDefined (name : String) (pos : Position) : Failure :=
  .compile .unknownReference pos (name ++ " is not defined")

def find (r : Registry) (name : String) (pos : Position) : Except Failure (Nat × Definition) :=
  match r.lookup? name with
  | none => .error (notDefined name pos)
  | some node => match r.get? node with
    | none => .error (notDefined name pos)
    | some d => .ok (node, d)

/-- Adds a reference to the record with the given name. `source` is the definition that refers to it,
if the record that does has a name. -/
def addRef (r : Registry) (source : Option Nat) (name : String) (feature : Int) (pos : Position) :
    Except Failure (Nat × Registry) := do
  let (node, d) ← r.find name pos
  if d.feature ≠ feature then
    throw (.compile .typeMismatch pos
      (name ++ " is defined for feature 0x" ++ Text.hex 2 d.feature ++
        " and cannot be used for feature 0x" ++ Text.hex 2 feature))
  let r := r.modify node fun d =>
    { d with refCount := d.refCount + 1, totalRefs := d.totalRefs + 1 }
  match source with
  | none => return (node, r)
  | some source => return (node, { r with graph := r.graph.insertEdge source node })

def newIdPool (feature : Int) : Pool :=
  Pool.ofRange ("record ids of feature 0x" ++ Text.hex 2 feature) 0x00 0xFF

def idPool (r : Registry) (feature : Int) : Pool :=
  (r.idPools.lookup feature).getD (newIdPool feature)

def putPool (feature : Int) (pool : Pool) : List (Int × Pool) → List (Int × Pool)
  | [] => [(feature, pool)]
  | (f, p) :: rest =>
    if feature < f then (feature, pool) :: (f, p) :: rest
    else if feature = f then (feature, pool) :: rest
    else (f, p) :: putPool feature pool rest

def setIdPool (r : Registry) (feature : Int) (pool : Pool) : Registry :=
  { r with idPools := putPool feature pool r.idPools }

/-- Gives the id of a definition back to its pool, unless that has been done. -/
def release (r : Registry) (node : Nat) (d : Definition) : Except Failure Registry :=
  if d.released then .ok r
  else
    let r := r.modify node fun d => { d with released := true }
    match (r.idPool d.feature).release d.id with
    | .ok pool => .ok (r.setIdPool d.feature pool)
    | .error f => .error (.fault f)

/-- Takes a reference back that `addRef` added. The id of the record is free again after the last
one. -/
def removeRef (r : Registry) (node : Nat) (d : Definition) : Except Failure Registry :=
  if d.refCount = 0 then .error (.fault (.negativeRefCount d.name))
  else if !d.isBound then .error (.fault (.consumedBeforeDefinition d.name))
  else
    let d := { d with refCount := d.refCount - 1 }
    let r := r.modify node fun _ => d
    if d.refCount = 0 then r.release node d else .ok r

/-- The id of the record that a reference names. The reference is used up. -/
def bindRef (r : Registry) (name : String) (pos : Position) : Except Failure (Int × Registry) := do
  let (node, d) ← r.find name pos
  let r ← r.removeRef node d
  return (d.id, r)

/-- Gives an id to a definition. It is free again at once if nothing refers to the record. -/
def bind (r : Registry) (node : Nat) (pos : Position) : Except Failure (Int × Registry) :=
  match r.get? node with
  | none => .error (.fault (.unknownNode node))
  | some d =>
    if d.isBound then .error (.fault (.boundTwice d.name))
    else do
      let (id, pool) ← (r.idPool d.feature).popGlobal pos
      let d := { d with id }
      let r := (r.setIdPool d.feature pool).modify node fun _ => d
      if d.refCount = 0 then return (id, ← r.release node d) else return (id, r)

def definitions (r : Registry) : List Definition :=
  r.index.toList.filterMap r.get?

def definitionsAt (r : Registry) (nodes : List Nat) : List Definition := nodes.filterMap r.get?

/-- The definitions that references, taken in either direction, lead to from a node. -/
def connected (r : Registry) (node : Nat) : List Definition := r.definitionsAt (r.graph.connected node)

def references (r : Registry) (node : Nat) : List Definition :=
  r.definitionsAt (r.graph.successors node)

/-- The definitions in an order in which each comes before those it refers to. -/
def dependencyOrder (r : Registry) : Except Failure (List Definition) :=
  match r.graph.order? with
  | some order => .ok (r.definitionsAt order)
  | none => .error (.error .cycle)

/-- Fails if definitions refer to each other in a cycle, and names the first one. -/
def checkCycles (r : Registry) : Except Failure Unit :=
  if r.graph.order?.isSome then .ok ()
  else match (r.graph.cycles.head?.getD []).filterMap r.get? with
    | [] => .error (.error .cycle)
    | first :: rest =>
      let names := (first :: rest ++ [first]).map (·.name)
      .error (.compile .unsupportedOperator first.pos
        ("cyclic references between records are not supported: " ++ " -> ".intercalate names))

end Registry

end Grf
