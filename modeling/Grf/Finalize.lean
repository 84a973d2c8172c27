import Grf.Context
import Grf.Record.Basic

/-! # Binding ids and registers

When all records are there, the named ones get their ids in the order of output: references are bound
first, so that a record can take the id of one it refers to for the last time. Then, from the last
record to the first, the slots of decision tables get their scratch registers. A register of a table is
not used by the tables connected to it.
-/

namespace Grf

def Registry.idAt (registry : Registry) (node : Nat) : Int :=
  ((registry.get? node).map (·.id)).getD (-1)

def Record.withId (r : Record) (registry : Registry) : Record :=
  match r.body with
  | .decisionTable t => ⟨r.pos, .decisionTable { t with id := registry.idAt t.node }⟩
  | .spriteGroup g => ⟨r.pos, .spriteGroup { g with id := registry.idAt g.node }⟩
  | _ => r

namespace Lowering

def bindRef (name : String) (pos : Position) : Lowering Int := do
  let (id, registry) ← lift ((← get).registry.bindRef name pos)
  modify fun c => { c with registry }
  return id

/-- Gives an id to a definition, and notes a definition that is never used. -/
def bind (node : Nat) (pos : Position) : Lowering Int := do
  let registry := (← get).registry
  let (id, bound) ← lift (registry.bind node pos)
  modify fun c => { c with registry := bound }
  match registry.get? node with
  | some d =>
    if d.refCount = 0 then
      log .warn "record is never used" [("record", .text d.name), ("pos", .text d.pos.text)]
  | none => pure ()
  return id

def bindItem (pos : Position) : StreamItem → Lowering StreamItem
  | item@(.operand (.var v)) => do
    if v.num ≠ VarRead.procedureNum then return item
    match v.param with
    | some (.record name _) =>
      let id ← bindRef name pos
      return .operand (.var { v with param := some (.record name id) })
    | _ => return item
  | item => return item

def bindResult (pos : Position) : TableResult → Lowering TableResult
  | .ref name _ => return .ref name (← bindRef name pos)
  | result => return result

def bindRecord (r : Record) : Lowering Record := do
  match r.body with
  | .decisionTable t =>
    let stream ← t.stream.mapM (bindItem r.pos)
    let ranges ← t.ranges.mapM fun range => return { range with result := ← bindResult r.pos range.result }
    let default ← bindResult r.pos t.default
    let _ ← bind t.node r.pos
    return ⟨r.pos, .decisionTable { t with stream, ranges, default }⟩
  | .spriteGroup g =>
    let _ ← bind g.node r.pos
    return r
  | .graphicsTable t =>
    let cargo ← t.cargo.mapM fun (cargo, ref) => return (cargo, { ref with id := ← bindRef ref.name r.pos })
    let id ← bindRef t.default.name r.pos
    return ⟨r.pos, .graphicsTable { t with cargo, default := { t.default with id } }⟩
  | _ => return r

/-- A register for a table, which its connected tables do not use any more. -/
def reserveRegister (node : Nat) (name : String) (pos : Position) : Lowering Int := do
  let c ← get
  match c.availableScratch node with
  | [] =>
    fail .resourceExhausted pos
      (name ++ " needs more than the " ++ toString Context.scratchCount ++
        " scratch registers available")
  | register :: _ =>
    let nodes := node :: c.registry.graph.connected node
    set (nodes.foldl (fun c node => c.reserveScratch register node) c)
    return register

/-- Gives a register to a store that has none, and tells which spilled slot has got it. -/
def assignStore (node : Nat) (name : String) (pos : Position) :
    StreamItem → Lowering (StreamItem × Option (Nat × Int))
  | .operand (.store (.spill n)) => do
    let register ← reserveRegister node name pos
    return (.operand (.store (.register register)), some (n, register))
  | .operand (.store .unassigned) => do
    let register ← reserveRegister node name pos
    return (.operand (.store (.register register)), none)
  | item => return (item, none)

def assignLoad (registers : List (Nat × Int)) : StreamItem → StreamItem
  | .operand (.load (.spill n)) =>
    match registers.lookup n with
    | some register => .operand (.load (.register register))
    | none => .operand (.load (.spill n))
  | item => item

def assignRegisters (t : TableRecord) (pos : Position) : Lowering TableRecord := do
  let stores ← t.stream.mapM (assignStore t.node t.name pos)
  let registers := stores.filterMap (·.2)
  return { t with stream := stores.map fun (item, _) => assignLoad registers item }

def prepareRecord (r : Record) : Lowering Record := do
  match r.body with
  | .decisionTable t => return ⟨r.pos, .decisionTable (← assignRegisters t r.pos)⟩
  | _ => return r

def finalize (records : List Record) : Lowering (List Record) := do
  lift (← get).registry.checkCycles
  let bound ← records.mapM bindRecord
  match (← get).registry.definitions.find? (·.refCount ≠ 0) with
  | some d => throw (.fault (.unboundReferences d.refCount d.name))
  | none => pure ()
  let prepared ← bound.reverse.mapM prepareRecord
  let registry := (← get).registry
  return prepared.reverse.map (·.withId registry)

end Lowering

end Grf
