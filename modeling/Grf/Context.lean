import Grf.Log
import Grf.Registry
import Grf.SpriteRegistry
import Grf.StringTable

/-! # The state of a compilation

Lowering a declaration takes temporary parameters, labels and names from the state of the compilation,
and leaves its mark there: definitions, references, strings that have been defined. `Lowering` is the
computation over this state. A failure keeps the state as it was when it occurred, so that the frames
of the pools can be closed on every path.
-/

namespace Grf

structure Context where
  /-- The longest run of records that is skipped by its length instead of a label. -/
  maxInlineSkip : Nat
  tempParams : Pool := Pool.ofRange "temporary parameters" 0x40 0x7F
  shortLabels : Pool := Pool.ofRange "jump labels" 0x10 0x7F
  longLabels : Pool := Pool.ofRange "loop labels" 0x80 0xFF
  registry : Registry := {}
  strings : Option StringTable := none
  sprites : Option SpriteRegistry := none
  /-- How many conditionals and loops are open. -/
  depth : Nat := 0
  /-- The strings whose wordings have been defined, by feature and id. -/
  definedStrings : List (Int × Int) := []
  /-- The names of the sets of the last sprite table of each feature, with their numbers. -/
  spriteSets : List (Int × List (String × Nat)) := []
  /-- How many names have been generated. -/
  generated : Nat := 0
  /-- The scratch registers that are taken for each decision table, by its definition. -/
  scratch : List (Nat × List Nat) := []
  /-- The log, the last entry first. -/
  log : List LogEntry := []
deriving Repr, Inhabited

abbrev Lowering := EStateM Failure Context

namespace Context

/-- The number of records skipped without a label if nothing else is asked for. -/
def defaultInlineSkip : Nat := 15

/-- The smallest label. A number of records to skip has to be smaller, or it would be taken for a
label. -/
def firstShortLabel : Nat := 0x10

def firstScratch : Nat := 0x80

def scratchCount : Nat := 128

/-- The inline limit for a wish: the default for none, and never as large as a label. -/
def inlineLimit (wish : Int) : Nat :=
  min (if wish ≤ 0 then defaultInlineSkip else wish.toNat) (firstShortLabel - 1)

def create (maxInlineSkip : Int) (strings : Option StringTable) (sprites : Option SpriteRegistry) :
    Context :=
  { maxInlineSkip := inlineLimit maxInlineSkip, strings, sprites }

def inConditional (c : Context) : Bool := 0 < c.depth

def pools (c : Context) : List Pool :=
  [c.tempParams, c.shortLabels, c.longLabels] ++ c.registry.idPools.map (·.2)

def takenScratch (c : Context) (node : Nat) : List Nat := (c.scratch.lookup node).getD []

/-- The scratch registers that a decision table can still use, in increasing order. -/
def availableScratch (c : Context) (node : Nat) : List Nat :=
  let taken := c.takenScratch node
  (List.range' firstScratch scratchCount).filter fun r => !taken.contains r

def reserveScratch (c : Context) (register node : Nat) : Context :=
  { c with scratch := (node, register :: c.takenScratch node) :: c.scratch.filter (·.1 != node) }

end Context

namespace Lowering

variable {α : Type}

def lift : Except Failure α → Lowering α
  | .ok a => pure a
  | .error e => throw e

def fail (kind : ErrorKind) (pos : Position) (message : String) : Lowering α :=
  throw (.compile kind pos message)

def failIf (condition : Bool) (kind : ErrorKind) (pos : Position) (message : String) : Lowering Unit :=
  if condition then fail kind pos message else pure ()

def log (level : LogLevel) (message : String) (fields : List (String × LogValue)) : Lowering Unit :=
  modify fun c => { c with log := { level, message, fields } :: c.log }

def popTemp (pos : Position) : Lowering Int := do
  let (id, tempParams) ← lift ((← get).tempParams.pop pos)
  modify fun c => { c with tempParams }
  return id

/-- A label for the end of a run of records, until the outermost conditional is closed. -/
def popShortLabel (pos : Position) : Lowering Int := do
  let (id, shortLabels) ← lift ((← get).shortLabels.pop pos)
  modify fun c => { c with shortLabels }
  return id

/-- A label for a loop, which no other loop of the compilation has. -/
def popLongLabel (pos : Position) : Lowering Int := do
  let (id, longLabels) ← lift ((← get).longLabels.popUnique pos)
  modify fun c => { c with longLabels }
  return id

/-- Runs `body` after `enter` and before `exit`, which is done on every path. -/
def bracket (enter : Context → Context) (exit : Context → Except Fault Context)
    (body : Lowering α) : Lowering α := fun c =>
  match body (enter c) with
  | .ok a c => match exit c with
    | .ok c => .ok a c
    | .error f => .error (.fault f) c
  | .error e c => match exit c with
    | .ok c => .error e c
    | .error f => .error (.fault f) c

def saveTemps (c : Context) : Context := { c with tempParams := c.tempParams.save }

def restoreTemps (c : Context) : Except Fault Context :=
  return { c with tempParams := ← c.tempParams.restore }

def withTemps (body : Lowering α) : Lowering α := bracket saveTemps restoreTemps body

def saveShortLabels (c : Context) : Context := { c with shortLabels := c.shortLabels.save }

def restoreShortLabels (c : Context) : Except Fault Context :=
  return { c with shortLabels := ← c.shortLabels.restore }

def withShortLabels (body : Lowering α) : Lowering α :=
  bracket saveShortLabels restoreShortLabels body

def generateName (base : String) : Lowering String := do
  modify fun c => { c with generated := c.generated + 1 }
  return base ++ "@" ++ toString (← get).generated

def define (name : String) (feature : Int) (pos : Position) : Lowering Nat := do
  let (node, registry) ← lift ((← get).registry.define name feature pos)
  modify fun c => { c with registry }
  return node

def addRef (source : Option Nat) (name : String) (feature : Int) (pos : Position) :
    Lowering Unit := do
  let (_, registry) ← lift ((← get).registry.addRef source name feature pos)
  modify fun c => { c with registry }

end Lowering

end Grf
