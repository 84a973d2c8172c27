import Grf.Context
import Grf.Record.Basic

/-! # Skipping records

Two actions skip records, and each can skip some kinds only. Records that are not needed without
others may also be left where they are. A list of records is skipped run by run, where a run is the
longest one that can be skipped in one way.
-/

namespace Grf

/-- The ways in which records can be left out: by either action, or by leaving them alone. -/
structure SkipWays where
  action7 : Bool
  action9 : Bool
  none : Bool
deriving DecidableEq, Repr, Inhabited

namespace SkipWays

def ofKind (kind : Kind) : SkipWays :=
  let c := kind.capabilities
  ⟨c.byAction7, c.byAction9, !c.needsSkip⟩

def inter (a b : SkipWays) : SkipWays :=
  ⟨a.action7 && b.action7, a.action9 && b.action9, a.none && b.none⟩

def isEmpty (w : SkipWays) : Bool := !w.action7 && !w.action9 && !w.none

end SkipWays

structure SkipRun where
  ways : SkipWays
  records : List Record

namespace SkipRun

def single (r : Record) : SkipRun := ⟨.ofKind r.kind, [r]⟩

/-- The run with one more record, none if the two have no way in common. -/
def extend? (run : SkipRun) (r : Record) : Option SkipRun :=
  let ways := run.ways.inter (.ofKind r.kind)
  if ways.isEmpty then none else some ⟨ways, run.records ++ [r]⟩

/-- The longest runs from the start on, the first of which continues `run`. -/
def splitFrom (run : SkipRun) : List Record → List SkipRun
  | [] => [run]
  | r :: rest =>
    match run.extend? r with
    | some longer => splitFrom longer rest
    | none => run :: splitFrom (single r) rest

def split : List Record → List SkipRun
  | [] => []
  | r :: rest => splitFrom (single r) rest

end SkipRun

namespace Lowering

/-- A run after the skip that leaves it out when `condition` is true. A run that is too long for a
count is skipped to a label after it. -/
def lowerSkipRun (run : SkipRun) (condition : SkipCondition) (pos : Position) :
    Lowering (List Record) := do
  if run.ways.none then return run.records
  let action ←
    if run.ways.action7 then pure SkipAction.action7
    else if run.ways.action9 then pure SkipAction.action9
    else throw (.fault (.cannotBeSkipped ((run.records.map (·.kind.name)).headD "")))
  let skip (target : Int) : Record := ⟨pos, .skip action condition target⟩
  let length := run.records.length
  if length ≤ (← get).maxInlineSkip then return skip length :: run.records
  let label ← popShortLabel pos
  return skip label :: run.records ++ [.ofLabel label pos]

def skipRuns (records : List Record) (condition : SkipCondition) (pos : Position) :
    Lowering (List Record) := do
  let runs ← (SkipRun.split records).mapM fun run => lowerSkipRun run condition pos
  return runs.flatten

end Lowering

end Grf
