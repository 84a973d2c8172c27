import Grf.Lowering.Condition
import Grf.Lowering.Skip

/-! # Conditionals and loops

The branches of a conditional are tried one after the other. A parameter tells whether a branch has
been taken yet, the branches after it are then skipped. A loop is a label, the test that leaves the
loop, the body, and a jump back to the label.
-/

namespace Grf.Lowering

/-- A branch of a conditional. The last one may have no condition. -/
structure Branch where
  cond : Option Expr
  body : Lowering (List Record)
  pos : Position

/-- A branch that can be taken, and whether it always is when it is reached. -/
structure KeptBranch where
  branch : Branch
  always : Bool

/-- The branches that can be taken. One that always is ends the list. -/
def keptBranches : List Branch → List KeptBranch
  | [] => []
  | b :: rest =>
    match b.cond with
    | none => [⟨b, true⟩]
    | some cond =>
      match constantCondition? cond with
      | some true => [⟨b, true⟩]
      | some false => keptBranches rest
      | none => ⟨b, false⟩ :: keptBranches rest

/-- Opens the frames of a conditional. The labels are shared by all conditionals inside the outermost
one. -/
def enterConditional (c : Context) : Context :=
  let c := if c.inConditional then c
    else { c with shortLabels := c.shortLabels.save, longLabels := c.longLabels.save }
  { c with tempParams := c.tempParams.save, depth := c.depth + 1 }

def exitConditional (c : Context) : Except Fault Context := do
  let c := { c with depth := c.depth - 1 }
  let c := { c with tempParams := ← c.tempParams.restore }
  if c.inConditional then return c
  return { c with longLabels := ← c.longLabels.restore, shortLabels := ← c.shortLabels.restore }

/-- The records of a branch: the computation of its condition, and `first` and the body, skipped if
the condition is false. -/
def lowerBranch (b : KeptBranch) (first : List Record) : Lowering (List Record) := do
  match b.branch.cond, b.always with
  | some cond, false =>
    let (before, test) ← lowerCondition cond b.branch.pos
    let body ← b.branch.body
    return before ++ (← skipRuns (first ++ body) test b.branch.pos)
  | _, _ => return first ++ (← b.branch.body)

/-- The records of the branches after the first one, each skipped if one before has been taken.
`untaken` is the parameter that the branch taken sets to zero. -/
def lowerOthers (untaken : Int) : List KeptBranch → Lowering (List Record)
  | [] => return []
  | b :: rest => do
    let pos := b.branch.pos
    let first := if rest.isEmpty then [] else [Record.constantAssignment untaken 0 pos]
    let records ← lowerBranch b first
    let records ← skipRuns records
      { param := untaken, size := 4, cond := SkipCondition.equal, value := 0 } pos
    return records ++ (← lowerOthers untaken rest)

def lowerIf (branches : List Branch) (pos : Position) : Lowering (List Record) :=
  bracket enterConditional exitConditional do
    match keptBranches branches with
    | [] => return []
    | [b] => lowerBranch b []
    | b :: rest =>
      let untaken ← popTemp pos
      let records ← lowerBranch b [.constantAssignment untaken 0 b.branch.pos]
      let others ← lowerOthers untaken rest
      return .constantAssignment untaken 0xFFFFFFFF pos :: records ++ others

def lowerWhile (cond : Expr) (body : Lowering (List Record)) (pos : Position) :
    Lowering (List Record) :=
  bracket enterConditional exitConditional do
    match constantCondition? cond with
    | some false => return []
    | some true =>
      let label ← popLongLabel pos
      return .ofLabel label pos :: (← body) ++ [.jumpTo label pos]
    | none =>
      let label ← popLongLabel pos
      let (before, test) ← lowerCondition cond pos
      let loop := (← body) ++ [.jumpTo label pos]
      return .ofLabel label pos :: before ++ (← skipRuns loop test pos)

end Grf.Lowering
