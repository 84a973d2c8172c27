import Grf.Declaration.Basic

/-! # Records of declarations

Each declaration is lowered in its own frame of temporary parameters. A branch of a conditional is
lowered only if it can be taken.
-/

namespace Grf

namespace Lowering

def lowerDeactivate (ids : List String) (pos : Position) : Lowering (List Record) := do
  let ids ← ids.zipIdx.mapM fun (id, i) => lift (GrfId.parse id (pos.item i))
  return [← lift (deactivation ids pos)]

def framed (d : Declaration) (body : Lowering (List Record)) : Lowering (List Record) :=
  withTemps do
    log .debug "lowering" [("declaration", .text d.kind), ("pos", .text d.pos.text)]
    body

end Lowering

namespace Declaration

mutual

def lower : Declaration → Lowering (List Record)
  | d@(properties feature id props pos) =>
    Lowering.framed d (Lowering.lowerProperties feature id props pos)
  | d@(spriteSets feature sets pos) => Lowering.framed d (Lowering.lowerSpriteSets feature sets pos)
  | d@(spriteGroup group) => Lowering.framed d (Lowering.lowerSpriteGroup group)
  | d@(switch table) => Lowering.framed d (Lowering.lowerSwitch table)
  | d@(graphics table) => Lowering.framed d (Lowering.lowerGraphics table)
  | d@(message m) => Lowering.framed d (Lowering.lowerMessage m)
  | d@(assign param value pos) => Lowering.framed d (Lowering.lowerAssignment param value pos)
  | d@(conditional branches pos) => Lowering.framed d (Lowering.lowerIf (lowerBranches branches) pos)
  | d@(loop cond body pos) => Lowering.framed d (Lowering.lowerWhile cond (lowerAll body) pos)
  | d@(deactivate ids pos) => Lowering.framed d (Lowering.lowerDeactivate ids pos)
  | d@(replace blocks pos) => Lowering.framed d (Lowering.lowerReplace blocks pos)

def lowerAll : List Declaration → Lowering (List Record)
  | [] => return []
  | d :: rest => do
    let records ← d.lower
    return records ++ (← lowerAll rest)

def lowerBranches : List (IfBranch Declaration) → List Lowering.Branch
  | [] => []
  | ⟨cond, body, pos⟩ :: rest => { cond, body := lowerAll body, pos } :: lowerBranches rest

end

end Declaration

end Grf
