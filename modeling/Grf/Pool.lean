import Grf.Error

/-! # Pools of ids

A pool hands out the ids of a small space. The free ids form a stack, so the id freed last is handed
out first. Pops between a `save` and its `restore` belong to a frame, and restoring gives the ids of
the frame back in such an order that the same pops hand out the same ids again. An id popped globally
belongs to no frame: it stays out until it is released.

An operation that reports an error leaves the pool as it was.
-/

namespace Grf

/-- A pool of ids. The top of the free stack is the head of `free`, the current frame is the head of
`frames` and lists its ids in the order of the pops. -/
structure Pool where
  name : String
  total : Nat
  free : List Int
  frames : List (List Int) := []
  /-- The ids handed out at least once. -/
  issued : List Int := []
  inUse : List Int := []
  /-- The largest number of ids in use at one time. -/
  peak : Nat := 0
  /-- Where the peak was reached first. -/
  peakPos : Position := {}
deriving Repr, Inhabited

namespace Pool

def ofIds (name : String) (ids : List Int) : Pool :=
  { name, total := ids.length, free := ids.reverse }

def idsFrom (first : Int) (count : Nat) : List Int :=
  (List.range count).map fun (i : Nat) => first + i

def ofRange (name : String) (first last : Int) : Pool :=
  let ids := idsFrom first (last - first + 1).toNat
  { name, total := ids.length, free := ids }

/-- `ofRange` for bounds that may be in the wrong order. -/
def ofRange? (name : String) (first last : Int) : Except Fault Pool :=
  if last < first then .error (.invalidRange name first last) else .ok (ofRange name first last)

def used (p : Pool) : Nat := p.total - p.free.length

def depth (p : Pool) : Nat := p.frames.length

def freeIds (p : Pool) : List Int := p.free.reverse

def isFree (p : Pool) (id : Int) : Bool := p.free.contains id

def save (p : Pool) : Pool := { p with frames := [] :: p.frames }

/-- Closes the current frame. Its ids return to the free stack, the one popped first on top. -/
def restore (p : Pool) : Except Fault Pool :=
  match p.frames with
  | [] => .error (.restoreWithoutSave p.name)
  | frame :: frames =>
    .ok { p with
      frames
      free := frame ++ p.free
      inUse := p.inUse.filter fun id => !frame.contains id }

/-- Marks an id that has just left the free stack as used, and keeps the peak up to date. -/
def take (p : Pool) (id : Int) (pos : Position) : Except Fault Pool :=
  if p.inUse.contains id then .error (.handedOutTwice p.name id)
  else
    let p := { p with
      inUse := id :: p.inUse
      issued := if p.issued.contains id then p.issued else id :: p.issued }
    if p.peak < p.used then .ok { p with peak := p.used, peakPos := pos } else .ok p

def record (p : Pool) (id : Int) : Pool :=
  match p.frames with
  | [] => p
  | frame :: frames => { p with frames := (frame ++ [id]) :: frames }

def exhausted (p : Pool) (pos : Position) : Failure :=
  .compile .resourceExhausted pos
    ("unable to allocate one of the " ++ toString p.total ++ " " ++ p.name)

def orFault {α : Type} : Except Fault α → Except Failure α
  | .ok a => .ok a
  | .error f => .error (.fault f)

/-- Hands out the top of the free stack for as long as the id is not released. -/
def popGlobal (p : Pool) (pos : Position) : Except Failure (Int × Pool) :=
  match p.free with
  | [] => .error (p.exhausted pos)
  | id :: free => do
    let p ← orFault ({ p with free }.take id pos)
    return (id, p)

def checkFrame (p : Pool) : Except Failure Unit :=
  if p.frames.isEmpty then .error (.fault (.popWithoutCheckpoint p.name)) else .ok ()

/-- Hands out the top of the free stack until the current frame is closed. -/
def pop (p : Pool) (pos : Position) : Except Failure (Int × Pool) := do
  p.checkFrame
  let (id, p) ← p.popGlobal pos
  return (id, p.record id)

/-- Hands out the free id nearest to the top that has never been handed out before. -/
def popUnique (p : Pool) (pos : Position) : Except Failure (Int × Pool) := do
  p.checkFrame
  match p.free.find? fun id => !p.issued.contains id with
  | none =>
    throw (.compile .noUniqueResource pos
      ("all " ++ toString p.total ++ " " ++ p.name ++ " have already been used once"))
  | some id =>
    let p ← orFault ({ p with free := p.free.erase id }.take id pos)
    return (id, p.record id)

def release (p : Pool) (id : Int) : Except Fault Pool :=
  if !p.inUse.contains id then .error (.releaseNotInUse p.name id)
  else if p.frames.any (·.contains id) then .error (.releaseInFrame p.name id)
  else .ok { p with inUse := p.inUse.filter (· != id), free := id :: p.free }

end Pool

end Grf
