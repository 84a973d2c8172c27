import Grf.Error
import Grf.Output.Token

/-! # Sprite tracking

A sprite is announced with its size before its bytes are printed. The tracker counts the bytes and
faults if a sprite ends with another count, if sprites overlap, or if bytes are printed outside of
one.
-/

namespace Grf

/-- The computation of an output of type `σ`. A fault keeps what was written before it. -/
abbrev Writing (σ α : Type) := EStateM Fault σ α

def Writing.lift {σ α : Type} : Except Fault α → Writing σ α
  | .ok a => pure a
  | .error f => throw f

/-- The sprite that is open, if there is one: its announced and its printed size. -/
structure Tracker where
  current : Option (Int × Nat) := none
deriving Repr, Inhabited, DecidableEq

namespace Tracker

def start (t : Tracker) (size : Int) : Except Fault Tracker :=
  match t.current with
  | some _ => .error .spriteStarted
  | none => .ok ⟨some (size, 0)⟩

def add (t : Tracker) (n : Nat) : Except Fault Tracker :=
  match t.current with
  | some (announced, printed) => .ok ⟨some (announced, printed + n)⟩
  | none => .error .outsideSprite

def finish (t : Tracker) : Except Fault Tracker :=
  match t.current with
  | some (announced, printed) =>
    if announced = printed then .ok ⟨none⟩ else .error (.sizeMismatch announced printed)
  | none => .error .noSprite

/-- Counts the bytes of a token. The end of a line may stand outside of sprites. -/
def addToken (t : Tracker) (token : Token) : Except Fault Tracker :=
  match token with
  | .lineEnd _ => .ok t
  | _ => t.add token.bytes.length

end Tracker

class Output (σ : Type) where
  /-- Opens a pseudo sprite of exactly the given number of bytes. -/
  start : Int → Writing σ Unit
  print : Token → Writing σ Unit
  finish : Writing σ Unit
  /-- Writes a whole real sprite, which refers to a sprite of the graphics section. -/
  reference : Int → Writing σ Unit
  close : Writing σ (Option Error)

def Output.pseudo {σ : Type} [Output σ] (size : Int) (tokens : Except Fault (List Token)) :
    Writing σ Unit := do
  Output.start size
  let tokens ← Writing.lift tokens
  tokens.forM Output.print
  Output.finish

end Grf
