import Grf.EngineText

/-! # Faults

A fault is a broken promise between parts of the compiler, such as a sprite that holds another number
of bytes than announced. Unlike an error it is no judgement on the input: it ends the run.
-/

namespace Grf

inductive Fault
  /- Pools of ids. -/
  | invalidRange (pool : String) (first last : Int)
  | restoreWithoutSave (pool : String)
  | popWithoutCheckpoint (pool : String)
  | releaseNotInUse (pool : String) (id : Int)
  | releaseInFrame (pool : String) (id : Int)
  | handedOutTwice (pool : String) (id : Int)
  /- The reference graph and the registry of named records. -/
  | unknownNode (id : Int)
  | negativeRefCount (name : String)
  | consumedBeforeDefinition (name : String)
  | boundTwice (name : String)
  | unboundReferences (count : Int) (name : String)
  /- Values and records that are written. -/
  | computedParameter (text : String)
  | unresolvedString (name : String)
  | unboundReference (name : String)
  | divisorAndModulo (num : Int)
  | invalidShift (shift num : Int)
  | parameterNotLowered (num : Int) (text : String)
  | slotWrittenUnassigned
  | slotReadUnassigned
  | notWritable (text : String)
  | noEncoding (operator : String)
  | invalidValueSize (size : Int)
  | unwritableText (error : TextError)
  /- Sprites of an output. -/
  | spriteStarted
  | outsideSprite
  | noSprite
  | sizeMismatch (announced printed : Int)
  | invalidSpriteSize (size : Int)
  | closedInSprite
  | noMemory
  /- Documents. -/
  | missingContent
  /- Kinds of records. -/
  | unknownKind (number : Int)
  | cannotBeSkipped (kind : String)
deriving DecidableEq, Repr, Inhabited

namespace Fault

def message : Fault → String
  | invalidRange pool first last =>
    "invalid range [" ++ Text.decimal first ++ ", " ++ Text.decimal last ++ "] for pool " ++ pool
  | restoreWithoutSave pool => "pool " ++ pool ++ ": restore without matching save"
  | popWithoutCheckpoint pool => "pool " ++ pool ++ ": pop without an active checkpoint"
  | releaseNotInUse pool id =>
    "pool " ++ pool ++ ": release of id " ++ Text.decimal id ++ " that is not in use"
  | releaseInFrame pool id =>
    "pool " ++ pool ++ ": id " ++ Text.decimal id ++
      " belongs to a checkpoint frame and cannot be released"
  | handedOutTwice pool id =>
    "pool " ++ pool ++ ": id " ++ Text.decimal id ++ " is handed out twice"
  | unknownNode id => "node not found: " ++ Text.decimal id
  | negativeRefCount name => "reference count of " ++ name ++ " would become negative"
  | consumedBeforeDefinition name => "reference to " ++ name ++ " consumed before its definition"
  | boundTwice name => name ++ " is bound twice"
  | unboundReferences count name =>
    Text.decimal count ++ " reference(s) to " ++ name ++ " have not been bound"
  | computedParameter text =>
    "parameter reference with a computed number cannot be written: " ++ text
  | unresolvedString name => "string " ++ name ++ " is written before being resolved"
  | unboundReference name => "reference to " ++ name ++ " is written before being bound"
  | divisorAndModulo num => "variable 0x" ++ Text.hex 2 num ++ " has both a divisor and a modulo"
  | invalidShift shift num =>
    "invalid shift " ++ Text.decimal shift ++ " for variable 0x" ++ Text.hex 2 num
  | parameterNotLowered num text =>
    "parameter of variable 0x" ++ Text.hex 2 num ++ " is not lowered: " ++ text
  | slotWrittenUnassigned => "temporary slot written without register"
  | slotReadUnassigned => "temporary slot read without register"
  | notWritable text => "expression cannot be written: " ++ text
  | noEncoding operator => "unsupported operator: " ++ operator ++ " has no encoding"
  | invalidValueSize size => "invalid value size " ++ Text.decimal size
  | unwritableText error => error.message
  | spriteStarted => "a sprite is already started"
  | outsideSprite => "bytes printed outside of a sprite"
  | noSprite => "no sprite to end"
  | sizeMismatch announced printed =>
    "sprite size mismatch: announced " ++ Text.decimal announced ++ " bytes but " ++
      Text.decimal printed ++ " were printed"
  | invalidSpriteSize size => "invalid pseudo sprite size " ++ Text.decimal size
  | closedInSprite => "output closed in the middle of a sprite"
  | noMemory => "runtime error: makeslice: cap out of range"
  | missingContent => "runtime error: invalid memory address or nil pointer dereference"
  | unknownKind number => "unknown record kind " ++ Text.decimal number
  | cannotBeSkipped kind => kind ++ " cannot be skipped"

end Fault

end Grf
