import Grf.Fault
import Grf.Position

/-! # Errors

An error is a judgement on the input, shown to the user. Most are compile errors, which have a kind,
a position and a sentence. The others come from text encoding, settings, files and caches, and any
error may be wrapped in a phrase that says what was being done.

`Failure` joins errors with the faults of `Grf.Fault`: it is what stops a computation.
-/

namespace Grf

inductive ErrorKind
  | unknownIdentifier
  | unknownReference
  | duplicateIdentifier
  | typeMismatch
  | resourceExhausted
  | noUniqueResource
  | outOfRange
  | unsupportedOperator
  | invalidRangeResult
  | invalidDeclaration
  | incompatibleCompiler
  | custom (name : String)
deriving DecidableEq, Repr, Inhabited

namespace ErrorKind

def name : ErrorKind → String
  | unknownIdentifier => "unknown identifier"
  | unknownReference => "unknown reference"
  | duplicateIdentifier => "duplicate identifier"
  | typeMismatch => "type mismatch"
  | resourceExhausted => "resource exhausted"
  | noUniqueResource => "no unique resource available"
  | outOfRange => "value out of range"
  | unsupportedOperator => "unsupported operator"
  | invalidRangeResult => "invalid range result"
  | invalidDeclaration => "invalid declaration"
  | incompatibleCompiler => "incompatible compiler"
  | custom name => name

end ErrorKind

structure CompileError where
  kind : ErrorKind
  pos : Position
  message : String
deriving DecidableEq, Repr, Inhabited

/-- A compile error as it is shown, with its position if that is known. -/
def CompileError.text (e : CompileError) : String :=
  let tail := e.kind.name ++ ": " ++ e.message
  if e.pos.isUnknown then tail else e.pos.text ++ ": " ++ tail

inductive FileProblem
  | notFound
  | isDirectory
  | notDirectory
  /-- The path is none that a file can have. -/
  | invalid
deriving DecidableEq, Repr, Inhabited

def FileProblem.text : FileProblem → String
  | notFound => "no such file or directory"
  | isDirectory => "is a directory"
  | notDirectory => "not a directory"
  | invalid => "invalid argument"

inductive Error
  | compile (error : CompileError)
  | text (error : TextError)
  | cycle
  | settings (detail : String)
  | cacheClosed
  | file (operation path : String) (problem : FileProblem)
  | plain (message : String)
  | wrapped (context : String) (cause : Error)
deriving DecidableEq, Repr, Inhabited

namespace Error

def message : Error → String
  | compile error => error.text
  | text error => error.message
  | cycle => "reference cycle"
  | settings detail => "invalid settings: " ++ detail
  | cacheClosed => "build cache is closed"
  | file operation path problem => operation ++ " " ++ path ++ ": " ++ problem.text
  | plain message => message
  | wrapped context cause => context ++ ": " ++ cause.message

def compileError? : Error → Option CompileError
  | compile error => some error
  | wrapped _ cause => cause.compileError?
  | _ => none

/-- Gives a compile error without a position the position `pos`, and drops what it was wrapped in.
Any other error stays as it is. -/
def withPos (e : Error) (pos : Position) : Error :=
  match e.compileError? with
  | some error => if error.pos.isUnknown then compile { error with pos } else e
  | none => e

/-- Joins the errors that occurred, one a line. A single error stays as it is. -/
def combine (errors : List (Option Error)) : Option Error :=
  match errors.filterMap id with
  | [] => none
  | [e] => some e
  | many =>
    let lines := String.join (many.map fun e => e.message ++ "\n")
    some (plain (lines.dropEndWhile (· == '\n')).copy)

end Error

inductive Failure
  | error (error : Error)
  | fault (fault : Fault)
deriving DecidableEq, Repr, Inhabited

namespace Failure

def message : Failure → String
  | error e => e.message
  | fault f => f.message

def compile (kind : ErrorKind) (pos : Position) (message : String) : Failure :=
  error (.compile { kind, pos, message })

end Failure

end Grf
