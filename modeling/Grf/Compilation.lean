import Grf.Declaration.Lower
import Grf.Finalize
import Grf.Language
import Grf.Record.Write
import Grf.Version

/-! # Compilations

A declaration file is compiled in order: its version constraint is checked, the strings and sprites are
collected, the head is made and the declarations are lowered to records, which are finalized last. The
first failure ends the compilation.

A compilation ends with remarks on what has been declared in vain and on the use of the pools.
-/

namespace Grf

structure CompileOptions where
  maxInlineSkip : Int := 0
  /-- The directory of the language files, empty if there is none. -/
  langDir : String := ""
deriving DecidableEq, Repr, Inhabited

structure Compilation where
  /-- Tells compilations apart. -/
  id : String
  file : DeclarationFile
  records : List Record
  context : Context
deriving Inhabited

namespace Compilation

def strings (options : CompileOptions) (files : FileTree) (file : DeclarationFile) :
    Except Failure StringTable :=
  let load : Loading Unit := do
    if !options.langDir.isEmpty then StringTable.loadDirectory files options.langDir options.langDir
    file.strings.forM fun s => StringTable.addText s.lang s.name s.text s.pos
  match load {} with
  | .ok _ t => .ok t
  | .error e _ => .error e

def sprites (file : DeclarationFile) : Except Failure SpriteRegistry :=
  file.sprites.foldlM (fun r s => return (← r.add s.name s.file s.pos).2) {}

def info (header : GrfHeader) : Except Failure Record := do
  let id ← GrfId.parse header.id (header.pos.sub "id")
  grfInfo id header.name header.description header.pos

def counted (pos : Position) (records : List Record) : List Record :=
  ⟨pos, .spriteCount records.length⟩ :: records

def lower (file : DeclarationFile) : Lowering (List Record) := do
  let head ← Lowering.lift (info file.header)
  let body ← Declaration.lowerAll file.declarations
  Lowering.finalize (counted file.header.pos (head :: body))

def unreferenced (d : Definition) : LogEntry :=
  { level := .warn, message := d.pos.text ++ ": " ++ d.name ++ " is never referenced"
    fields := [("record", .text d.name)] }

def unusedString (name : String) : LogEntry :=
  { level := .debug, message := "unused string", fields := [("string", .text name)] }

def unusedSprite (s : Sprite) : LogEntry :=
  { level := .warn, message := s.pos.text ++ ": sprite " ++ s.name ++ " is never used"
    fields := [("sprite", .text s.name)] }

def poolUsage (p : Pool) : LogEntry :=
  { level := .info, message := "pool usage"
    fields := [("pool", .text p.name), ("peak", .number p.peak), ("total", .number p.total),
      ("peakPos", .text p.peakPos.text)] }

def remarks (c : Context) : List LogEntry :=
  (c.registry.definitions.filter (·.totalRefs == 0)).map unreferenced
    ++ (c.strings.getD {}).unused.map unusedString
    ++ (c.sprites.getD {}).unused.map unusedSprite
    ++ (c.pools.filter (·.peak != 0)).map poolUsage

def log (c : Compilation) : List LogEntry :=
  (c.context.log.reverse ++ remarks c.context).map fun entry =>
    { entry with fields := entry.fields ++ [("src", .text c.file.path)] }

end Compilation

def compile (id : String) (options : CompileOptions) (files : FileTree) (file : DeclarationFile) :
    Except Failure Compilation := do
  Version.check file.header.requires file.header.pos
  let strings ← Compilation.strings options files file
  let sprites ← Compilation.sprites file
  match Compilation.lower file (Context.create options.maxInlineSkip (some strings) (some sprites)) with
  | .ok records context => return { id, file, records, context }
  | .error e _ => throw e

namespace Compilation

def writeTo {σ : Type} [Output σ] (output : σ) (records : List Record) : Except Failure σ :=
  match writeAll records output with
  | .ok none output => .ok output
  | .ok (some e) _ => .error (.error (.wrapped "failed to write the output" e))
  | .error f _ => .error (.fault f)

def container (c : Compilation) (limit : Option Nat) : Except Failure (List UInt8) := do
  let output ← writeTo ({ sink := { limit } } : Container) c.records
  return output.sink.received.toList

def listing (c : Compilation) (limit : Option Nat) : Except Failure (List UInt8) := do
  let output ← writeTo (Listing.create (Path.base c.file.path) limit) c.records
  return output.sink.received.toList

end Compilation

end Grf
