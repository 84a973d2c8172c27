import Grf.Compilation
import Grf.Document.JsonText

/-! # Statistics of a build

What a build has made, for people and for other programs. An output that comes from the build cache
has no statistics of its compilation.
-/

namespace Grf

structure Statistics where
  compilation : String := ""
  source : String := ""
  format : String := ""
  cached : Bool := false
  outputSize : Nat := 0
  records : Nat := 0
  /-- The number of records of each kind that occurs, sorted by the names of the kinds. -/
  byKind : List (String × Nat) := []
  named : List String := []
  strings : Nat := 0
  sprites : Nat := 0
  pools : List Pool := []
deriving Repr, Inhabited

namespace Statistics

def count (name : String) : List (String × Nat) → List (String × Nat)
  | [] => [(name, 1)]
  | (other, n) :: rest =>
    if name == other then (other, n + 1) :: rest
    else if name < other then (name, 1) :: (other, n) :: rest
    else (other, n) :: count name rest

def ofCompilation (c : Compilation) : Statistics :=
  { compilation := c.id
    source := c.file.path
    records := c.records.length
    byKind := c.records.foldl (fun counts r => count r.kind.name counts) []
    named := Text.naturalSort (c.context.registry.definitions.map (·.name))
    strings := (c.context.strings.getD {}).names.length
    sprites := (c.context.sprites.getD {}).sprites.size
    pools := c.context.pools }

def poolJson (p : Pool) : JsonValue :=
  .object [("name", .string p.name), ("total", .natural p.total), ("peak", .natural p.peak),
    ("peakPos", .string p.peakPos.text)]

def toJson (s : Statistics) : JsonValue :=
  let present (condition : Bool) (name : String) (value : JsonValue) : List (String × JsonValue) :=
    if condition then [(name, value)] else []
  .object (present (!s.compilation.isEmpty) "compilation" (.string s.compilation)
    ++ [("source", .string s.source), ("format", .string s.format), ("cached", .bool s.cached),
      ("outputSize", .natural s.outputSize), ("records", .natural s.records)]
    ++ present (!s.byKind.isEmpty) "recordsByKind"
      (.object (s.byKind.map fun (name, n) => (name, .natural n)))
    ++ present (!s.named.isEmpty) "namedRecords" (.array (s.named.map .string))
    ++ [("strings", .natural s.strings), ("sprites", .natural s.sprites)]
    ++ present (!s.pools.isEmpty) "pools" (.array (s.pools.map poolJson)))

end Statistics

end Grf
