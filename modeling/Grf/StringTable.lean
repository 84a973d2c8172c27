import Grf.Pool
import Grf.Text.Natural

/-! # The string table

A string has a name and a wording, its text, in one or more languages. It gets its id when it is
resolved for the first time. Ids are given out in increasing order and never taken back.
-/

namespace Grf

structure Wording where
  lang : Int
  text : String
  pos : Position
deriving Repr, Inhabited, DecidableEq

/-- The strings in the order of their first appearance, each with its wordings by language, and
the ids given out so far. -/
structure StringTable where
  entries : List (String × List Wording) := []
  ids : List (String × Int) := []
  pool : Pool := Pool.ofRange "string ids" 0xD000 0xD3FF
deriving Repr, Inhabited

/-- A computation that keeps what it has added when it fails. -/
abbrev Loading := EStateM Failure StringTable

namespace StringTable

def defaultLang : Int := 0x7F

def maxLang : Int := 0x7F

def wordings? (t : StringTable) (name : String) : Option (List Wording) :=
  t.entries.lookup name

def insertByLang (new : Wording) : List Wording → List Wording
  | [] => [new]
  | t :: rest => if new.lang < t.lang then new :: t :: rest else t :: insertByLang new rest

/-- The table with an entry for a name, an empty one at the end if there is none. -/
def withEntry (t : StringTable) (name : String) : StringTable :=
  if (t.wordings? name).isSome then t else { t with entries := t.entries ++ [(name, [])] }

def insertWording (t : StringTable) (name : String) (new : Wording) : StringTable :=
  { t with
    entries := t.entries.map fun e => if e.1 = name then (e.1, insertByLang new e.2) else e }

/-- Adds the wording of a string. The language has to exist, the text has to be one that can be
encoded, and there can be only one for each language. -/
def addText (lang : Int) (name text : String) (pos : Position) : Loading Unit := do
  if lang < 0 || maxLang < lang then
    throw (.compile .outOfRange pos
      ("language id 0x" ++ Text.hex 0 lang ++ " is out of range [0x00, 0x7F]"))
  match EngineText.size (Text.bytesOf text) true false with
  | .error e => throw (.compile .typeMismatch pos ("invalid text for " ++ name ++ ": " ++ e.message))
  | .ok _ =>
    modify (·.withEntry name)
    match (((← get).wordings? name).getD []).find? (·.lang == lang) with
    | some previous =>
      throw (.compile .duplicateIdentifier pos
        (name ++ " is already defined for language 0x" ++ Text.hex 2 lang ++ " at " ++
          previous.pos.text))
    | none => modify (·.insertWording name { lang, text, pos })

def add (t : StringTable) (lang : Int) (name text : String) (pos : Position) :
    Except Failure StringTable :=
  match addText lang name text pos t with
  | .ok _ t => .ok t
  | .error e _ => .error e

def notDefined (name : String) (pos : Position) : Failure :=
  .compile .unknownIdentifier pos ("string " ++ name ++ " is not defined")

def resolve (t : StringTable) (name : String) (pos : Position) :
    Except Failure (Int × StringTable) :=
  if (t.wordings? name).isNone then .error (notDefined name pos)
  else match t.ids.lookup name with
    | some id => .ok (id, t)
    | none => do
      let (id, pool) ← t.pool.popGlobal pos
      return (id, { t with pool, ids := (name, id) :: t.ids })

def wordings (t : StringTable) (name : String) (pos : Position) :
    Except Failure (List Wording) :=
  match t.wordings? name with
  | some ts => .ok ts
  | none => .error (notDefined name pos)

def names (t : StringTable) : List String := Text.naturalSort (t.entries.map (·.1))

/-- The names of the strings that have never been resolved, in natural order. -/
def unused (t : StringTable) : List String := t.names.filter fun name => (t.ids.lookup name).isNone

end StringTable

end Grf
