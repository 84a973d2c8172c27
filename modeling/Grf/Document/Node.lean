import Grf.Error

/-! # Document nodes

A declaration file is a tree of mappings, sequences and scalars, whichever format it is written in.
Each node has its position. The entries of a mapping are in the order of the document.
-/

namespace Grf

inductive Node
  | null (pos : Position)
  | bool (value : Bool) (pos : Position)
  | int (value : Int) (pos : Position)
  | string (value : String) (pos : Position)
  | mapping (entries : List (String × Node)) (pos : Position)
  | sequence (items : List Node) (pos : Position)
deriving Repr, Inhabited

def invalid {α : Type} (pos : Position) (message : String) : Except Failure α :=
  .error (.compile .invalidDeclaration pos message)

namespace Node

def pos : Node → Position
  | null pos => pos
  | bool _ pos => pos
  | int _ pos => pos
  | string _ pos => pos
  | mapping _ pos => pos
  | sequence _ pos => pos

def kindName : Node → String
  | null _ => "null"
  | bool .. => "boolean"
  | int .. => "integer"
  | string .. => "string"
  | mapping .. => "mapping"
  | sequence .. => "sequence"

def describe : Node → String
  | string value _ => "string " ++ Text.quote value
  | int value _ => "integer " ++ Text.decimal value
  | n => n.kindName

def entries : Node → List (String × Node)
  | mapping entries _ => entries
  | _ => []

def get? (n : Node) (key : String) : Option Node := n.entries.lookup key

def has (n : Node) (key : String) : Bool := (n.get? key).isSome

theorem sizeOf_lookup_lt {key : String} {child : Node} {entries : List (String × Node)}
    (h : entries.lookup key = some child) : sizeOf child < sizeOf entries := by
  induction entries with
  | nil => simp at h
  | cons e rest ih =>
    obtain ⟨k, v⟩ := e
    rw [List.lookup_cons] at h
    split at h
    · simp only [Option.some.injEq] at h
      subst h
      simp only [List.cons.sizeOf_spec, Prod.mk.sizeOf_spec]
      omega
    · have := ih h
      simp only [List.cons.sizeOf_spec]
      omega

theorem sizeOf_get?_lt {n child : Node} {key : String} (h : n.get? key = some child) :
    sizeOf child < sizeOf n := by
  cases n with
  | mapping entries pos =>
    have : sizeOf child < sizeOf entries := sizeOf_lookup_lt h
    simp only [mapping.sizeOf_spec]
    omega
  | _ => simp [get?, entries] at h

def asItems : Node → Except Failure (List Node)
  | sequence items _ => .ok items
  | n => invalid n.pos ("sequence expected, found " ++ n.kindName)

/-- The value of an integer. A text that is an integer literal counts as well, because not every
format has hexadecimal numbers. -/
def asInt (n : Node) : Except Failure Int :=
  let found := match n with
    | int value _ => some value
    | string value _ => Text.readInteger? (String.ofList (value.toList.filter (· != '_')))
    | _ => none
  match found with
  | some value => .ok value
  | none => invalid n.pos ("integer expected, found " ++ n.describe)

def asString : Node → Except Failure String
  | string value _ => .ok value
  | n => invalid n.pos ("string expected, found " ++ n.kindName)

def asBool : Node → Except Failure Bool
  | bool value _ => .ok value
  | n => invalid n.pos ("boolean expected, found " ++ n.kindName)

def checkKeys (n : Node) (allowed : List String) : Except Failure Unit :=
  match n with
  | mapping entries _ =>
    match entries.find? fun (key, _) => !allowed.contains key with
    | some (key, child) =>
      invalid child.pos
        ("unknown field " ++ Text.quote key ++ ", expected one of: " ++ ", ".intercalate allowed)
    | none => .ok ()
  | n => invalid n.pos ("mapping expected, found " ++ n.kindName)

def missing {α : Type} (n : Node) (key : String) : Except Failure α :=
  invalid n.pos ("missing field " ++ Text.quote key)

def required (n : Node) (key : String) : Except Failure Node :=
  match n.get? key with
  | some child => .ok child
  | none => n.missing key

def intField (n : Node) (key : String) : Except Failure Int := do (← n.required key).asInt

def intFieldD (n : Node) (key : String) (default : Int) : Except Failure Int :=
  match n.get? key with
  | some child => child.asInt
  | none => .ok default

def stringField (n : Node) (key : String) : Except Failure String := do (← n.required key).asString

def stringField? (n : Node) (key : String) : Except Failure (Option String) :=
  match n.get? key with
  | some child => some <$> child.asString
  | none => .ok none

def boolField (n : Node) (key : String) : Except Failure Bool :=
  match n.get? key with
  | some child => child.asBool
  | none => .ok false

def itemsField (n : Node) (key : String) : Except Failure (List Node) := do
  (← n.required key).asItems

def itemsFieldD (n : Node) (key : String) : Except Failure (List Node) :=
  match n.get? key with
  | some child => child.asItems
  | none => .ok []

def stringsField (n : Node) (key : String) : Except Failure (List String) := do
  (← n.itemsFieldD key).mapM asString

def intsField (n : Node) (key : String) : Except Failure (List Int) := do
  (← n.itemsField key).mapM asInt

end Node

end Grf
