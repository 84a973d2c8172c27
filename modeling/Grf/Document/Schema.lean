import Grf.Document.Node

/-! # Document schemas

A schema describes the form of a document node: its type, the values it may have, the keys of a
mapping and the items of a sequence. `Schema.violation?` finds the first place where a document does
not have its form: a node is checked before its children, and a node of a wrong type is not looked
into.

Schemas may refer to named ones, which allows documents to be nested without a bound. A name stands
only for the schema of a child.
-/

namespace Grf

inductive NodeType
  | integer | string | boolean | object | array
deriving DecidableEq, Repr, Inhabited

def NodeType.name : NodeType → String
  | integer => "integer"
  | string => "string"
  | boolean => "boolean"
  | object => "object"
  | array => "array"

def NodeType.admits : NodeType → Node → Bool
  | integer, .int .. => true
  | string, .string .. => true
  | boolean, .bool .. => true
  | object, .mapping .. => true
  | array, .sequence .. => true
  | _, _ => false

def Node.typeName : Node → String
  | .null _ => "null"
  | .bool .. => "boolean"
  | .int .. => "number"
  | .string .. => "string"
  | .mapping .. => "object"
  | .sequence .. => "array"

/-- A schema, with names of type `ν` for schemas of children. -/
inductive Schema (ν : Type)
  | named (name : ν)
  | types (types : List NodeType)
  | oneOf (values : List Int)
  /-- A mapping with a number of keys, keys that have to be there, the schemas of keys, and whether
  there may be others. -/
  | object (least : Nat) (most : Option Nat) (required : List String)
      (properties : List (String × Schema ν)) (closed : Bool)
  | map (values : Schema ν)
  | array (least : Nat) (most : Option Nat) (items : Schema ν)
  | either (first second : Schema ν)
deriving Repr, Inhabited

structure Violation where
  path : List String
  message : String
deriving DecidableEq, Repr, Inhabited

namespace Schema

variable {ν : Type}

def checkType (types : List NodeType) (n : Node) : Option String :=
  if types.any (·.admits n) then none
  else some ("expected " ++ " or ".intercalate (types.map NodeType.name) ++ ", but got " ++ n.typeName)

def quotedNames (names : List String) : String :=
  ", ".intercalate (names.map fun name => "'" ++ name ++ "'")

def checkKeys (least : Nat) (most : Option Nat) (required : List String)
    (entries : List (String × Node)) : Option String :=
  let count := toString entries.length ++ " properties"
  let missing := required.filter fun key => (entries.lookup key).isNone
  if entries.length < least then
    some ("minimum " ++ toString least ++ " properties allowed, but found " ++ count)
  else if most.any (· < entries.length) then
    some ("maximum " ++ toString (most.getD 0) ++ " properties allowed, but found " ++ count)
  else if !missing.isEmpty then some ("missing properties: " ++ quotedNames missing)
  else none

def checkCount (least : Nat) (most : Option Nat) (count : Nat) : Option String :=
  let found := toString count ++ " items"
  if count < least then some ("minimum " ++ toString least ++ " items required, but found " ++ found)
  else if most.any (· < count) then
    some ("maximum " ++ toString (most.getD 0) ++ " items required, but found " ++ found)
  else none

def checkClosed (properties : List (String × Schema ν)) (entries : List (String × Node)) :
    Option String :=
  match (entries.map (·.1)).filter fun key => (properties.lookup key).isNone with
  | [] => none
  | others => some ("additionalProperties " ++ quotedNames others ++ " not allowed")

def here (message : Option String) : Option Violation := message.map (Violation.mk [])

def under (key : String) (v : Option Violation) : Option Violation :=
  v.map fun v => { v with path := key :: v.path }

def first : List (Option Violation) → Option Violation
  | [] => none
  | some v :: _ => some v
  | none :: rest => first rest

def violation? (definitions : ν → Schema ν) (schema : Schema ν) (n : Node) : Option Violation :=
  let child (schema : Schema ν) : Schema ν := match schema with
    | named name => definitions name
    | schema => schema
  match schema with
  | named _ => none
  | types ts => here (checkType ts n)
  | oneOf values =>
    match n with
    | .int v _ => if values.contains v then none else here (some (oneOfMessage values))
    | _ => here (some (oneOfMessage values))
  | object least most required properties closed =>
    match n with
    | .mapping entries _ =>
      here (checkKeys least most required entries) <|>
      first (entries.attach.map fun ⟨(key, value), _⟩ =>
        match properties.lookup key with
        | some s => under key (violation? definitions (child s) value)
        | none => none) <|>
      (if closed then here (checkClosed properties entries) else none)
    | n => here (checkType [.object] n)
  | map values =>
    match n with
    | .mapping entries _ =>
      first (entries.attach.map fun ⟨(key, value), _⟩ =>
        under key (violation? definitions (child values) value))
    | n => here (checkType [.object] n)
  | array least most items =>
    match n with
    | .sequence nodes _ =>
      here (checkCount least most nodes.length) <|>
      first (nodes.attach.zipIdx.map fun (⟨node, _⟩, i) =>
        under (toString i) (violation? definitions (child items) node))
    | n => here (checkType [.array] n)
  | either a b =>
    match violation? definitions a n, violation? definitions b n with
    | some v, some _ => some v
    | _, _ => none
termination_by (sizeOf n, sizeOf schema)
decreasing_by
  all_goals simp_wf
  all_goals first
    | (apply Prod.Lex.left
       have := List.sizeOf_lt_of_mem ‹_›
       simp_all
       omega)
    | (apply Prod.Lex.right
       omega)
where
  /-- What is said about a value that is none of the allowed ones. -/
  oneOfMessage (values : List Int) : String :=
    "value must be one of " ++ ", ".intercalate (values.map fun v => "\"" ++ Text.decimal v ++ "\"")

def isUnreserved (b : UInt8) : Bool :=
  let c := Char.ofNat b.toNat
  (b < 0x80 && c.isAlphanum) || "-_.~$&+=:@".toList.contains c

/-- A key as a part of a path. Slashes and characters other than unreserved ones are written by their
bytes in hexadecimal. -/
def pathPart (key : String) : String :=
  let bytes := Text.bytesOf key
  String.join (bytes.map fun b =>
    if isUnreserved b || b == 0x2F then String.singleton (Char.ofNat b.toNat)
    else "%" ++ Text.hexNat 2 b.toNat)

end Schema

/-- The node at a path, or the last node on the way that there is. A key that its part of the path does
not spell is not found, and an empty key does not lead anywhere. -/
def Node.locate (n : Node) : List String → Node
  | [] => n
  | key :: rest =>
    if key.isEmpty then n.locate rest
    else match n with
      | .mapping entries _ =>
        match entries.lookup (Schema.pathPart key) with
        | some child => child.locate rest
        | none => n
      | .sequence items _ =>
        match key.toNat?.bind (items[·]?) with
        | some child => child.locate rest
        | none => n
      | n => n

def Schema.check {ν : Type} (definitions : ν → Schema ν) (schema : Schema ν) (root : Node) :
    Except Failure Unit :=
  match schema.violation? definitions root with
  | none => .ok ()
  | some v => invalid (root.locate v.path).pos v.message

end Grf
