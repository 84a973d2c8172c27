import Grf.Document.Yaml.Tree
import Grf.Text.Decimal
import Grf.Text.Shortest
import Grf.Text.Utf8

/-! # YAML documents with known fields

Settings and language files are mappings whose fields have known types. Unlike in a declaration file,
a scalar is taken for the type of its field where that makes sense: a number is a text as well, and a
text may be a number. An alias stands for the node with its anchor.

A text without content has no fields, and of several documents the first that is not null counts.
-/

namespace Grf.Yaml

/-- A fraction rounded to a floating-point number, without its part behind the point. -/
def wholePart (num den : Nat) : Nat :=
  let (m, q) := Text.nearestFloat num den
  let (a, b) := Text.floatFraction m q
  a / b

/-- A whole number in the range of 64 bits with a sign. What is out of it becomes the smallest
number. -/
def clampWhole (negative : Bool) (n : Nat) : Int :=
  let v : Int := if negative then -n else n
  (Text.inInt64? v).getD Text.minInt64

/-- A scalar as an integer. A floating-point number loses what is behind its point, and a text has to
be a number that is not negative. -/
def Scalar.toInt? : Scalar → Option Int
  | int value => Text.inInt64? value
  | float text => do
    let (negative, num, den) ← Text.readFraction? (text.toList.filter (· != '_'))
    let n := if num = 0 then 0 else wholePart num den
    if !negative && 0x8000000000000000 < n then none else some (clampWhole negative n)
  | infinity text => if text.startsWith "-" then some Text.minInt64 else none
  | string value => do
    let (negative, num, den) ← Text.readFraction? value.toList
    if num = 0 then some 0
    else if negative || 0x10000000000000000 < wholePart num den then none
    else some (clampWhole false (wholePart num den))
  | null | bool _ | nan _ | merge => none

def Scalar.toText : Scalar → String
  | null => ""
  | float text =>
    match Text.readFraction? (text.toList.filter (· != '_')) with
    | some (negative, num, den) =>
      let shown := if num = 0 then "0" else Text.positiveFloatText num den
      if negative then "-" ++ shown else if shown == "Inf" then "+Inf" else shown
    | none => text
  | infinity text => if text.startsWith "-" then "-Inf" else "+Inf"
  | nan _ => "NaN"
  | other => other.keyText

/-- A scalar as a name. A number stands for the character with this code. -/
def Scalar.toName? : Scalar → Option String
  | null => some ""
  | string value => some value
  | int value =>
    let known := 0 ≤ value && value.toNat.isValidChar
    some (String.singleton (if known then Char.ofNat value.toNat else Text.replacement))
  | merge => some "<<"
  | bool _ | float _ | infinity _ | nan _ => none

mutual

/-- The anchors in a tree with their nodes, in the order of the document. -/
def Tree.anchors : Tree → List (String × Tree)
  | .scalar .. | .aliasOf .. => []
  | .mapping entries _ => entryAnchors entries
  | .sequence items _ => itemAnchors items
  | .anchor name value _ => (name, value) :: value.anchors
  | .tag value _ => value.anchors

def entryAnchors : List (Scalar × Nat × Tree) → List (String × Tree)
  | [] => []
  | (_, _, value) :: rest => value.anchors ++ entryAnchors rest

def itemAnchors : List Tree → List (String × Tree)
  | [] => []
  | item :: rest => item.anchors ++ itemAnchors rest

end

/-- The node that a tree stands for, without anchors and aliases in front of it. There is none if an
alias has no anchor. Each of the `fuel` steps takes one of them away. -/
def Tree.target? (anchors : List (String × Tree)) : Nat → Tree → Option Tree
  | 0, _ => none
  | fuel + 1, tree =>
    match tree with
    | .anchor _ value _ => value.target? anchors fuel
    | .aliasOf name _ => do (← anchors.reverse.lookup name).target? anchors fuel
    | other => some other

/-- The fields of a document. Of equal ones the last counts. -/
structure Fields where
  entries : List (String × Tree) := []
  anchors : List (String × Tree) := []
deriving Repr, Inhabited

def Tree.isNull : Tree → Bool
  | .scalar .null _ => true
  | _ => false

namespace Fields

def target? (f : Fields) (tree : Tree) : Option Tree :=
  tree.target? f.anchors (2 * f.anchors.length + 2)

def get? (f : Fields) (key : String) : Option Tree := f.entries.reverse.lookup key

def scalar? (f : Fields) (tree : Tree) : Option Scalar := do
  match ← f.target? tree with
  | .scalar value _ => some value
  | .tag (.scalar value _) _ => some value
  | _ => none

/-- A field that is an integer, `default` if it is missing and zero if it is null. There is none if
the field is something else. -/
def int? (f : Fields) (key : String) (default : Int) : Option Int :=
  match f.get? key with
  | none => some default
  | some tree => do
    match ← f.scalar? tree with
    | .null => some 0
    | value => value.toInt?

def isMissing (f : Fields) (key : String) : Bool :=
  match f.get? key with
  | none => true
  | some tree => tree.isNull

def text? (f : Fields) (key default : String) : Option String :=
  match f.get? key with
  | none => some default
  | some tree => (f.scalar? tree).map Scalar.toText

/-- A field that is a mapping from names to texts, empty if it is missing. Of equal names the last
counts. -/
def texts? (f : Fields) (key : String) : Option (List (String × String)) :=
  match f.get? key with
  | none => some []
  | some tree => do
    match ← f.target? tree with
    | .scalar .null _ => some []
    | .mapping entries _ =>
      let texts ← entries.mapM fun (name, _, value) =>
        return (← name.toName?, (← f.scalar? value).toText)
      return texts.foldl (fun kept entry => kept.filter (·.1 != entry.1) ++ [entry]) []
    | _ => none

/-- The fields of a text. There are none if it is not YAML, or not a mapping with names. -/
def read? (text : String) : Option Fields := do
  let trees := (← documents text).filterMap id
  let anchors := itemAnchors trees
  match trees.find? (!·.isNull) with
  | none => return {}
  | some tree =>
    match ← Tree.target? anchors (2 * anchors.length + 2) tree with
    | .mapping entries _ =>
      let named ← entries.mapM fun (key, _, value) =>
        match key with
        | .string name => some (name, value)
        | _ => none
      return { entries := named, anchors }
    | _ => none

end Fields

end Grf.Yaml
