import Grf.Document.Node
import Grf.Document.Yaml.Tree

/-! # Declarations in YAML

A YAML tree as a document. Only plain data is allowed: no floating-point numbers, no anchors and
aliases, no tags.
-/

namespace Grf.Yaml

def unsupported {α : Type} (pos : Position) (kind : String) : Except Failure α :=
  invalid pos ("unsupported YAML node: " ++ kind)

def Scalar.toNode (pos : Position) : Scalar → Except Failure Node
  | null => .ok (.null pos)
  | bool value => .ok (.bool value pos)
  | int value =>
    if Text.maxInt64 < value then invalid pos ("integer " ++ Text.decimal value ++ " is too large")
    else .ok (.int value pos)
  | float _ => unsupported pos "Float"
  | infinity _ => unsupported pos "Infinity"
  | nan _ => unsupported pos "Nan"
  | string value => .ok (.string value pos)
  | merge => unsupported pos "MergeKey"

mutual

/-- A tree as a document node. The line of `pos` is that of the node above. -/
def Tree.toNode (pos : Position) : Tree → Except Failure Node
  | .scalar value line => value.toNode { pos with line }
  | .mapping entries line => do
    let pos := { pos with line }
    return .mapping (← entryNodes pos [] entries) pos
  | .sequence items line => do
    let pos := { pos with line }
    return .sequence (← itemNodes pos 0 items) pos
  | .anchor _ _ line => unsupported { pos with line } "Anchor"
  | .aliasOf _ line => unsupported { pos with line } "Alias"
  | .tag _ line => unsupported { pos with line } "Tag"

/-- The entries of a mapping as nodes. The keys in `seen` have occurred. -/
def entryNodes (pos : Position) (seen : List String) :
    List (Scalar × Nat × Tree) → Except Failure (List (String × Node))
  | [] => .ok []
  | (name, line, value) :: rest => do
    let key := name.keyText
    let pos' := { pos with line }
    if seen.contains key then invalid pos' ("duplicate key " ++ Text.quote key)
    let child ← value.toNode (pos'.sub key)
    return (key, child) :: (← entryNodes pos (key :: seen) rest)

def itemNodes (pos : Position) (i : Nat) : List Tree → Except Failure (List Node)
  | [] => .ok []
  | item :: rest => return (← item.toNode (pos.item i)) :: (← itemNodes pos (i + 1) rest)

end

def load (file text : String) : Except Failure Node :=
  match documents text with
  | none => invalid { file } "invalid YAML"
  | some [some tree] => tree.toNode { file, line := 1 }
  | some [none] => .error (.fault .missingContent)
  | some many =>
    invalid { file }
      ("a declaration file must contain exactly one YAML document, not " ++ toString many.length)

end Grf.Yaml
