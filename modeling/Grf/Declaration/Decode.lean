import Grf.Declaration.Basic
import Grf.Declaration.Expression

/-! # Reading declarations

A document as a declaration file. A declaration is a mapping with one key, which is its kind.
-/

namespace Grf.Node

def toProperty (n : Node) : Except Failure Property := do
  n.checkKeys ["num", "size", "value", "string", "array"]
  let num ← n.intField "num"
  let size ← n.intField "size"
  if (["value", "string", "array"].filter n.has).length ≠ 1 then
    invalid n.pos "a property has exactly one of the fields value, string, array"
  let value ← match n.get? "value" with
    | some child => do
      match ← child.toExpr with
      | .const c => pure (.constant c)
      | e => pure (.computed e)
    | none => match ← n.stringField? "string" with
      | some name => pure (.string name)
      | none => .array <$> n.intsField "array"
  return { num, size, value, pos := n.pos }

def toSpriteSet (n : Node) : Except Failure SpriteSet := do
  n.checkKeys ["name", "sprites"]
  return { name := ← n.stringField "name", sprites := ← n.stringsField "sprites", pos := n.pos }

def toSpriteGroup (n : Node) : Except Failure SpriteGroup := do
  n.checkKeys ["name", "feature", "loaded", "loading"]
  return {
    name := ← n.stringField "name"
    feature := ← n.intField "feature"
    loaded := ← n.stringsField "loaded"
    loading := ← n.stringsField "loading"
    pos := n.pos }

/-- A result of a switch. A text that is no integer literal is the name of a record. -/
def toResult (n : Node) : Except Failure Expr :=
  match n, n.asInt with
  | .string name _, .error _ => .ok (.recordRef name)
  | n, _ => n.toExpr

/-- A range of a switch: one value, or all values from one to another. -/
def toRange (n : Node) : Except Failure SwitchRange := do
  n.checkKeys ["value", "min", "max", "result"]
  let (min, max) ← match n.get? "value", n.has "min", n.has "max" with
    | some value, false, false => do
      let v ← value.asInt
      pure (v, v)
    | none, true, true => pure (← n.intField "min", ← n.intField "max")
    | _, _, _ => invalid n.pos "a range has either a value or both min and max"
  let result ← (← n.required "result").toResult
  return { min, max, result := some result, pos := n.pos }

/-- A switch. The width of its values is four bytes if nothing else is given. -/
def toSwitch (n : Node) : Except Failure Switch := do
  n.checkKeys ["name", "feature", "related", "size", "expr", "ranges", "default"]
  return {
    name := ← n.stringField "name"
    feature := ← n.intField "feature"
    related := ← n.boolField "related"
    varSize := ← n.intFieldD "size" 4
    expr := ← (← n.required "expr").toExpr
    ranges := ← (← n.itemsFieldD "ranges").mapM toRange
    default := some (← (← n.required "default").toResult)
    pos := n.pos }

def toCargo (n : Node) : Except Failure (Int × String) := do
  n.checkKeys ["cargo", "ref"]
  return (← n.intField "cargo", ← n.stringField "ref")

def toGraphics (n : Node) : Except Failure Graphics := do
  n.checkKeys ["feature", "ids", "livery", "cargo", "default"]
  let feature ← n.intField "feature"
  let ids ← n.intsField "ids"
  let livery ← n.boolField "livery"
  let default ← n.stringField "default"
  let cargo ← (← n.itemsFieldD "cargo").mapM toCargo
  return { feature, ids, livery, cargo, default, pos := n.pos }

def severities : List (String × Int) := [("notice", 0), ("warning", 1), ("error", 2), ("fatal", 3)]

def toSeverity (n : Node) : Except Failure Int :=
  match n with
  | .string name pos =>
    match severities.lookup (name.map Char.toLower) with
    | some severity => .ok severity
    | none => invalid pos ("unknown severity " ++ Text.quote name)
  | n => n.asInt

def toMessage (n : Node) : Except Failure Message := do
  n.checkKeys ["severity", "msgid", "message", "data", "params"]
  let severity ← (← n.required "severity").toSeverity
  let (msgId, custom) ← match n.has "msgid", n.has "message" with
    | true, false => pure (← n.intField "msgid", none)
    | false, true => pure (0, some (← n.stringField "message"))
    | _, _ => invalid n.pos "an error message has either a msgid or a message"
  let data ← n.stringField? "data"
  let params ← (← n.itemsFieldD "params").mapM toExpr
  return { severity, msgId, custom, data, params, pos := n.pos }

def toReplaceBlock (n : Node) : Except Failure ReplaceBlock := do
  n.checkKeys ["first", "sprites"]
  return { first := ← n.intField "first", sprites := ← n.stringsField "sprites", pos := n.pos }

/-- The body of a declaration of a kind that has no declarations inside, if there is this kind. -/
def toSimple? (kind : String) (n : Node) : Option (Except Failure Declaration) :=
  let pos := n.pos
  match kind with
  | "properties" => some do
    n.checkKeys ["feature", "id", "props"]
    return .properties (← n.intField "feature") (← n.intField "id")
      (← (← n.itemsField "props").mapM toProperty) pos
  | "sprite_sets" => some do
    n.checkKeys ["feature", "sets"]
    return .spriteSets (← n.intField "feature") (← (← n.itemsField "sets").mapM toSpriteSet) pos
  | "sprite_group" => some (.spriteGroup <$> n.toSpriteGroup)
  | "switch" => some (.switch <$> n.toSwitch)
  | "graphics" => some (.graphics <$> n.toGraphics)
  | "error" => some (.message <$> n.toMessage)
  | "assign" => some do
    n.checkKeys ["param", "value"]
    let param ← n.required "param"
    let value ← n.required "value"
    return .assign (← param.toExpr) (← value.toExpr) pos
  | "deactivate" => some do return .deactivate (← (← n.asItems).mapM asString) pos
  | "replace" => some do return .replace (← (← n.asItems).mapM toReplaceBlock) pos
  | _ => none

mutual

def toDeclarations : List Node → Except Failure (List Declaration)
  | [] => .ok []
  | n :: rest => return (← n.toDeclaration) :: (← toDeclarations rest)
termination_by nodes => sizeOf nodes

def toBody : Node → Except Failure (List Declaration)
  | .sequence items _ => toDeclarations items
  | n => invalid n.pos ("sequence expected, found " ++ n.kindName)
termination_by n => sizeOf n

def toBranches : List Node → Except Failure (List (IfBranch Declaration))
  | [] => .ok []
  | n :: rest => do
    n.checkKeys ["cond", "body"]
    let cond ← match n.get? "cond" with
      | some child => some <$> child.toExpr
      | none =>
        if rest.isEmpty then pure none
        else invalid n.pos "only the last branch can have no condition"
    let body ← match _h : n.get? "body" with
      | some child => child.toBody
      | none => n.missing "body"
    return ⟨cond, body, n.pos⟩ :: (← toBranches rest)
termination_by nodes => sizeOf nodes
decreasing_by
  all_goals
    simp only [List.cons.sizeOf_spec]
    try have := sizeOf_get?_lt ‹_›
    omega

def toDeclaration : Node → Except Failure Declaration
  | .mapping [(kind, body)] pos =>
    match body.toSimple? kind with
    | some declaration => declaration
    | none =>
      if kind = "if" then
        match body with
        | .sequence items pos => return .conditional (← toBranches items) pos
        | n => invalid n.pos ("sequence expected, found " ++ n.kindName)
      else if kind = "while" then do
        body.checkKeys ["cond", "body"]
        let cond ← body.required "cond"
        let cond ← cond.toExpr
        match _h : body.get? "body" with
        | some child => return .loop cond (← child.toBody) body.pos
        | none => body.missing "body"
      else invalid pos ("unknown declaration " ++ Text.quote kind)
  | .mapping entries pos =>
    invalid pos ("a declaration is a mapping with a single key, found " ++ toString entries.length ++
      " keys")
  | n => invalid n.pos ("mapping expected, found " ++ n.kindName)
termination_by n => sizeOf n
decreasing_by
  · simp_all
    omega
  · have := sizeOf_get?_lt _h
    simp_all
    omega

end

/-! ## The file -/

def toHeader (n : Node) : Except Failure GrfHeader := do
  n.checkKeys ["id", "name", "description", "requires"]
  return {
    id := ← n.stringField "id"
    name := ← n.stringField "name"
    description := (← n.stringField? "description").getD ""
    requires := (← n.stringField? "requires").getD ""
    pos := n.pos }

def toSpriteEntry (n : Node) : Except Failure SpriteEntry :=
  match n with
  | .string name pos => .ok { name, pos }
  | n => do
    n.checkKeys ["name", "file"]
    return {
      name := ← n.stringField "name"
      file := (← n.stringField? "file").getD ""
      pos := n.pos }

def toTexts (n : Node) : Except Failure (List TextEntry) := do
  n.checkKeys ["lang", "texts"]
  let lang ← n.intFieldD "lang" StringTable.defaultLang
  let texts ← n.required "texts"
  match texts with
  | .mapping entries _ =>
    entries.mapM fun (name, value) => return { lang, name, text := ← value.asString, pos := value.pos }
  | n => invalid n.pos ("mapping expected, found " ++ n.kindName)

def toFile (root : Node) (path : String) : Except Failure DeclarationFile := do
  root.checkKeys ["grf", "sprites", "strings", "declarations"]
  let header ← (← root.required "grf").toHeader
  let sprites ← (← root.itemsFieldD "sprites").mapM toSpriteEntry
  let strings ← (← root.itemsFieldD "strings").mapM toTexts
  let declarations ← match root.get? "declarations" with
    | some n => n.toBody
    | none => pure []
  return { path, header, sprites, strings := strings.flatten, declarations }

end Grf.Node
