import Grf.Document.Yaml.Token

/-! # YAML documents

Tokens as trees. The entries of a block mapping are the keys in one column, one after the other, and
the items of a block sequence the dashes in one column. A key whose value is missing has a null value
in the line of its colon.

What is left over after a document is another document. The functions return the part they have read
with the tokens after it, or nothing if the tokens are not a document.
-/

namespace Grf.Yaml

inductive Tree
  | scalar (value : Scalar) (line : Nat)
  /-- The entries are the key, the line of the colon and the value. -/
  | mapping (entries : List (Scalar × Nat × Tree)) (line : Nat)
  | sequence (items : List Tree) (line : Nat)
  | anchor (name : String) (value : Tree) (line : Nat)
  | aliasOf (name : String) (line : Nat)
  | tag (value : Tree) (line : Nat)
deriving Repr, Inhabited

namespace Tree

def line : Tree → Nat
  | scalar _ line => line
  | mapping _ line => line
  | sequence _ line => line
  | anchor _ _ line => line
  | aliasOf _ line => line
  | tag _ line => line

def nameText : Tree → String
  | scalar value _ => value.keyText
  | _ => ""

end Tree

mutual

def node : Nat → List Token → Option (Option Tree × List Token)
  | 0, _ => none
  | _, [] => some (none, [])
  | fuel + 1, t :: rest =>
    if (rest.head?.map (·.lexeme)) = some .colon then do
      let (entries, rest) ← entriesAt fuel t rest
      return (some (.mapping entries (((entries.head?).map (·.2.1)).getD t.line)), rest)
    else match t.lexeme with
    | .scalar value _ => some (some (.scalar value t.line), rest)
    | .entry => do
      let (items, rest) ← items fuel t.column rest
      return (some (.sequence items t.line), rest)
    | .mapStart => do
      let (entries, rest) ← flowEntries fuel rest
      return (some (.mapping entries t.line), rest)
    | .seqStart => do
      let (items, rest) ← flowItems fuel rest
      return (some (.sequence items t.line), rest)
    | .block => do
      let (value, rest) ← node fuel rest
      match value with
      | some (.scalar (.string s) _) => return (some (.scalar (.string s) t.line), rest)
      | _ => none
    | .anchor => do
      let (name, rest) ← node fuel rest
      let (value, rest) ← if rest.isEmpty then none else node fuel rest
      return (some (.anchor ((name.map Tree.nameText).getD "") (value.getD (.scalar .null t.line))
        t.line), rest)
    | .aliasOf => do
      let (name, rest) ← if rest.isEmpty then none else node fuel rest
      return (some (.aliasOf ((name.map Tree.nameText).getD "") t.line), rest)
    | .tag => do
      let (value, rest) ← node fuel rest
      return (some (.tag (value.getD (.scalar .null t.line)) t.line), rest)
    | .unsupported => none
    | .colon | .comma | .mapEnd | .seqEnd | .documentStart | .documentEnd => some (none, rest)

/-- The entries of a mapping whose first key is `key`, up to a token that is no key in the same
column. -/
def entriesAt : Nat → Token → List Token → Option (List (Scalar × Nat × Tree) × List Token)
  | 0, _, _ => none
  | fuel + 1, key, rest => do
    let .scalar name _ := key.lexeme | none
    let colon :: rest := rest | none
    if colon.lexeme ≠ .colon then none
    let missing := Tree.scalar .null colon.line
    let (value, rest) ← match rest with
      | [] => some (missing, [])
      | t :: _ =>
        if t.column < key.column || (t.column = key.column && t.isPlainText) then some (missing, rest)
        else (node fuel rest).map fun (value, rest) => (value.getD missing, rest)
    let entry := (name, colon.line, value)
    match rest with
    | next :: after =>
      if next.column = key.column && (after.head?.map (·.lexeme)) = some .colon then do
        let (entries, rest) ← entriesAt fuel next after
        return (entry :: entries, rest)
      else return ([entry], rest)
    | [] => return ([entry], rest)

def items : Nat → Nat → List Token → Option (List Tree × List Token)
  | 0, _, _ => none
  | _, _, [] => none
  | fuel + 1, column, t :: rest => do
    let (value, rest) ← node fuel (t :: rest)
    let value := value.getD (.scalar .null t.line)
    match rest with
    | next :: after =>
      if next.lexeme = .entry && next.column = column then do
        let (others, rest) ← items fuel column after
        return (value :: others, rest)
      else return ([value], rest)
    | [] => return ([value], rest)

def flowEntries : Nat → List Token → Option (List (Scalar × Nat × Tree) × List Token)
  | 0, _ => none
  | _, [] => none
  | fuel + 1, t :: rest =>
    match t.lexeme with
    | .mapEnd => some ([], rest)
    | .comma => flowEntries fuel rest
    | _ => do
      let (entries, rest) ← entriesAt fuel t rest
      let (others, rest) ← flowEntries fuel rest
      return (entries ++ others, rest)

/-- The items of a sequence in brackets, up to the closing bracket or the end. -/
def flowItems : Nat → List Token → Option (List Tree × List Token)
  | 0, _ => none
  | _, [] => some ([], [])
  | fuel + 1, t :: rest =>
    match t.lexeme with
    | .seqEnd => some ([], rest)
    | .comma => flowItems fuel rest
    | _ => do
      let (value, rest) ← node fuel (t :: rest)
      let (others, rest) ← flowItems fuel rest
      return (value.getD (.scalar .null t.line) :: others, rest)

end

/-- The documents of a list of tokens. A document that has a start sign but no content is none. -/
def documentsOf : Nat → List Token → Option (List (Option Tree))
  | 0, _ => none
  | _, [] => some []
  | fuel + 1, t :: rest =>
    if t.lexeme = .documentStart then do
      let (value, rest) ← node fuel rest
      return value :: (← documentsOf fuel rest)
    else do
      let (value, rest) ← node fuel (t :: rest)
      let others ← documentsOf fuel rest
      match value with
      | some tree => return some tree :: others
      | none => return others

def documents (text : String) : Option (List (Option Tree)) :=
  let tokens := tokens text
  documentsOf (3 * tokens.length + 3) tokens

end Grf.Yaml
