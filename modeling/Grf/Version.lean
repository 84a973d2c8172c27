import Grf.Error

/-! # Version constraints

A document may ask for a version of the compiler. A constraint is a list of alternatives divided by
`||`, an alternative is a list of comparisons divided by blanks or commas, and a comparison is an
operator and a version whose last parts may be left out or be a wildcard. `a - b` stands for a range.

`Constraint.parse?` reads a constraint, `Constraint.admits` decides it for a version.
-/

namespace Grf

/-- A version: three numbers, and the identifiers of a pre-release if it is one. -/
structure Version where
  major : Nat
  minor : Nat
  patch : Nat
  pre : Option (List String) := none
deriving DecidableEq, Repr, Inhabited

namespace Version

def current : Version := { major := 0, minor := 4, patch := 0 }

def text (v : Version) : String :=
  toString v.major ++ "." ++ toString v.minor ++ "." ++ toString v.patch

/-- Order of identifiers of pre-releases: numbers by value and before all others. -/
def compareIdentifier (a b : String) : Ordering :=
  match Text.readDigits? 10 a.toList, Text.readDigits? 10 b.toList with
  | some m, some n => compare m n
  | some _, none => .lt
  | none, some _ => .gt
  | none, none => compare a b

/-- Order of lists of identifiers, a longer list comes after its beginning. -/
def comparePre : List String → List String → Ordering
  | [], [] => .eq
  | [], _ :: _ => .lt
  | _ :: _, [] => .gt
  | a :: as, b :: bs => (compareIdentifier a b).then (comparePre as bs)

def compare (a b : Version) : Ordering :=
  (Ord.compare a.major b.major).then <|
  (Ord.compare a.minor b.minor).then <|
  (Ord.compare a.patch b.patch).then <|
    match a.pre, b.pre with
    | none, none => .eq
    | none, some _ => .gt
    | some _, none => .lt
    | some p, some q => comparePre p q

end Version

namespace Constraint

/-- How a version is compared. `tilde` keeps the minor number and `caret` the first number that is not
zero. -/
inductive Relation
  | equal | notEqual | greater | less | greaterEqual | lessEqual | tilde | caret
deriving DecidableEq, Repr, Inhabited

inductive Open
  | nothing | patch | minor | all
deriving DecidableEq, Repr, Inhabited

/-- A comparison with a version, the open parts of which are zero. -/
structure Comparison where
  relation : Relation
  version : Version
  missing : Open
deriving DecidableEq, Repr, Inhabited

/-- The operators with their texts, in the order in which they are tried. -/
def relations : List (String × Relation) :=
  [("=", .equal), ("", .equal), ("!=", .notEqual), (">", .greater), ("<", .less),
    (">=", .greaterEqual), ("=>", .greaterEqual), ("<=", .lessEqual), ("=<", .lessEqual),
    ("~", .tilde), ("~>", .tilde), ("^", .caret)]

def isBlank (c : Char) : Bool := c == ' ' || c == '\t' || c == '\n' || c == '\x0c' || c == '\r'

def skipBlanks (s : List Char) : List Char := s.dropWhile isBlank

def isPartChar (c : Char) : Bool := c.isDigit || c == '|' || c == 'x' || c == 'X' || c == '*'

/-- Whether a character may stand in an identifier of a pre-release or of build data. -/
def isIdentifierChar (c : Char) : Bool := c.isAlphanum || c == '-'

/-- The number parts, pre-release and build data of a version as they were written. -/
structure Parts where
  major : List Char
  minor : Option (List Char) := none
  patch : Option (List Char) := none
  pre : List (List Char) := []
  build : List (List Char) := []
  rest : List Char

def takePart (s : List Char) : Option (List Char × List Char) :=
  match s with
  | '.' :: rest =>
    let part := rest.takeWhile isPartChar
    if part.isEmpty then none else some (part, rest.dropWhile isPartChar)
  | _ => none

/-- Identifiers divided by points. `n` bounds their number. -/
def takeIdentifiers : Nat → List Char → List (List Char) × List Char
  | 0, s => ([], s)
  | n + 1, s =>
    let word := s.takeWhile isIdentifierChar
    let rest := s.dropWhile isIdentifierChar
    if word.isEmpty then ([], s)
    else match rest with
      | '.' :: more =>
        match takeIdentifiers n more with
        | ([], _) => ([word], rest)
        | (words, rest) => (word :: words, rest)
      | _ => ([word], rest)

def takeMarked (mark : Char) (s : List Char) : List (List Char) × List Char :=
  match s with
  | c :: rest =>
    if c == mark then
      match takeIdentifiers rest.length rest with
      | ([], _) => ([], s)
      | found => found
    else ([], s)
  | [] => ([], s)

def takeVersion (s : List Char) : Option Parts :=
  let s := match s with | 'v' :: rest => rest | _ => s
  let major := s.takeWhile isPartChar
  if major.isEmpty then none
  else
    let rest := s.dropWhile isPartChar
    let (minor, rest) := match takePart rest with
      | some (part, rest) => (some part, rest)
      | none => (none, rest)
    let (patch, rest) := match minor.bind fun _ => takePart rest with
      | some (part, rest) => (some part, rest)
      | none => (none, rest)
    let (pre, rest) := takeMarked '-' rest
    let (build, rest) := takeMarked '+' rest
    some { major, minor, patch, pre, build, rest }

def isOpen (part : Option (List Char)) : Bool :=
  part.isNone || part == some ['x'] || part == some ['X'] || part == some ['*']

def number? (digits : List Char) : Option Nat :=
  (Text.readDigits? 10 digits).filter (· < 0x10000000000000000)

/-- Whether an identifier of a pre-release is allowed: a number has no leading zero. -/
def isPreIdentifier (word : List Char) : Bool :=
  !(word.all Char.isDigit && 1 < word.length && word.head? == some '0')

def preOf? (words : List (List Char)) : Option (Option (List String)) :=
  if words.isEmpty then some none
  else if words.all isPreIdentifier then some (some (words.map String.ofList))
  else none

/-- The version and its open parts. Parts after an open part count for nothing. -/
def versionOf? (parts : Parts) : Option (Version × Open) := do
  let pre ← preOf? parts.pre
  if isOpen (some parts.major) then
    return ({ major := 0, minor := 0, patch := 0, pre }, .all)
  let major ← number? parts.major
  if isOpen parts.minor then return ({ major, minor := 0, patch := 0, pre }, .minor)
  let minor ← number? (parts.minor.getD [])
  if isOpen parts.patch then return ({ major, minor, patch := 0, pre }, .patch)
  let patch ← number? (parts.patch.getD [])
  return ({ major, minor, patch, pre }, .nothing)

def takeComparison (s : List Char) : Option (Relation × Parts) :=
  relations.findSome? fun (text, relation) =>
    if text.toList.isPrefixOf s then
      (takeVersion (skipBlanks (s.drop text.length))).map (relation, ·)
    else none

/-- The comparisons of one alternative. `n` bounds their number, `first` tells whether one has been
read before: the next one then needs a divider, which is a comma or a blank. -/
def takeComparisons : Nat → Bool → List Char → Option (List Comparison)
  | 0, _, _ => none
  | n + 1, first, s =>
    let rest := skipBlanks s
    let next := if first then some rest
      else match rest with
        | ',' :: rest => some (skipBlanks rest)
        | _ => if rest.length < s.length then some rest else none
    match rest, first with
    | [], false => some []
    | _, _ => do
      let (relation, parts) ← takeComparison (← next)
      let others ← takeComparisons n false parts.rest
      let (version, missing) ← versionOf? parts
      return { relation, version, missing } :: others

/-- The text of a version as it was written, for the range notation. -/
def sourceOf (s rest : List Char) : List Char := s.take (s.length - rest.length)

/-- A range `a - b` at the front of a text, after blanks: the two versions and the rest. -/
def takeRange (s : List Char) : Option (List Char × List Char × List Char) := do
  let s := skipBlanks s
  let low ← takeVersion s
  let gap := skipBlanks low.rest
  if gap.length = low.rest.length then none
  match gap with
  | '-' :: more =>
    let second := skipBlanks more
    if second.length = more.length then none
    let high ← takeVersion second
    return (sourceOf s low.rest, sourceOf second high.rest, skipBlanks high.rest)
  | _ => none

/-- Replaces each range by two comparisons. `n` bounds the number of characters left. -/
def expandRanges : Nat → List Char → List Char
  | n + 1, c :: rest =>
    match takeRange (c :: rest) with
    | some (low, high, rest) =>
      ">= ".toList ++ low ++ ", <= ".toList ++ high ++ [' '] ++ expandRanges n rest
    | none => c :: expandRanges n rest
  | _, s => s

def splitOr : List Char → List (List Char)
  | [] => [[]]
  | '|' :: '|' :: rest => [] :: splitOr rest
  | c :: rest =>
    match splitOr rest with
    | part :: parts => (c :: part) :: parts
    | [] => [[c]]

def parse? (s : String) : Option (List (List Comparison)) :=
  let s := expandRanges s.length s.toList
  (splitOr s).mapM fun part => takeComparisons (part.length + 1) true part

def admitsTilde (c : Comparison) (v : Version) : Bool :=
  if v.compare c.version == .lt then false
  else if c.version.major == 0 && c.version.minor == 0 && c.version.patch == 0
      && c.missing != .minor && c.missing != .patch then true
  else v.major == c.version.major && (v.minor == c.version.minor || c.missing == .minor)

def admitsCaret (c : Comparison) (v : Version) : Bool :=
  if v.compare c.version == .lt then false
  else if 0 < c.version.major || c.missing == .minor then v.major == c.version.major
  else if 0 < v.major then false
  else if 0 < c.version.minor || c.missing == .patch then v.minor == c.version.minor
  else if 0 < v.minor then false
  else v.patch == c.version.patch

def Comparison.admits (c : Comparison) (v : Version) : Bool :=
  match c.relation with
  | .equal => if c.missing == .nothing then v.compare c.version == .eq else admitsTilde c v
  | .notEqual =>
    match c.missing with
    | .nothing => v.compare c.version != .eq
    | .all => v.major != c.version.major || v.minor != c.version.minor
        || v.patch != c.version.patch || v.compare c.version != .eq
    | .minor => v.major != c.version.major
    | .patch =>
      v.major != c.version.major || v.minor != c.version.minor || c.version.pre.isSome
  | .greater =>
    match c.missing with
    | .nothing | .all => v.compare c.version == .gt
    | .minor => c.version.major < v.major
    | .patch => c.version.major < v.major || (v.major == c.version.major && c.version.minor < v.minor)
  | .less => v.compare c.version == .lt
  | .greaterEqual => v.compare c.version != .lt
  | .lessEqual =>
    match c.missing with
    | .nothing => v.compare c.version != .gt
    | .minor => v.major ≤ c.version.major
    | .patch | .all =>
      v.major < c.version.major || (v.major == c.version.major && v.minor ≤ c.version.minor)
  | .tilde => admitsTilde c v
  | .caret => admitsCaret c v

/-- Whether a release satisfies a constraint: all comparisons of one of its alternatives. -/
def admits (alternatives : List (List Comparison)) (v : Version) : Bool :=
  alternatives.any fun comparisons => comparisons.all (·.admits v)

end Constraint

/-- Checks that this compiler satisfies the constraint of a document. An empty text asks for nothing. -/
def Version.check (requires : String) (pos : Position) : Except Failure Unit :=
  if requires.isEmpty then .ok ()
  else
    let pos := pos.sub "requires"
    match Constraint.parse? requires with
    | none =>
      .error (.compile .typeMismatch pos ("invalid version constraint " ++ Text.quote requires))
    | some alternatives =>
      if Constraint.admits alternatives current then .ok ()
      else .error (.compile .incompatibleCompiler pos
        ("version " ++ current.text ++ " does not satisfy " ++ Text.quote requires))

end Grf
