import Grf.Document.Json

/-! # JSON values as text

A JSON value over several lines, each level indented by two blanks. Characters that mean something in
a web page are escaped, as are control characters and the two line separators.
-/

namespace Grf.JsonValue

def natural (n : Nat) : JsonValue := .number (toString n)

def escapeChar (c : Char) : String :=
  if c == '"' then "\\\"" else if c == '\\' then "\\\\"
  else if c == '\n' then "\\n" else if c == '\r' then "\\r" else if c == '\t' then "\\t"
  else if c.toNat < 0x20 || c == '<' || c == '>' || c == '&' || c.toNat = 0x2028 || c.toNat = 0x2029 then
    "\\u" ++ String.ofList ((Text.padZeros 4 (Text.hexDigits c.toNat)).map Char.toLower)
  else String.singleton c

def quoted (s : String) : String := "\"" ++ String.join (s.toList.map escapeChar) ++ "\""

def lineStart (level : Nat) : String := "\n" ++ String.ofList (List.replicate (2 * level) ' ')

mutual

def renderAt (level : Nat) : JsonValue → String
  | .null => "null"
  | .bool value => if value then "true" else "false"
  | .number text => text
  | .string value => quoted value
  | .array [] => "[]"
  | .array (item :: rest) =>
    "[" ++ lineStart (level + 1) ++ renderAt (level + 1) item ++ renderItems (level + 1) rest
      ++ lineStart level ++ "]"
  | .object [] => "\x7b\x7d"
  | .object ((key, value) :: rest) =>
    "\x7b" ++ lineStart (level + 1) ++ quoted key ++ ": " ++ renderAt (level + 1) value
      ++ renderMembers (level + 1) rest ++ lineStart level ++ "\x7d"

def renderItems (level : Nat) : List JsonValue → String
  | [] => ""
  | item :: rest => "," ++ lineStart level ++ renderAt level item ++ renderItems level rest

def renderMembers (level : Nat) : List (String × JsonValue) → String
  | [] => ""
  | (key, value) :: rest =>
    "," ++ lineStart level ++ quoted key ++ ": " ++ renderAt level value ++ renderMembers level rest

end

def render (value : JsonValue) : String := renderAt 0 value

end Grf.JsonValue
