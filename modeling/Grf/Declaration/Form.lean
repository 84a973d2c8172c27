import Grf.Document.Schema

/-! # The form of declaration files

The schema of a declaration file. It says nothing about the inside of expressions, and most parts may
have keys it does not name: these are checked when the declarations are read.
-/

namespace Grf

inductive FormName
  | int | expr | names | declarations | declaration
deriving DecidableEq, Repr

namespace FormName

def text : Schema FormName := .types [.string]

def truth : Schema FormName := .types [.boolean]

def width : Schema FormName := .oneOf [1, 2, 4]

def fields (required : List String) (properties : List (String × Schema FormName)) :
    Schema FormName :=
  .object 0 none required properties false

def record (required : List String) (properties : List (String × Schema FormName)) :
    Schema FormName :=
  .object 0 none required properties true

def list (items : Schema FormName) : Schema FormName := .array 0 none items

def nonempty (items : Schema FormName) : Schema FormName := .array 1 none items

def kinds : List (String × Schema FormName) := [
  ("properties", fields ["feature", "id", "props"] [
    ("feature", .named int),
    ("id", .named int),
    ("props", list (fields ["num", "size"] [
      ("num", .named int),
      ("size", width),
      ("value", .named expr),
      ("string", text),
      ("array", list (.named int))]))]),
  ("sprite_sets", fields ["feature", "sets"] [
    ("feature", .named int),
    ("sets", nonempty (fields ["name", "sprites"] [("name", text), ("sprites", .named names)]))]),
  ("sprite_group", fields ["name", "feature", "loaded"] [
    ("name", text),
    ("feature", .named int),
    ("loaded", .named names),
    ("loading", .named names)]),
  ("switch", fields ["name", "feature", "expr", "default"] [
    ("name", text),
    ("feature", .named int),
    ("related", truth),
    ("size", width),
    ("expr", .named expr),
    ("ranges", list (fields ["result"] [
      ("value", .named int),
      ("min", .named int),
      ("max", .named int),
      ("result", .named expr)])),
    ("default", .named expr)]),
  ("graphics", fields ["feature", "ids", "default"] [
    ("feature", .named int),
    ("ids", list (.named int)),
    ("livery", truth),
    ("cargo", list (fields ["cargo", "ref"] [("cargo", .named int), ("ref", text)])),
    ("default", text)]),
  ("error", fields ["severity"] [
    ("severity", .types [.integer, .string]),
    ("msgid", .named int),
    ("message", text),
    ("data", text),
    ("params", .array 0 (some 2) (.named expr))]),
  ("assign", fields ["param", "value"] [("param", .named expr), ("value", .named expr)]),
  ("if", nonempty (fields ["body"] [("cond", .named expr), ("body", .named declarations)])),
  ("while", fields ["cond", "body"] [("cond", .named expr), ("body", .named declarations)]),
  ("deactivate", nonempty text),
  ("replace", nonempty (fields ["first", "sprites"] [
    ("first", .named int),
    ("sprites", .named names)]))]

def form : FormName → Schema FormName
  | int => .types [.integer, .string]
  | expr => .types [.integer, .string, .object]
  | names => list text
  | declarations => list (.named declaration)
  | declaration => .object 1 (some 1) [] kinds true

def file : Schema FormName :=
  record ["grf"] [
    ("grf", record ["id", "name"] [
      ("id", text),
      ("name", text),
      ("description", text),
      ("requires", text)]),
    ("sprites", list (.either text (record ["name"] [("name", text), ("file", text)]))),
    ("strings", list (record ["texts"] [("lang", .named int), ("texts", .map text)])),
    ("declarations", .named declarations)]

end FormName

def checkForm (root : Node) : Except Failure Unit := FormName.file.check FormName.form root

end Grf
