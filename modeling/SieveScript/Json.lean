/-!
# JSON values

A JSON value with its fields in order, and its text with two spaces for each level of nesting.
-/

namespace SieveScript

/-- A JSON value. A number is kept as its text. -/
inductive Json where
  | null
  | bool (b : Bool)
  | number (text : String)
  | string (s : String)
  | array (items : List Json)
  | object (fields : List (String × Json))
  deriving Inhabited, Repr

namespace Json

/-- The four hexadecimal digits of a number below 65536. -/
def hex4 (n : Nat) : List Char :=
  [n / 4096, n / 256 % 16, n / 16 % 16, n % 16].map Nat.digitChar

/-- A character inside a JSON string. -/
def escapeChar (c : Char) : List Char :=
  match c with
  | '"' => ['\\', '"']
  | '\\' => ['\\', '\\']
  | '\x08' => ['\\', 'b']
  | '\x0c' => ['\\', 'f']
  | '\n' => ['\\', 'n']
  | '\r' => ['\\', 'r']
  | '\t' => ['\\', 't']
  | c => if c.toNat < 0x20 then ['\\', 'u'] ++ hex4 c.toNat else [c]

/-- A JSON string: quotes, backslashes and control characters are escaped. -/
def quote (s : String) : List Char :=
  '"' :: s.toList.flatMap escapeChar ++ ['"']

/-- The start of a line at a depth. -/
def newLine (depth : Nat) : List Char :=
  '\n' :: List.replicate (2 * depth) ' '

mutual

/-- The text of a value at a depth. -/
def render (depth : Nat) : Json → List Char
  | null => "null".toList
  | bool b => (if b then "true" else "false").toList
  | number t => t.toList
  | string s => quote s
  | array [] => ['[', ']']
  | array (j :: js) =>
    '[' :: newLine (depth + 1) ++ render (depth + 1) j ++ renderItems (depth + 1) js ++
      newLine depth ++ [']']
  | object [] => ['{', '}']
  | object ((k, j) :: fs) =>
    '{' :: newLine (depth + 1) ++ quote k ++ [':', ' '] ++ render (depth + 1) j ++
      renderFields (depth + 1) fs ++ newLine depth ++ ['}']

/-- The items behind the first of an array. -/
def renderItems (depth : Nat) : List Json → List Char
  | [] => []
  | j :: js => ',' :: newLine depth ++ render depth j ++ renderItems depth js

/-- The fields behind the first of an object. -/
def renderFields (depth : Nat) : List (String × Json) → List Char
  | [] => []
  | (k, j) :: fs =>
    ',' :: newLine depth ++ quote k ++ [':', ' '] ++ render depth j ++ renderFields depth fs

end

/-- The text of a value. -/
def pretty (j : Json) : String :=
  String.ofList (j.render 0)

end Json

end SieveScript
