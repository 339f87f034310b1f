import SieveScript.Text.Lines
import SieveScript.Reading.Notice

/-!
# Reading a script

`Script.read` normalizes the line endings of a text, cuts it into tokens and reads them one by one.
The first fault ends the reading. `Script.trace` tells what was noticed on the way.
-/

namespace SieveScript

namespace State

/-- Reads tokens; a fault comes with the token that is at fault. -/
def run (v : Vocabulary) : State → List Token → Except (Fault × Token) State
  | s, [] => .ok s
  | s, t :: ts =>
    match t.symbol? with
    | none => run v s ts
    | some y =>
      match s.step v y with
      | .ok s' => run v s' ts
      | .error f => .error (f, t)

/-- What is noticed while tokens are read, up to the first fault or the end. -/
def trace (v : Vocabulary) : State → List Token → List Notice
  | s, [] => s.lastNotices ++ [.finished s.finish.items.length s.finish.requires]
  | s, t :: ts =>
    match t.symbol? with
    | none => trace v s ts
    | some y =>
      s.notices v t.line y ++
        match s.step v y with
        | .ok s' => trace v s' ts
        | .error _ => []

end State

namespace SyntaxError

/-- The bytes of a text before and behind the end of a token that are shown with a fault. -/
def shown : Nat × Nat :=
  (20, 10)

/-- The error of a fault at a token of a text. -/
def ofFault (name : String) (text : List Char) (f : Fault) (t : Token) : SyntaxError where
  fault := f
  script := name
  line := t.line
  snippet := String.ofList (window (t.stop - shown.1) (t.stop + shown.2) 0 text)

end SyntaxError

namespace Script

/-- Reads a script against the active definitions. The name is only used in errors. -/
def read (v : Vocabulary) (name text : String) : Except SyntaxError Script :=
  let cs := normalize text.toList
  match State.run v {} (Token.all cs) with
  | .ok s => .ok s.finish
  | .error (f, t) => .error (.ofFault name cs f t)

/-- What is noticed while a script is read. -/
def trace (v : Vocabulary) (text : String) : List Notice :=
  .started v.definitions.length :: State.trace v {} (Token.all (normalize text.toList))

/-- Reads a script with what the capabilities make active. -/
def parse (capabilities : List String) (name text : String) : Except SyntaxError Script :=
  read (.ofCapabilities capabilities) name text

end Script

end SieveScript
