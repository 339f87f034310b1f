import SieveScript.Text.Blank
import SieveScript.Text.Lines
import SieveScript.Token.Lexeme

/-!
# Multi-line texts

A multi-line text runs from a `text:` line to a line with a single dot. A line of the value that
starts with a dot is written with a second one, so no line of the value can end the text.
-/

namespace SieveScript

/-- A multi-line text. -/
structure MultiLine where
  /-- The lines, each with its CRLF. -/
  value : String
  /-- The comment on the opening line. -/
  comment : Option String := none
  deriving DecidableEq, Repr

namespace MultiLine

/-- Writes a second dot before a line that starts with one. -/
def stuff : List Char → List Char
  | '.' :: line => '.' :: '.' :: line
  | line => line

/-- Takes one of two leading dots away. -/
def unstuff : List Char → List Char
  | '.' :: '.' :: line => '.' :: line
  | line => line

/-- Ends a line in CRLF. -/
def endLine (line : List Char) : List Char :=
  if ['\r', '\n'].isSuffixOf line then line else line ++ ['\r', '\n']

/-- Takes the closing dot away, with or without its CRLF. -/
def dropDot (body : List Char) : List Char :=
  if ['.', '\r', '\n'].isSuffixOf body then body.take (body.length - 3)
  else if ['.'].isSuffixOf body then body.dropLast
  else body

/-- A trimmed comment, or none if nothing is left of it. -/
def comment? (cs : List Char) : Option String :=
  match trim cs with
  | [] => none
  | c :: cs => some (String.ofList (c :: cs))

/-- The comment on the opening line. -/
def encodeComment : Option String → List Char
  | none => []
  | some c => [' ', '#', ' '] ++ c.toList

/-- The token of a multi-line text. -/
def encode (m : MultiLine) : List Char :=
  ['t', 'e', 'x', 't', ':'] ++ encodeComment m.comment ++ ['\r', '\n'] ++
    (splitLines m.value.toList).flatMap (fun line => endLine (stuff line)) ++ ['.', '\r', '\n']

/-- The value of a body, of which the closing dot is gone. -/
def decodeBody (body : List Char) : String :=
  String.ofList ((splitLines body).flatMap unstuff)

/-- The multi-line text of a token; one without an opening line is all body. -/
def decode (token : List Char) : MultiLine :=
  match Lexeme.openingLine? token with
  | some (note, body) => { value := decodeBody (dropDot body), comment := note.bind comment? }
  | none => { value := decodeBody (dropDot token) }

end MultiLine

/-- A string in either of its forms, where long text is customary. -/
inductive Text where
  | quoted (value : String)
  | multiLine (text : MultiLine)
  deriving DecidableEq, Repr

namespace Text

/-- The string itself. -/
def value : Text → String
  | quoted v => v
  | multiLine m => m.value

end Text

end SieveScript
