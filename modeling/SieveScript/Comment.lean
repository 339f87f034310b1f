import SieveScript.Text.Blank

/-!
# Comments

A hash comment ends with its line and is kept trimmed; a bracket comment is kept as it stands.
-/

namespace SieveScript

/-- A comment. -/
inductive Comment where
  /-- `# text`, to the end of the line. -/
  | hash (text : String)
  /-- `/*text*/`. -/
  | bracket (text : String)
  deriving DecidableEq, Repr

namespace Comment

/-- What the comment says. -/
def text : Comment → String
  | hash t => t
  | bracket t => t

/-- The comment of a hash token. -/
def ofHashToken : List Char → Comment
  | '#' :: cs => hash (String.ofList (trim cs))
  | cs => hash (String.ofList (trim cs))

/-- The comment of a bracket token; a token that lacks one of the two brackets is all text. -/
def ofBracketToken : List Char → Comment
  | '/' :: '*' :: cs =>
    if ['*', '/'].isSuffixOf cs then bracket (String.ofList (cs.take (cs.length - 2)))
    else bracket (String.ofList ('/' :: '*' :: cs))
  | cs => bracket (String.ofList cs)

/-- The comment as it is written. -/
def encode : Comment → List Char
  | hash t => if t = "" then ['#'] else ['#', ' '] ++ t.toList
  | bracket t => ['/', '*'] ++ t.toList ++ ['*', '/']

/-- The comment as it is written behind the word of a node, where reading attaches it again. A
hash comment takes the end of its line with it. -/
def encodeAttached : Comment → List Char
  | hash t => ' ' :: encode (hash t) ++ ['\r', '\n']
  | bracket t => ' ' :: encode (bracket t)

end Comment

end SieveScript
