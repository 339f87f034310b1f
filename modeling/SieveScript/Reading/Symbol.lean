import SieveScript.Token
import SieveScript.Comment
import SieveScript.Argument

/-!
# Symbols

A symbol is a token with its value decoded: what the grammar is about. Layout has none.
-/

namespace SieveScript

/-- A decoded token. -/
inductive Symbol where
  /-- A word, in lower case. -/
  | word (w : String)
  | argument (a : Argument)
  | comment (c : Comment)
  | semicolon
  | blockStart
  | blockEnd
  | leftParen
  | rightParen
  | comma
  | unknown (text : String)
  deriving DecidableEq, Repr

namespace Token

/-- The lexeme with its ASCII letters in lower case. -/
def lower (t : Token) : String :=
  String.ofList (t.lexeme.map Char.toLower)

/-- The symbol of a token that is no layout. -/
def symbol? (t : Token) : Option Symbol :=
  match t.kind with
  | .stringList => some (.argument (.strings (StringList.decode t.lexeme)))
  | .quoted => some (.argument (.string (Quoted.decode t.lexeme)))
  | .multiLine => some (.argument (.multiLine (MultiLine.decode t.lexeme)))
  | .tag => some (.argument (.tag t.lower))
  | .number => some (.argument (.number ⟨t.text⟩))
  | .word => some (.word t.lower)
  | .hashComment => some (.comment (.ofHashToken t.lexeme))
  | .bracketComment => some (.comment (.ofBracketToken t.lexeme))
  | .semicolon => some .semicolon
  | .blockStart => some .blockStart
  | .blockEnd => some .blockEnd
  | .leftParen => some .leftParen
  | .rightParen => some .rightParen
  | .comma => some .comma
  | .layout => none
  | .unknown => some (.unknown t.text)

end Token

end SieveScript
