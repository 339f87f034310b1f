import SieveScript.Literal.Quoted
import SieveScript.Literal.StringList
import SieveScript.Literal.MultiLine
import SieveScript.Literal.Number

/-!
# Arguments

An argument is what may stand between the word of an action or a test and its end. A single string
counts as a list with one element, and a list with one element as a single string.
-/

namespace SieveScript

/-- An argument as it stands in a script. -/
inductive Argument where
  /-- A tag with its colon, in lower case. -/
  | tag (name : String)
  | string (value : String)
  | multiLine (text : MultiLine)
  | strings (values : List String)
  | number (n : Number)
  deriving DecidableEq, Repr

namespace Argument

/-- The argument as it is written. -/
def encode : Argument → List Char
  | tag t => t.toList
  | string v => Quoted.encode v
  | multiLine m => m.encode
  | strings vs => StringList.encode vs
  | number n => n.text.toList

/-- Arguments as they are written one behind the other, with a space between each two. -/
def encodeAll : List Argument → List Char
  | [] => []
  | [a] => a.encode
  | a :: b :: as => a.encode ++ ' ' :: encodeAll (b :: as)

/-- The name of a tag. -/
def tag? : Argument → Option String
  | tag t => some t
  | _ => none

/-- The argument is the given tag. -/
def isTag (name : String) (a : Argument) : Bool :=
  a.tag? == some name

/-- The one string that the argument holds, if it holds exactly one. -/
def string? : Argument → Option String
  | string v => some v
  | multiLine m => some m.value
  | strings [v] => some v
  | _ => none

/-- The strings that the argument holds. -/
def strings? : Argument → Option (List String)
  | strings vs => some vs
  | string v => some [v]
  | multiLine m => some [m.value]
  | _ => none

/-- The text that the argument holds, in the form in which it is written. -/
def text? : Argument → Option Text
  | multiLine m => some (.multiLine m)
  | a => a.string?.map .quoted

/-- The number that the argument is. -/
def number? : Argument → Option Number
  | number n => some n
  | _ => none

/-- The argument, unless it is a tag. -/
def positional? : Argument → Option Argument
  | tag _ => none
  | a => some a

/-- A string in the form in which it is written. -/
def ofText : Text → Argument
  | .quoted v => string v
  | .multiLine m => multiLine m

/-- A tag, if it is set. -/
def ofFlag (name : String) (on : Bool) : List Argument :=
  if on then [tag name] else []

/-- A tag with its value, if there is one. -/
def ofTagged {α : Type} (name : String) (value : α → Argument) : Option α → List Argument
  | none => []
  | some x => [tag name, value x]

end Argument

end SieveScript
