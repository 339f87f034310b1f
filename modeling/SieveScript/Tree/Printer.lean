import SieveScript.Tree

/-!
# Writing a tree

A script is written with CRLF at the end of each line and one tab for each level of nesting. A test
is written on one line, unless a hash comment or a multi-line text breaks it.
-/

namespace SieveScript

namespace Head

/-- A word with the comments behind it. -/
def encode (h : Head) : List Char :=
  h.word.toList ++ h.comments.flatMap Comment.encodeAttached

end Head

/-- A text with a space in front, if there is one. -/
def spaced : List Char → List Char
  | [] => []
  | cs => ' ' :: cs

namespace Matching

/-- The match type and the comparator, each with a space in front. -/
def encode (m : Matching) : List Char :=
  spaced (Argument.encodeAll (m.matchTypeArguments ++ m.comparatorArguments))

end Matching

namespace Test

mutual

/-- A test as it is written. -/
def encode : Test → List Char
  | leaf h m c => h.encode ++ m.encode ++ spaced (Argument.encodeAll c.arguments)
  | negation h m inner => h.encode ++ m.encode ++ spaced (encodeOption inner)
  | group h m _ ts => h.encode ++ m.encode ++ spaced ('(' :: encodeMembers ts ++ [')'])

/-- A test, or nothing where there is none. -/
def encodeOption : Option Test → List Char
  | none => []
  | some t => t.encode

/-- The tests of a group, with a comma between each two. -/
def encodeMembers : List Test → List Char
  | [] => []
  | t :: ts => t.encode ++ encodeMore ts

/-- The tests behind the first of a group, each with a comma in front. -/
def encodeMore : List Test → List Char
  | [] => []
  | t :: ts => ',' :: ' ' :: t.encode ++ encodeMore ts

end

/-- What is written behind the word, the comments and the matching of a test. -/
def encodeBody : Test → List Char
  | leaf _ _ c => Argument.encodeAll c.arguments
  | negation _ _ inner => encodeOption inner
  | group _ _ _ ts => '(' :: encodeMembers ts ++ [')']

end Test

namespace Item

/-- The tabs in front of a line. -/
def indentation (depth : Nat) : List Char :=
  List.replicate depth '\t'

mutual

/-- An item as it is written at a depth, without the end of its last line. -/
def encode (depth : Nat) : Item → List Char
  | comment c => indentation depth ++ c.encode
  | action h a =>
    indentation depth ++ h.encode ++ spaced (Argument.encodeAll a.arguments) ++ [';']
  | conditional h test block =>
    indentation depth ++ h.encode ++ spaced (Test.encodeOption test) ++
      encodeBlock depth block

/-- A block as it is written behind a conditional. -/
def encodeBlock (depth : Nat) : List Item → List Char
  | [] => [' ', '{', '}']
  | i :: is =>
    [' ', '{', '\r', '\n'] ++ encode (depth + 1) i ++ ['\r', '\n'] ++ encodeAll (depth + 1) is ++
      indentation depth ++ ['}']

/-- Items, each with the end of its line. -/
def encodeAll (depth : Nat) : List Item → List Char
  | [] => []
  | i :: is => encode depth i ++ ['\r', '\n'] ++ encodeAll depth is

end

/-- What is written behind the word and the comments of a command, its block apart. -/
def encodeBody : Item → List Char
  | comment _ => []
  | action _ a => Argument.encodeAll a.arguments
  | conditional _ test _ => Test.encodeOption test

end Item

namespace Script

/-- The capabilities that the top-level `require` actions name. -/
def declared (s : Script) : List String :=
  s.items.flatMap Item.declares

/-- The capabilities that the script needs and no top-level `require` names. -/
def undeclared (s : Script) : List String :=
  s.requires.filter (!s.declared.contains ·)

/-- The text of a script. -/
def render (s : Script) : String :=
  String.ofList (Item.encodeAll 0 s.items)

/-- The action that declares capabilities. -/
def requireItem (capabilities : List String) : Item :=
  .action { word := "require" } (.require capabilities)

/-- The script with what it needs and does not declare declared in front. -/
def declaredItems (s : Script) : List Item :=
  match s.undeclared with
  | [] => s.items
  | missing => requireItem missing :: s.items

/-- The text of a script that declares all it needs. -/
def renderDeclared (s : Script) : String :=
  String.ofList (Item.encodeAll 0 s.declaredItems)

end Script

end SieveScript
