import SieveScript.Argument

/-!
# Taking arguments

A node takes what it understands out of a list of arguments: its tags first, wherever they stand,
then the positional arguments from the end. What it leaves was not understood. A step that finds
nothing leaves the list as it was.
-/

namespace SieveScript

/-- A computation that takes arguments out of a list. -/
abbrev Taking := StateM (List Argument)

namespace Taking

variable {α : Type}

/-- Takes every occurrence of a tag that has no value; whether there was one. -/
def flag (name : String) : Taking Bool :=
  fun args => (args.any (·.isTag name), args.filter (!·.isTag name))

/-- Whether the argument is one of the given tags. -/
def isOneOf (names : List String) (a : Argument) : Bool :=
  a.tag?.any names.contains

/-- Takes the first argument that is one of the given tags. -/
def oneOf (names : List String) : Taking (Option String) :=
  fun args => ((args.find? (isOneOf names)).bind Argument.tag?, args.eraseP (isOneOf names))

/-- Takes every argument that is one of the given tags. -/
def allOf (names : List String) : Taking (List String) :=
  fun args => ((args.filter (isOneOf names)).filterMap Argument.tag?,
    args.filter (!isOneOf names ·))

/-- Splits the first occurrence of a tag and the value behind it out of a list. -/
def splitTagged (convert : Argument → Option α) (name : String) :
    List Argument → Option (α × List Argument)
  | [] => none
  | a :: rest =>
    if a.isTag name then
      match rest with
      | [] => none
      | v :: rest => (convert v).map (·, rest)
    else (splitTagged convert name rest).map fun (x, rest) => (x, a :: rest)

/-- Takes the first occurrence of a tag together with the value behind it. -/
def tagged (convert : Argument → Option α) (name : String) : Taking (Option α) :=
  fun args =>
    match splitTagged convert name args with
    | some (x, rest) => (some x, rest)
    | none => (none, args)

/-- Takes the last argument. -/
def pop (convert : Argument → Option α) : Taking (Option α) :=
  fun args =>
    match args.getLast?.bind convert with
    | some x => (some x, args.dropLast)
    | none => (none, args)

/-- Takes a tag with a string. -/
def taggedString : String → Taking (Option String) :=
  tagged Argument.string?

/-- Takes a tag with strings. -/
def taggedStrings : String → Taking (Option (List String)) :=
  tagged Argument.strings?

/-- Takes a tag with a number. -/
def taggedNumber : String → Taking (Option Number) :=
  tagged Argument.number?

/-- Takes the last argument if it is no tag. -/
def popAny : Taking (Option Argument) :=
  pop Argument.positional?

/-- Takes the last argument if it is one string. -/
def popString : Taking (Option String) :=
  pop Argument.string?

/-- Takes the last argument if it is strings. -/
def popStrings : Taking (Option (List String)) :=
  pop Argument.strings?

/-- Takes the last argument if it is text. -/
def popText : Taking (Option Text) :=
  pop Argument.text?

/-- Takes the last argument if it is a number. -/
def popNumber : Taking (Option Number) :=
  pop Argument.number?

/-- Takes all arguments. -/
def everything : Taking (List Argument) :=
  fun args => (args, [])

end Taking

end SieveScript
