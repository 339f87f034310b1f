import SieveScript.Argument.Taking
import SieveScript.Matching

/-!
# What is changed

The actions that change variables, flags and header fields, or run another script.
-/

namespace SieveScript.Action

open Taking

/-- Gives a variable a value. -/
structure Assign where
  /-- The modifier tags, in the order in which they stand. -/
  modifiers : List String := []
  name : String := ""
  value : String := ""
  deriving DecidableEq, Repr

namespace Assign

/-- The tags that modify a value. -/
def modifierTags : List String :=
  [":lower", ":upper", ":lowerfirst", ":upperfirst", ":quotewildcard", ":length"]

/-- Fills the action from arguments; modifiers are added to those it has. -/
def take (a : Assign) : Taking Assign := do
  let modifiers ← allOf modifierTags
  let value ← popString
  let name ← popString
  return { modifiers := a.modifiers ++ modifiers, name := name.getD a.name,
           value := value.getD a.value }

/-- What the action holds. -/
def arguments (a : Assign) : List Argument :=
  a.modifiers.map .tag ++ [.string a.name, .string a.value]

end Assign

/-- Flags of a message, and the variable that holds them if it is not the message's own. -/
structure Flags where
  target : Option String := none
  flags : List String := []
  deriving DecidableEq, Repr

namespace Flags

/-- Fills the flags from arguments. -/
def take (a : Flags) : Taking Flags := do
  let flags ← popStrings
  let target ← popString
  return { target, flags := flags.getD a.flags }

/-- What is held. -/
def arguments (a : Flags) : List Argument :=
  (a.target.map .string).toList ++ [.strings a.flags]

end Flags

/-- Adds a header field. -/
structure AddHeader where
  last : Bool := false
  field : String := ""
  value : String := ""
  deriving DecidableEq, Repr

namespace AddHeader

/-- Fills the action from arguments. -/
def take (a : AddHeader) : Taking AddHeader := do
  let last ← flag ":last"
  let value ← popString
  let field ← popString
  return { last, field := field.getD a.field, value := value.getD a.value }

/-- What the action holds. -/
def arguments (a : AddHeader) : List Argument :=
  Argument.ofFlag ":last" a.last ++ [.string a.field, .string a.value]

end AddHeader

/-- Deletes header fields: the only action with a match type and a comparator. -/
structure DeleteHeader where
  index : Option Number := none
  last : Bool := false
  matching : Matching := {}
  field : String := ""
  patterns : Option (List String) := none
  deriving DecidableEq, Repr

namespace DeleteHeader

/-- Fills the action from arguments. With one positional argument its first string is the field;
with two the first is the field and the second are the patterns. -/
def take (a : DeleteHeader) : Taking DeleteHeader := do
  let index ← taggedNumber ":index"
  let last ← flag ":last"
  let trailing ← popStrings
  let name ← popString
  match name with
  | some field => return { a with index, last, field, patterns := trailing }
  | none => return { a with index, last, field := (trailing.bind List.head?).getD a.field }

/-- What the action holds. -/
def arguments (a : DeleteHeader) : List Argument :=
  Argument.ofTagged ":index" .number a.index ++ Argument.ofFlag ":last" a.last ++
    a.matching.comparatorArguments ++ a.matching.matchTypeArguments ++ [.string a.field] ++
    (a.patterns.map .strings).toList

end DeleteHeader

/-- Whose scripts an included script is looked for among. -/
inductive Location where
  | personal
  | shared
  deriving DecidableEq, Repr

namespace Location

/-- The tag of a location. -/
def tag : Location → String
  | personal => ":personal"
  | shared => ":global"

/-- The location that a tag names. -/
def ofTag? : String → Option Location
  | ":personal" => some personal
  | ":global" => some shared
  | _ => none

end Location

/-- Runs another script. -/
structure Inclusion where
  location : Option Location := none
  once : Bool := false
  optional : Bool := false
  script : String := ""
  deriving DecidableEq, Repr

namespace Inclusion

/-- Fills the action from arguments. -/
def take (a : Inclusion) : Taking Inclusion := do
  let location ← oneOf [":personal", ":global"]
  let once ← flag ":once"
  let optional ← flag ":optional"
  let script ← popString
  return { location := location.bind Location.ofTag?, once, optional,
           script := script.getD a.script }

/-- What the action holds. -/
def arguments (a : Inclusion) : List Argument :=
  (a.location.map fun l => .tag l.tag).toList ++ Argument.ofFlag ":once" a.once ++
    Argument.ofFlag ":optional" a.optional ++ [.string a.script]

end Inclusion

end SieveScript.Action
