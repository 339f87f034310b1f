import SieveScript.Argument.Taking

/-!
# What surrounds a message

The conditions on the time, on variables, and on the mail store that runs the script.
-/

namespace SieveScript.Condition

open Taking

/-- The time zone in which a date is read. -/
inductive Zone where
  /-- The zone with the given offset. -/
  | offset (text : String)
  /-- The zone that the date itself gives. -/
  | ofDate
  deriving DecidableEq, Repr

namespace Zone

/-- The zone as arguments. -/
def arguments : Zone → List Argument
  | offset text => [.tag ":zone", .string text]
  | ofDate => [.tag ":originalzone"]

/-- Takes a zone: a given offset wins over the zone of the date. -/
def take : Taking (Option Zone) := do
  match ← taggedString ":zone" with
  | some text => return some (offset text)
  | none => if ← flag ":originalzone" then return some ofDate else return none

end Zone

/-- Compares a date in a header field. -/
structure Date where
  zone : Option Zone := none
  header : String := ""
  part : String := ""
  keys : List String := []
  deriving DecidableEq, Repr

namespace Date

/-- Fills the condition from arguments. -/
def take (c : Date) : Taking Date := do
  let zone ← Zone.take
  let keys ← popStrings
  let part ← popString
  let header ← popString
  return { zone, header := header.getD c.header, part := part.getD c.part,
           keys := keys.getD c.keys }

/-- What the condition holds. -/
def arguments (c : Date) : List Argument :=
  c.zone.elim [] Zone.arguments ++ [.string c.header, .string c.part, .strings c.keys]

end Date

/-- Compares the time at which the script runs. -/
structure CurrentDate where
  zone : Option Zone := none
  part : String := ""
  keys : List String := []
  deriving DecidableEq, Repr

namespace CurrentDate

/-- Fills the condition from arguments. -/
def take (c : CurrentDate) : Taking CurrentDate := do
  let zone ← Zone.take
  let keys ← popStrings
  let part ← popString
  return { zone, part := part.getD c.part, keys := keys.getD c.keys }

/-- What the condition holds. -/
def arguments (c : CurrentDate) : List Argument :=
  c.zone.elim [] Zone.arguments ++ [.string c.part, .strings c.keys]

end CurrentDate

/-- Compares a property of the environment. -/
structure Environment where
  name : String := ""
  keys : List String := []
  deriving DecidableEq, Repr

namespace Environment

/-- Fills the condition from arguments. -/
def take (c : Environment) : Taking Environment := do
  let keys ← popStrings
  let name ← popString
  return { name := name.getD c.name, keys := keys.getD c.keys }

/-- What the condition holds. -/
def arguments (c : Environment) : List Argument :=
  [.string c.name, .strings c.keys]

end Environment

/-- Compares strings, in which variables are replaced by their values. -/
structure Strings where
  sources : List String := []
  keys : List String := []
  deriving DecidableEq, Repr

namespace Strings

/-- Fills the condition from arguments. -/
def take (c : Strings) : Taking Strings := do
  let keys ← popStrings
  let sources ← popStrings
  return { sources := sources.getD c.sources, keys := keys.getD c.keys }

/-- What the condition holds. -/
def arguments (c : Strings) : List Argument :=
  [.strings c.sources, .strings c.keys]

end Strings

/-- Compares what a way of notifying is able to do. -/
structure MethodCapability where
  uri : String := ""
  capability : String := ""
  keys : List String := []
  deriving DecidableEq, Repr

namespace MethodCapability

/-- Fills the condition from arguments. -/
def take (c : MethodCapability) : Taking MethodCapability := do
  let keys ← popStrings
  let capability ← popString
  let uri ← popString
  return { uri := uri.getD c.uri, capability := capability.getD c.capability,
           keys := keys.getD c.keys }

/-- What the condition holds. -/
def arguments (c : MethodCapability) : List Argument :=
  [.string c.uri, .string c.capability, .strings c.keys]

end MethodCapability

/-- Compares metadata of a mailbox. -/
structure Metadata where
  mailbox : String := ""
  name : String := ""
  keys : List String := []
  deriving DecidableEq, Repr

namespace Metadata

/-- Fills the condition from arguments. -/
def take (c : Metadata) : Taking Metadata := do
  let keys ← popStrings
  let name ← popString
  let mailbox ← popString
  return { mailbox := mailbox.getD c.mailbox, name := name.getD c.name,
           keys := keys.getD c.keys }

/-- What the condition holds. -/
def arguments (c : Metadata) : List Argument :=
  [.string c.mailbox, .string c.name, .strings c.keys]

end Metadata

/-- Looks for metadata of a mailbox. -/
structure MetadataExists where
  mailbox : String := ""
  names : List String := []
  deriving DecidableEq, Repr

namespace MetadataExists

/-- Fills the condition from arguments. -/
def take (c : MetadataExists) : Taking MetadataExists := do
  let names ← popStrings
  let mailbox ← popString
  return { mailbox := mailbox.getD c.mailbox, names := names.getD c.names }

/-- What the condition holds. -/
def arguments (c : MetadataExists) : List Argument :=
  [.string c.mailbox, .strings c.names]

end MetadataExists

end SieveScript.Condition
