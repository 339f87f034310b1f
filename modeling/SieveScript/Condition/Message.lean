import SieveScript.Argument.Taking

/-!
# What a message is like

The conditions on the header, the body and the size of a message.
-/

namespace SieveScript.Condition

open Taking

/-- A part of a mail address. -/
inductive AddressPart where
  | whole
  | localPart
  | domain
  | user
  | detail
  deriving DecidableEq, Repr

namespace AddressPart

/-- The tag of a part. -/
def tag : AddressPart → String
  | whole => ":all"
  | localPart => ":localpart"
  | domain => ":domain"
  | user => ":user"
  | detail => ":detail"

/-- The part that a tag names. -/
def ofTag? : String → Option AddressPart
  | ":all" => some whole
  | ":localpart" => some localPart
  | ":domain" => some domain
  | ":user" => some user
  | ":detail" => some detail
  | _ => none

end AddressPart

/-- Compares addresses of a message or of its envelope. -/
structure Address where
  part : Option AddressPart := none
  headers : List String := []
  keys : List String := []
  deriving DecidableEq, Repr

namespace Address

/-- Fills the condition from arguments. -/
def take (c : Address) : Taking Address := do
  let part ← oneOf [":all", ":localpart", ":domain", ":user", ":detail"]
  let keys ← popStrings
  let headers ← popStrings
  return { part := part.bind AddressPart.ofTag?, headers := headers.getD c.headers,
           keys := keys.getD c.keys }

/-- What the condition holds. -/
def arguments (c : Address) : List Argument :=
  (c.part.map fun p => .tag p.tag).toList ++ [.strings c.headers, .strings c.keys]

end Address

/-- Compares header fields. -/
structure Header where
  names : List String := []
  keys : List String := []
  deriving DecidableEq, Repr

namespace Header

/-- Fills the condition from arguments. -/
def take (c : Header) : Taking Header := do
  let keys ← popStrings
  let names ← popStrings
  return { names := names.getD c.names, keys := keys.getD c.keys }

/-- What the condition holds. -/
def arguments (c : Header) : List Argument :=
  [.strings c.names, .strings c.keys]

end Header

/-- On which side of a limit a size lies. -/
inductive Side where
  | above
  | below
  deriving DecidableEq, Repr

namespace Side

/-- The tag of a side. -/
def tag : Side → String
  | above => ":over"
  | below => ":under"

/-- The side that a tag names. -/
def ofTag? : String → Option Side
  | ":over" => some above
  | ":under" => some below
  | _ => none

end Side

/-- Compares the size of a message with a limit. -/
structure Size where
  side : Side := .above
  limit : Number := ⟨"0"⟩
  deriving DecidableEq, Repr

namespace Size

/-- Fills the condition from arguments. -/
def take (c : Size) : Taking Size := do
  let side ← oneOf [":over", ":under"]
  let limit ← popNumber
  return { side := (side.bind Side.ofTag?).getD c.side, limit := limit.getD c.limit }

/-- What the condition holds. -/
def arguments (c : Size) : List Argument :=
  [.tag c.side.tag, .number c.limit]

end Size

/-- What a body is turned into before it is compared. -/
inductive Transform where
  | raw
  /-- Only the parts of the given content types. -/
  | content (types : List String)
  | text
  deriving DecidableEq, Repr

namespace Transform

/-- The transform as arguments. -/
def arguments : Transform → List Argument
  | raw => [.tag ":raw"]
  | content types => [.tag ":content", .strings types]
  | text => [.tag ":text"]

/-- Takes a transform: content types win over `:raw`, and `:raw` over `:text`. -/
def take : Taking (Option Transform) := do
  match ← taggedStrings ":content" with
  | some types => return some (content types)
  | none =>
    if ← flag ":raw" then return some raw
    else if ← flag ":text" then return some text
    else return none

end Transform

/-- Compares the body of a message. -/
structure Body where
  transform : Option Transform := none
  keys : List String := []
  deriving DecidableEq, Repr

namespace Body

/-- Fills the condition from arguments. -/
def take (c : Body) : Taking Body := do
  let transform ← Transform.take
  let keys ← popStrings
  return { transform, keys := keys.getD c.keys }

/-- What the condition holds. -/
def arguments (c : Body) : List Argument :=
  c.transform.elim [] Transform.arguments ++ [.strings c.keys]

end Body

/-- Looks for flags of a message, or in variables. -/
structure HasFlag where
  sources : Option (List String) := none
  flags : List String := []
  deriving DecidableEq, Repr

namespace HasFlag

/-- Fills the condition from arguments. -/
def take (c : HasFlag) : Taking HasFlag := do
  let flags ← popStrings
  let sources ← popStrings
  return { sources, flags := flags.getD c.flags }

/-- What the condition holds. -/
def arguments (c : HasFlag) : List Argument :=
  (c.sources.map .strings).toList ++ [.strings c.flags]

end HasFlag

/-- Compares the spam score of a message. -/
structure SpamScore where
  percent : Bool := false
  value : String := ""
  deriving DecidableEq, Repr

namespace SpamScore

/-- Fills the condition from arguments. -/
def take (c : SpamScore) : Taking SpamScore := do
  let percent ← flag ":percent"
  let value ← popString
  return { percent, value := value.getD c.value }

/-- What the condition holds. -/
def arguments (c : SpamScore) : List Argument :=
  Argument.ofFlag ":percent" c.percent ++ [.string c.value]

end SpamScore

end SieveScript.Condition
