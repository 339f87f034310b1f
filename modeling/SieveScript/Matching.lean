import SieveScript.Argument

/-!
# Matching

How a test, or an action that looks for header fields, compares strings: a match type and a
comparator. Both are tagged arguments that any test may carry, and some of them need a capability.
-/

namespace SieveScript

/-- A relation between two values. -/
inductive Relation where
  | gt
  | ge
  | lt
  | le
  | eq
  | ne
  deriving DecidableEq, Repr

namespace Relation

/-- The word for a relation. -/
def word : Relation → String
  | gt => "gt"
  | ge => "ge"
  | lt => "lt"
  | le => "le"
  | eq => "eq"
  | ne => "ne"

/-- The relation that a word names. -/
def ofWord? : String → Option Relation
  | "gt" => some gt
  | "ge" => some ge
  | "lt" => some lt
  | "le" => some le
  | "eq" => some eq
  | "ne" => some ne
  | _ => none

end Relation

/-- How strings are compared. -/
inductive MatchType where
  /-- `:is`: the strings are the same. -/
  | same
  /-- `:contains`: one string is a part of the other. -/
  | contains
  /-- `:matches`: the string fits a pattern with wildcards. -/
  | wildcard
  /-- `:regex`: the string fits a regular expression. -/
  | regex
  /-- `:value`: the values are related. -/
  | value (r : Relation)
  /-- `:count`: the number of values is related. -/
  | count (r : Relation)
  deriving DecidableEq, Repr

namespace MatchType

/-- The match type of a tag that has no value. -/
def ofTag? : String → Option MatchType
  | ":is" => some same
  | ":contains" => some contains
  | ":matches" => some wildcard
  | ":regex" => some regex
  | _ => none

/-- The match type of a tag whose value is a relation. -/
def ofRelation? : String → Relation → Option MatchType
  | ":value", r => some (value r)
  | ":count", r => some (count r)
  | _, _ => none

/-- The capability that a script needs for the match type. -/
def capability? : MatchType → Option String
  | same | contains | wildcard => none
  | regex => some "regex"
  | value _ | count _ => some "relational"

/-- The match type as arguments. -/
def arguments : MatchType → List Argument
  | same => [.tag ":is"]
  | contains => [.tag ":contains"]
  | wildcard => [.tag ":matches"]
  | regex => [.tag ":regex"]
  | value r => [.tag ":value", .string r.word]
  | count r => [.tag ":count", .string r.word]

end MatchType

/-- The match type and the comparator of a node, where they are given. -/
structure Matching where
  matchType : Option MatchType := none
  comparator : Option String := none
  deriving DecidableEq, Repr

namespace Matching

/-- The comparators that need no capability. -/
def builtin : List String :=
  ["i;octet", "i;ascii-casemap"]

/-- The capability that a script needs for a comparator. -/
def comparatorCapability? (name : String) : Option String :=
  if builtin.contains name then none else some ("comparator-" ++ name)

/-- The match type as arguments. -/
def matchTypeArguments (m : Matching) : List Argument :=
  m.matchType.elim [] MatchType.arguments

/-- The comparator as arguments. -/
def comparatorArguments (m : Matching) : List Argument :=
  Argument.ofTagged ":comparator" .string m.comparator

end Matching

end SieveScript
