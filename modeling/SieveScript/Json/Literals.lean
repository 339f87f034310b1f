import SieveScript.Json.Form
import SieveScript.Comment
import SieveScript.Matching

/-!
# JSON forms of literals, arguments and matchings
-/

namespace SieveScript

open Json

instance : JsonForm Number where
  toJson n := .string n.text
  ofJson? j := (ofJson? j).map Number.mk

instance : JsonForm MultiLine where
  toJson m := .object [("value", toJson m.value), ("comment", toJson m.comment)]
  ofJson? j := do
    let fs ← j.fields?
    return { value := ← fs.part "value", comment := ← fs.option "comment" }

instance : JsonForm Text where
  toJson
    | .quoted v => tagged "Quoted" v
    | .multiLine m => tagged "MultiLine" m
  ofJson? j := do
    match ← j.case? with
    | ("Quoted", c) => content Text.quoted c
    | ("MultiLine", c) => content Text.multiLine c
    | _ => none

instance : JsonForm Comment where
  toJson
    | .hash t => tagged "Hash" t
    | .bracket t => tagged "Bracket" t
  ofJson? j := do
    match ← j.case? with
    | ("Hash", c) => content Comment.hash c
    | ("Bracket", c) => content Comment.bracket c
    | _ => none

instance : JsonForm Argument where
  toJson
    | .tag t => tagged "Tag" t
    | .string v => tagged "String" v
    | .multiLine m => tagged "MultiLine" m
    | .strings vs => tagged "StringList" vs
    | .number n => tagged "Number" n
  ofJson? j := do
    match ← j.case? with
    | ("Tag", c) => content Argument.tag c
    | ("String", c) => content Argument.string c
    | ("MultiLine", c) => content Argument.multiLine c
    | ("StringList", c) => content Argument.strings c
    | ("Number", c) => content Argument.number c
    | _ => none

instance : JsonForm Relation where
  toJson
    | .gt => .string "Gt"
    | .ge => .string "Ge"
    | .lt => .string "Lt"
    | .le => .string "Le"
    | .eq => .string "Eq"
    | .ne => .string "Ne"
  ofJson? j := do
    match ← j.case? with
    | ("Gt", c) => bare .gt c
    | ("Ge", c) => bare .ge c
    | ("Lt", c) => bare .lt c
    | ("Le", c) => bare .le c
    | ("Eq", c) => bare .eq c
    | ("Ne", c) => bare .ne c
    | _ => none

instance : JsonForm MatchType where
  toJson
    | .same => .string "Is"
    | .contains => .string "Contains"
    | .wildcard => .string "Matches"
    | .regex => .string "Regex"
    | .value r => tagged "Value" r
    | .count r => tagged "Count" r
  ofJson? j := do
    match ← j.case? with
    | ("Is", c) => bare .same c
    | ("Contains", c) => bare .contains c
    | ("Matches", c) => bare .wildcard c
    | ("Regex", c) => bare .regex c
    | ("Value", c) => content MatchType.value c
    | ("Count", c) => content MatchType.count c
    | _ => none

namespace Matching

/-- The fields of a matching inside the record of a node. -/
def toFields (m : Matching) : Fields :=
  [("match_type", toJson m.matchType), ("comparator", toJson m.comparator)]

/-- The matching among the fields of a node. -/
def ofFields? (fs : Fields) : Option Matching := do
  return { matchType := ← fs.option "match_type", comparator := ← fs.option "comparator" }

end Matching

end SieveScript
