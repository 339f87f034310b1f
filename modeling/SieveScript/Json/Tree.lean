import SieveScript.Json.Action
import SieveScript.Json.Condition
import SieveScript.Tree

/-!
# The JSON form of a tree

A node is a record of its word, its comments and its body. The body of a negation, a group or a
conditional holds further nodes; any other body is an action or a condition.
-/

namespace SieveScript

open Json

namespace Head

/-- The word and the comments among the fields of a node. -/
def ofFields? (fs : Fields) : Option Head := do
  return { word := ← fs.part "identifier", comments := ← fs.part "comments" }

end Head

namespace Test

/-- The record of a test with the given body. -/
def record (h : Head) (m : Matching) (body : Json) : Json :=
  .object ([("identifier", toJson h.word)] ++ m.toFields ++
    [("comments", toJson h.comments), ("body", body)])

mutual

/-- The form of a test. -/
def toJson : Test → Json
  | leaf h m c => record h m (JsonForm.toJson c)
  | negation h m inner =>
    record h m (.object [("Not", .object [("test", optionToJson inner)])])
  | group h m .all ts => record h m (.object [("AllOf", .array (listToJson ts))])
  | group h m .any ts => record h m (.object [("AnyOf", .array (listToJson ts))])

/-- The form of a test that may be missing. -/
def optionToJson : Option Test → Json
  | none => .null
  | some t => toJson t

/-- The forms of the tests of a group. -/
def listToJson : List Test → List Json
  | [] => []
  | t :: ts => toJson t :: listToJson ts

end

mutual

/-- Reads a test. -/
def ofJson? (j : Json) : Option Test :=
  match j with
  | .object fs =>
    match _h : List.lookup "body" fs with
    | none => none
    | some body => do
      let h ← Head.ofFields? fs
      let m ← Matching.ofFields? fs
      bodyOfJson? h m body
  | _ => none
termination_by sizeOf j
decreasing_by
  have := sizeOf_lookup _h
  simp only [Json.object.sizeOf_spec]
  omega

/-- Reads the body of a test with the given word and matching. -/
def bodyOfJson? (h : Head) (m : Matching) (j : Json) : Option Test :=
  match j with
  | .object [("Not", .object fs)] =>
    match _h : List.lookup "test" fs with
    | none => some (negation h m none)
    | some t => (optionOfJson? t).map (negation h m)
  | .object [("AllOf", .array ts)] => (listOfJson? ts).map (group h m .all)
  | .object [("AnyOf", .array ts)] => (listOfJson? ts).map (group h m .any)
  | j => (JsonForm.ofJson? j).map (leaf h m)
termination_by sizeOf j
decreasing_by
  · have := sizeOf_lookup _h
    simp
    omega
  · simp; omega
  · simp; omega

/-- Reads a test that may be missing. -/
def optionOfJson? (j : Json) : Option (Option Test) :=
  match j with
  | .null => some none
  | .object fs => (ofJson? (.object fs)).map some
  | _ => none
termination_by sizeOf j + 1

/-- Reads the tests of a group. -/
def listOfJson? (js : List Json) : Option (List Test) :=
  match js with
  | [] => some []
  | j :: js => do
    let t ← ofJson? j
    let ts ← listOfJson? js
    return t :: ts
termination_by sizeOf js

end

instance : JsonForm Test := ⟨toJson, ofJson?⟩

end Test

namespace Item

/-- The record of a command with the given body. -/
def record (h : Head) (body : Json) : Json :=
  .object [("identifier", JsonForm.toJson h.word), ("comments", JsonForm.toJson h.comments),
    ("body", body)]

mutual

/-- The form of an item. -/
def toJson : Item → Json
  | comment c => tagged "Comment" c
  | action h a => .object [("Command", record h (JsonForm.toJson a))]
  | conditional h test block =>
    .object [("Command", record h (.object [("Conditional",
      .object [("test", JsonForm.toJson test), ("commands", .array (listToJson block))])]))]

/-- The forms of the items of a block. -/
def listToJson : List Item → List Json
  | [] => []
  | i :: is => toJson i :: listToJson is

end

mutual

/-- Reads an item. -/
def ofJson? (j : Json) : Option Item :=
  match j with
  | .object [("Command", c)] => commandOfJson? c
  | .object [("Comment", c)] => (JsonForm.ofJson? c).map comment
  | _ => none
termination_by sizeOf j

/-- Reads a command. -/
def commandOfJson? (j : Json) : Option Item :=
  match j with
  | .object fs =>
    match _h : List.lookup "body" fs with
    | none => none
    | some body => do
      let h ← Head.ofFields? fs
      bodyOfJson? h body
  | _ => none
termination_by sizeOf j
decreasing_by
  have := sizeOf_lookup _h
  simp only [Json.object.sizeOf_spec]
  omega

/-- Reads the body of a command with the given word. -/
def bodyOfJson? (h : Head) (j : Json) : Option Item :=
  match j with
  | .object [("Conditional", .object fs)] =>
    match _h : List.lookup "commands" fs with
    | some (.array is) => do
      let test ← Fields.option fs "test"
      let block ← listOfJson? is
      return conditional h test block
    | _ => none
  | j => (JsonForm.ofJson? j).map (action h)
termination_by sizeOf j
decreasing_by
  have := sizeOf_lookup _h
  simp at this ⊢
  omega

/-- Reads the items of a block. -/
def listOfJson? (js : List Json) : Option (List Item) :=
  match js with
  | [] => some []
  | j :: js => do
    let i ← ofJson? j
    let is ← listOfJson? js
    return i :: is
termination_by sizeOf js

end

instance : JsonForm Item := ⟨toJson, ofJson?⟩

end Item

instance : JsonForm Script where
  toJson s := .object [("items", toJson s.items), ("requires", toJson s.requires)]
  ofJson? j := do
    let fs ← j.fields?
    return { items := ← fs.part "items", requires := ← fs.part "requires" }

namespace Node

/-- The form of a node that is a command or a test. -/
def toJson : Node → Json
  | item i => i.toJson
  | test t => .object [("Test", t.toJson)]

end Node

end SieveScript
