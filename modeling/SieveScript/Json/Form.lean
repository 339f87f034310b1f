import SieveScript.Json

/-!
# JSON forms

A type with a JSON form can be written as a JSON value and read back. A record is an object with a
field for each part; a part that may be missing is `null`, or its field is left out. A choice is an
object with one field, named for the chosen case, or only the name if the case has no content.
-/

namespace SieveScript

/-- A type whose values have a form in JSON. -/
class JsonForm (α : Type) where
  toJson : α → Json
  ofJson? : Json → Option α

export JsonForm (toJson ofJson?)

instance : JsonForm Bool where
  toJson := .bool
  ofJson?
    | .bool b => some b
    | _ => none

instance : JsonForm String where
  toJson := .string
  ofJson?
    | .string s => some s
    | _ => none

instance {α : Type} [JsonForm α] : JsonForm (Option α) where
  toJson
    | none => .null
    | some x => toJson x
  ofJson?
    | .null => some none
    | j => (ofJson? j).map some

instance {α : Type} [JsonForm α] : JsonForm (List α) where
  toJson xs := .array (xs.map toJson)
  ofJson?
    | .array js => js.mapM ofJson?
    | _ => none

namespace Json

/-- The fields of an object. -/
abbrev Fields := List (String × Json)

/-- The fields of a value that is an object. -/
def fields? : Json → Option Fields
  | object fs => some fs
  | _ => none

/-- The value of a field. -/
def get? (name : String) (j : Json) : Option Json :=
  j.fields?.bind (List.lookup name)

/-- A part of a record. -/
def Fields.part {α : Type} [JsonForm α] (fs : Fields) (name : String) : Option α :=
  (List.lookup name fs).bind ofJson?

/-- A part of a record that may be left out. -/
def Fields.option {α : Type} [JsonForm α] (fs : Fields) (name : String) : Option (Option α) :=
  match List.lookup name fs with
  | none => some none
  | some j => ofJson? j

/-- A case with content. -/
def tagged {α : Type} [JsonForm α] (name : String) (x : α) : Json :=
  object [(name, toJson x)]

/-- A case whose content is a record with a single part. -/
def taggedPart {α : Type} [JsonForm α] (name part : String) (x : α) : Json :=
  object [(name, object [(part, toJson x)])]

/-- The name of the case of a choice, and its content if there is any. -/
def case? : Json → Option (String × Option Json)
  | string name => some (name, none)
  | object [(name, content)] => some (name, some content)
  | _ => none

/-- The value of a case without content. -/
def bare {α : Type} (x : α) : Option Json → Option α
  | none | some null => some x
  | some _ => none

/-- The value of a case with content. -/
def content {α β : Type} [JsonForm α] (f : α → β) : Option Json → Option β
  | some j => (ofJson? j).map f
  | none => none

/-- The value of a case whose content is a record with a single part. -/
def single {α β : Type} [JsonForm α] (name : String) (f : α → β) : Option Json → Option β
  | some (object fs) => (Fields.part fs name).map f
  | _ => none

/-- A field is smaller than the object that holds it. -/
theorem sizeOf_lookup {name : String} {fs : Fields} {j : Json}
    (h : List.lookup name fs = some j) : sizeOf j < sizeOf fs := by
  induction fs with
  | nil => simp at h
  | cons f fs ih =>
    obtain ⟨k, v⟩ := f
    rw [List.lookup_cons] at h
    simp only [List.cons.sizeOf_spec, Prod.mk.sizeOf_spec]
    split at h
    · cases h
      omega
    · have := ih h
      omega

end Json

end SieveScript
