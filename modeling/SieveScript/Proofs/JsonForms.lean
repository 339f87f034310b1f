import SieveScript.Json.Tree

/-!
# JSON forms are read back

A form is lawful if what it writes is read back as the same value and is never `null`. The second
part is what lets an optional part be written as `null` without a mark: `none` and `some` cannot
meet. Records and choices are lawful part by part; a test and an item then follow their own
recursion, and there the point is that the body of a leaf or of an action never carries the name of
a case that holds further nodes.
-/

namespace SieveScript

open Json

/-- A form that is read back, and that leaves `null` to what is missing. -/
class LawfulJsonForm (α : Type) [JsonForm α] : Prop where
  ofJson?_toJson : ∀ x : α, ofJson? (toJson x) = some x
  toJson_ne_null : ∀ x : α, toJson x ≠ Json.null := by
    intro x
    cases x <;> nofun

export LawfulJsonForm (ofJson?_toJson toJson_ne_null)

attribute [simp] LawfulJsonForm.ofJson?_toJson

instance : LawfulJsonForm Bool where
  ofJson?_toJson _ := rfl
  toJson_ne_null _ := nofun

instance : LawfulJsonForm String where
  ofJson?_toJson _ := rfl
  toJson_ne_null _ := nofun

theorem ofJson?_of_ne_null {α : Type} [JsonForm α] {j : Json} (h : j ≠ .null) :
    (ofJson? j : Option (Option α)) = (ofJson? j).map some := by
  cases j with
  | null => contradiction
  | _ => rfl

section

variable {α : Type} [JsonForm α] [LawfulJsonForm α]

/-- A part that may be missing is read back, though its form is no longer lawful. -/
@[simp]
theorem ofJson?_toJson_option (x : Option α) : ofJson? (toJson x) = some x := by
  cases x with
  | none => rfl
  | some x =>
    have hread : ofJson? (toJson x) = (ofJson? (toJson x) : Option α).map some :=
      ofJson?_of_ne_null (toJson_ne_null x)
    rw [ofJson?_toJson] at hread
    exact hread

instance : LawfulJsonForm (List α) where
  ofJson?_toJson xs := by
    show (xs.map toJson).mapM ofJson? = some xs
    induction xs with
    | nil => rfl
    | cons x xs ih => simp [ih]
  toJson_ne_null _ := nofun

end

namespace Json

section

variable {α β : Type} [JsonForm α] {name name' : String} (fs : Fields)

@[simp]
theorem fields?_object : (object fs).fields? = some fs := rfl

@[simp]
theorem lookup_cons_of_ne (h : name ≠ name') (j : Json) :
    List.lookup name ((name', j) :: fs) = List.lookup name fs := by
  simp [List.lookup_cons, beq_false_of_ne h]

@[simp]
theorem part_cons_of_ne (h : name ≠ name') (j : Json) :
    (Fields.part ((name', j) :: fs) name : Option α) = Fields.part fs name := by
  simp [Fields.part, h]

@[simp]
theorem option_cons_of_ne (h : name ≠ name') (j : Json) :
    (Fields.option ((name', j) :: fs) name : Option (Option α)) = Fields.option fs name := by
  simp [Fields.option, h]

@[simp]
theorem case?_string (name : String) : (string name).case? = some (name, none) := rfl

@[simp]
theorem case?_tagged (x : α) : (tagged name x).case? = some (name, some (toJson x)) := rfl

@[simp]
theorem case?_taggedPart (part : String) (x : α) :
    (taggedPart name part x).case? = some (name, some (object [(part, toJson x)])) := rfl

@[simp]
theorem bare_none (y : β) : bare y none = some y := rfl

variable [LawfulJsonForm α] (x : α) (f : α → β)

@[simp]
theorem part_cons_self : Fields.part ((name, toJson x) :: fs) name = some x := by
  simp [Fields.part]

@[simp]
theorem option_cons_self (y : Option α) :
    Fields.option ((name, toJson y) :: fs) name = some y := by
  simp [Fields.option]

@[simp]
theorem content_toJson : content f (some (toJson x)) = some (f x) := by
  simp [content]

@[simp]
theorem single_toJson : single name f (some (object [(name, toJson x)])) = some (f x) := by
  simp [single]

end

end Json

instance : LawfulJsonForm Number where
  ofJson?_toJson _ := rfl

instance : LawfulJsonForm MultiLine where
  ofJson?_toJson _ := by
    unfold instJsonFormMultiLine
    simp

instance : LawfulJsonForm Text where
  ofJson?_toJson x := by
    unfold instJsonFormText
    cases x <;> simp

instance : LawfulJsonForm Comment where
  ofJson?_toJson x := by
    unfold instJsonFormComment
    cases x <;> simp

instance : LawfulJsonForm Argument where
  ofJson?_toJson x := by
    unfold instJsonFormArgument
    cases x <;> simp

instance : LawfulJsonForm Relation where
  ofJson?_toJson x := by
    unfold instJsonFormRelation
    cases x <;> simp

instance : LawfulJsonForm MatchType where
  ofJson?_toJson x := by
    unfold instJsonFormMatchType
    cases x <;> simp

namespace Action

instance : LawfulJsonForm FileInto where
  ofJson?_toJson _ := by
    unfold instJsonFormFileInto
    simp

instance : LawfulJsonForm Redirect where
  ofJson?_toJson _ := by
    unfold instJsonFormRedirect
    simp

instance : LawfulJsonForm Assign where
  ofJson?_toJson _ := by
    unfold instJsonFormAssign
    simp

instance : LawfulJsonForm Vacation where
  ofJson?_toJson _ := by
    unfold instJsonFormVacation
    simp

instance : LawfulJsonForm Flags where
  ofJson?_toJson _ := by
    unfold instJsonFormFlags
    simp

instance : LawfulJsonForm AddHeader where
  ofJson?_toJson _ := by
    unfold instJsonFormAddHeader
    simp

instance : LawfulJsonForm DeleteHeader where
  ofJson?_toJson _ := by
    unfold instJsonFormDeleteHeader
    simp [Matching.toFields, Matching.ofFields?]

instance : LawfulJsonForm Notify where
  ofJson?_toJson _ := by
    unfold instJsonFormNotify
    simp

instance : LawfulJsonForm Location where
  ofJson?_toJson x := by
    unfold instJsonFormLocation
    cases x <;> simp

instance : LawfulJsonForm Inclusion where
  ofJson?_toJson _ := by
    unfold instJsonFormInclusion
    simp

end Action

instance : LawfulJsonForm Action where
  ofJson?_toJson x := by
    unfold instJsonFormAction
    cases x <;> simp [Action.keepOfJson?]

namespace Condition

instance : LawfulJsonForm AddressPart where
  ofJson?_toJson x := by
    unfold instJsonFormAddressPart
    cases x <;> simp

instance : LawfulJsonForm Address where
  ofJson?_toJson _ := by
    unfold instJsonFormAddress
    simp

instance : LawfulJsonForm Header where
  ofJson?_toJson _ := by
    unfold instJsonFormHeader
    simp

instance : LawfulJsonForm Side where
  ofJson?_toJson x := by
    unfold instJsonFormSide
    cases x <;> simp

instance : LawfulJsonForm Size where
  ofJson?_toJson _ := by
    unfold instJsonFormSize
    simp

instance : LawfulJsonForm Transform where
  ofJson?_toJson x := by
    unfold instJsonFormTransform
    cases x <;> simp

instance : LawfulJsonForm Body where
  ofJson?_toJson _ := by
    unfold instJsonFormBody
    simp

instance : LawfulJsonForm HasFlag where
  ofJson?_toJson _ := by
    unfold instJsonFormHasFlag
    simp

instance : LawfulJsonForm SpamScore where
  ofJson?_toJson _ := by
    unfold instJsonFormSpamScore
    simp

instance : LawfulJsonForm Zone where
  ofJson?_toJson x := by
    unfold instJsonFormZone
    cases x <;> simp

instance : LawfulJsonForm Date where
  ofJson?_toJson _ := by
    unfold instJsonFormDate
    simp

instance : LawfulJsonForm CurrentDate where
  ofJson?_toJson _ := by
    unfold instJsonFormCurrentDate
    simp

instance : LawfulJsonForm Environment where
  ofJson?_toJson _ := by
    unfold instJsonFormEnvironment
    simp

instance : LawfulJsonForm Strings where
  ofJson?_toJson _ := by
    unfold instJsonFormStrings
    simp

instance : LawfulJsonForm MethodCapability where
  ofJson?_toJson _ := by
    unfold instJsonFormMethodCapability
    simp

instance : LawfulJsonForm Metadata where
  ofJson?_toJson _ := by
    unfold instJsonFormMetadata
    simp

instance : LawfulJsonForm MetadataExists where
  ofJson?_toJson _ := by
    unfold instJsonFormMetadataExists
    simp

end Condition

instance : LawfulJsonForm Condition where
  ofJson?_toJson x := by
    unfold instJsonFormCondition
    cases x <;> simp

namespace Test

variable (h : Head) (m : Matching)

/-- The record of a test is read through its body. -/
theorem ofJson?_record (body : Json) : ofJson? (record h m body) = bodyOfJson? h m body := by
  have hbody : List.lookup "body" ([("identifier", JsonForm.toJson h.word)] ++ m.toFields ++
      [("comments", JsonForm.toJson h.comments), ("body", body)]) = some body := by
    simp [Matching.toFields]
  rw [record, ofJson?]
  split
  · next hnone => cases hbody.symm.trans hnone
  · next hsome =>
    cases hbody.symm.trans hsome
    simp [Head.ofFields?, Matching.ofFields?, Matching.toFields]

/-- The body of a leaf is not taken for one that holds tests: such a body is no condition. -/
theorem bodyOfJson?_toJson (c : Condition) :
    bodyOfJson? h m (JsonForm.toJson c) = some (leaf h m c) := by
  have hread : JsonForm.ofJson? (JsonForm.toJson c) = some c := by simp
  rw [bodyOfJson?]
  · simp
  all_goals
    intro _ hc
    rw [hc] at hread
    cases hread

mutual

theorem ofJson?_toJson : ∀ t : Test, ofJson? t.toJson = some t
  | leaf h m c => by rw [toJson, ofJson?_record, bodyOfJson?_toJson]
  | negation h m inner => by
    rw [toJson, ofJson?_record, bodyOfJson?]
    split
    · next hnone => simp at hnone
    · next hsome =>
      rw [List.lookup_cons_self, Option.some.injEq] at hsome
      rw [← hsome, optionOfJson?_toJson inner]
      rfl
  | group h m .all ts => by
    rw [toJson, ofJson?_record, bodyOfJson?, listOfJson?_toJson ts]
    rfl
  | group h m .any ts => by
    rw [toJson, ofJson?_record, bodyOfJson?, listOfJson?_toJson ts]
    rfl

theorem optionOfJson?_toJson : ∀ t : Option Test, optionOfJson? (optionToJson t) = some t
  | none => by rw [optionToJson, optionOfJson?]
  | some t => by
    have hread := ofJson?_toJson t
    obtain ⟨fs, hfs⟩ : ∃ fs, t.toJson = object fs := by
      cases t with
      | group h m c ts => cases c <;> simp [toJson, record]
      | _ => simp [toJson, record]
    rw [optionToJson, hfs, optionOfJson?, ← hfs, hread]
    rfl

theorem listOfJson?_toJson : ∀ ts : List Test, listOfJson? (listToJson ts) = some ts
  | [] => by rw [listToJson, listOfJson?]
  | t :: ts => by
    rw [listToJson, listOfJson?, ofJson?_toJson t, listOfJson?_toJson ts]
    rfl

end

instance : LawfulJsonForm Test where
  ofJson?_toJson := Test.ofJson?_toJson
  toJson_ne_null t := by
    cases t with
    | group h m c ts => cases c <;> simp [JsonForm.toJson, toJson, record]
    | _ => simp [JsonForm.toJson, toJson, record]

end Test

namespace Item

variable (h : Head)

/-- The record of a command is read through its body. -/
theorem commandOfJson?_record (body : Json) :
    commandOfJson? (record h body) = bodyOfJson? h body := by
  have hbody : List.lookup "body" [("identifier", JsonForm.toJson h.word),
      ("comments", JsonForm.toJson h.comments), ("body", body)] = some body := by
    simp
  rw [record, commandOfJson?]
  split
  · next hnone => cases hbody.symm.trans hnone
  · next hsome =>
    cases hbody.symm.trans hsome
    simp [Head.ofFields?]

/-- The body of an action is not taken for one that holds a block. -/
theorem bodyOfJson?_toJson (a : Action) :
    bodyOfJson? h (JsonForm.toJson a) = some (action h a) := by
  have hread : JsonForm.ofJson? (JsonForm.toJson a) = some a := by simp
  rw [bodyOfJson?]
  · simp
  · intro _ ha
    rw [ha] at hread
    cases hread

mutual

theorem ofJson?_toJson : ∀ i : Item, ofJson? i.toJson = some i
  | comment c => by
    rw [toJson, tagged, ofJson?]
    simp
  | action h a => by rw [toJson, ofJson?, commandOfJson?_record, bodyOfJson?_toJson]
  | conditional h test block => by
    rw [toJson, ofJson?, commandOfJson?_record, bodyOfJson?]
    split
    · next hsome =>
      rw [lookup_cons_of_ne _ (by decide), List.lookup_cons_self, Option.some.injEq,
        Json.array.injEq] at hsome
      rw [← hsome, listOfJson?_toJson block]
      simp
    · next hnot => exact (hnot (listToJson block) (by simp)).elim

theorem listOfJson?_toJson : ∀ is : List Item, listOfJson? (listToJson is) = some is
  | [] => by rw [listToJson, listOfJson?]
  | i :: is => by
    rw [listToJson, listOfJson?, ofJson?_toJson i, listOfJson?_toJson is]
    rfl

end

instance : LawfulJsonForm Item where
  ofJson?_toJson := Item.ofJson?_toJson
  toJson_ne_null i := by cases i <;> simp [JsonForm.toJson, toJson, tagged]

end Item

/-- A script is read back from its form, whatever its tree holds. -/
theorem Script.json_roundTrip (s : Script) : (ofJson? (toJson s) : Option Script) = some s := by
  unfold instJsonFormScript
  simp

end SieveScript
