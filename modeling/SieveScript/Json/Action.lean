import SieveScript.Json.Literals
import SieveScript.Action

/-!
# JSON forms of actions
-/

namespace SieveScript

open Json

namespace Action

instance : JsonForm FileInto where
  toJson a := .object [("copy", toJson a.copy), ("create", toJson a.create),
    ("flags", toJson a.flags), ("mailbox", toJson a.mailbox)]
  ofJson? j := do
    let fs ← j.fields?
    return { copy := ← fs.part "copy", create := ← fs.part "create",
             flags := ← fs.option "flags", mailbox := ← fs.part "mailbox" }

instance : JsonForm Redirect where
  toJson a := .object [("copy", toJson a.copy), ("address", toJson a.address)]
  ofJson? j := do
    let fs ← j.fields?
    return { copy := ← fs.part "copy", address := ← fs.part "address" }

instance : JsonForm Assign where
  toJson a := .object [("modifiers", toJson a.modifiers), ("name", toJson a.name),
    ("value", toJson a.value)]
  ofJson? j := do
    let fs ← j.fields?
    return { modifiers := ← fs.part "modifiers", name := ← fs.part "name",
             value := ← fs.part "value" }

instance : JsonForm Vacation where
  toJson a := .object [("days", toJson a.days), ("seconds", toJson a.seconds),
    ("subject", toJson a.subject), ("from", toJson a.sender), ("addresses", toJson a.addresses),
    ("mime", toJson a.mime), ("handle", toJson a.handle), ("reason", toJson a.reason)]
  ofJson? j := do
    let fs ← j.fields?
    return { days := ← fs.option "days", seconds := ← fs.option "seconds",
             subject := ← fs.option "subject", sender := ← fs.option "from",
             addresses := ← fs.option "addresses", mime := ← fs.part "mime",
             handle := ← fs.option "handle", reason := ← fs.part "reason" }

instance : JsonForm Flags where
  toJson a := .object [("variable", toJson a.target), ("flags", toJson a.flags)]
  ofJson? j := do
    let fs ← j.fields?
    return { target := ← fs.option "variable", flags := ← fs.part "flags" }

instance : JsonForm AddHeader where
  toJson a := .object [("last", toJson a.last), ("field_name", toJson a.field),
    ("value", toJson a.value)]
  ofJson? j := do
    let fs ← j.fields?
    return { last := ← fs.part "last", field := ← fs.part "field_name",
             value := ← fs.part "value" }

instance : JsonForm DeleteHeader where
  toJson a := .object ([("index", toJson a.index), ("last", toJson a.last)] ++
    a.matching.toFields ++
    [("field_name", toJson a.field), ("value_patterns", toJson a.patterns)])
  ofJson? j := do
    let fs ← j.fields?
    return { index := ← fs.option "index", last := ← fs.part "last",
             matching := ← Matching.ofFields? fs, field := ← fs.part "field_name",
             patterns := ← fs.option "value_patterns" }

instance : JsonForm Notify where
  toJson a := .object [("from", toJson a.sender), ("importance", toJson a.importance),
    ("options", toJson a.options), ("message", toJson a.message), ("method", toJson a.method)]
  ofJson? j := do
    let fs ← j.fields?
    return { sender := ← fs.option "from", importance := ← fs.option "importance",
             options := ← fs.option "options", message := ← fs.option "message",
             method := ← fs.part "method" }

instance : JsonForm Location where
  toJson
    | .personal => .string "Personal"
    | .shared => .string "Global"
  ofJson? j := do
    match ← j.case? with
    | ("Personal", c) => bare .personal c
    | ("Global", c) => bare .shared c
    | _ => none

instance : JsonForm Inclusion where
  toJson a := .object [("location", toJson a.location), ("once", toJson a.once),
    ("optional", toJson a.optional), ("value", toJson a.script)]
  ofJson? j := do
    let fs ← j.fields?
    return { location := ← fs.option "location", once := ← fs.part "once",
             optional := ← fs.part "optional", script := ← fs.part "value" }

/-- Reads the flags that `keep` may carry. -/
def keepOfJson? : Option Json → Option Action
  | some (.object fs) => (Fields.option fs "flags").map keep
  | _ => none

end Action

instance : JsonForm Action where
  toJson
    | .require capabilities => taggedPart "Require" "capabilities" capabilities
    | .stop => .string "Stop"
    | .keep flags => taggedPart "Keep" "flags" flags
    | .discard => .string "Discard"
    | .fileInto a => tagged "FileInto" a
    | .redirect a => tagged "Redirect" a
    | .assign a => tagged "Set" a
    | .vacation a => tagged "Vacation" a
    | .setFlags a => tagged "SetFlag" a
    | .addFlags a => tagged "AddFlag" a
    | .removeFlags a => tagged "RemoveFlag" a
    | .addHeader a => tagged "AddHeader" a
    | .deleteHeader a => tagged "DeleteHeader" a
    | .reject reason => taggedPart "Reject" "reason" reason
    | .earlyReject reason => taggedPart "Ereject" "reason" reason
    | .notify a => tagged "Notify" a
    | .error message => taggedPart "Error" "message" message
    | .inclusion a => tagged "Include" a
    | .leave => .string "Return"
    | .placeholder args => taggedPart "Generic" "arguments" args
  ofJson? j := do
    match ← j.case? with
    | ("Require", c) => single "capabilities" Action.require c
    | ("Stop", c) => bare .stop c
    | ("Keep", c) => Action.keepOfJson? c
    | ("Discard", c) => bare .discard c
    | ("FileInto", c) => content Action.fileInto c
    | ("Redirect", c) => content Action.redirect c
    | ("Set", c) => content Action.assign c
    | ("Vacation", c) => content Action.vacation c
    | ("SetFlag", c) => content Action.setFlags c
    | ("AddFlag", c) => content Action.addFlags c
    | ("RemoveFlag", c) => content Action.removeFlags c
    | ("AddHeader", c) => content Action.addHeader c
    | ("DeleteHeader", c) => content Action.deleteHeader c
    | ("Reject", c) => single "reason" Action.reject c
    | ("Ereject", c) => single "reason" Action.earlyReject c
    | ("Notify", c) => content Action.notify c
    | ("Error", c) => single "message" Action.error c
    | ("Include", c) => content Action.inclusion c
    | ("Return", c) => bare .leave c
    | ("Generic", c) => single "arguments" Action.placeholder c
    | _ => none

end SieveScript
