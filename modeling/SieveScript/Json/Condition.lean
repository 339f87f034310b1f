import SieveScript.Json.Literals
import SieveScript.Condition

/-!
# JSON forms of conditions
-/

namespace SieveScript

open Json

namespace Condition

instance : JsonForm AddressPart where
  toJson
    | .whole => .string "All"
    | .localPart => .string "Localpart"
    | .domain => .string "Domain"
    | .user => .string "User"
    | .detail => .string "Detail"
  ofJson? j := do
    match ← j.case? with
    | ("All", c) => bare .whole c
    | ("Localpart", c) => bare .localPart c
    | ("Domain", c) => bare .domain c
    | ("User", c) => bare .user c
    | ("Detail", c) => bare .detail c
    | _ => none

instance : JsonForm Address where
  toJson c := .object [("address_part", toJson c.part), ("header_list", toJson c.headers),
    ("key_list", toJson c.keys)]
  ofJson? j := do
    let fs ← j.fields?
    return { part := ← fs.option "address_part", headers := ← fs.part "header_list",
             keys := ← fs.part "key_list" }

instance : JsonForm Header where
  toJson c := .object [("header_names", toJson c.names), ("key_list", toJson c.keys)]
  ofJson? j := do
    let fs ← j.fields?
    return { names := ← fs.part "header_names", keys := ← fs.part "key_list" }

instance : JsonForm Side where
  toJson
    | .above => .string "Over"
    | .below => .string "Under"
  ofJson? j := do
    match ← j.case? with
    | ("Over", c) => bare .above c
    | ("Under", c) => bare .below c
    | _ => none

instance : JsonForm Size where
  toJson c := .object [("comparator", toJson c.side), ("limit", toJson c.limit)]
  ofJson? j := do
    let fs ← j.fields?
    return { side := ← fs.part "comparator", limit := ← fs.part "limit" }

instance : JsonForm Transform where
  toJson
    | .raw => .string "Raw"
    | .content types => tagged "Content" types
    | .text => .string "Text"
  ofJson? j := do
    match ← j.case? with
    | ("Raw", c) => bare .raw c
    | ("Content", c) => Json.content Transform.content c
    | ("Text", c) => bare .text c
    | _ => none

instance : JsonForm Body where
  toJson c := .object [("transform", toJson c.transform), ("key_list", toJson c.keys)]
  ofJson? j := do
    let fs ← j.fields?
    return { transform := ← fs.option "transform", keys := ← fs.part "key_list" }

instance : JsonForm HasFlag where
  toJson c := .object [("variables", toJson c.sources), ("flags", toJson c.flags)]
  ofJson? j := do
    let fs ← j.fields?
    return { sources := ← fs.option "variables", flags := ← fs.part "flags" }

instance : JsonForm SpamScore where
  toJson c := .object [("percent", toJson c.percent), ("value", toJson c.value)]
  ofJson? j := do
    let fs ← j.fields?
    return { percent := ← fs.part "percent", value := ← fs.part "value" }

instance : JsonForm Zone where
  toJson
    | .offset text => tagged "Zone" text
    | .ofDate => .string "Original"
  ofJson? j := do
    match ← j.case? with
    | ("Zone", c) => Json.content Zone.offset c
    | ("Original", c) => bare .ofDate c
    | _ => none

instance : JsonForm Date where
  toJson c := .object [("zone", toJson c.zone), ("header_name", toJson c.header),
    ("date_part", toJson c.part), ("key_list", toJson c.keys)]
  ofJson? j := do
    let fs ← j.fields?
    return { zone := ← fs.option "zone", header := ← fs.part "header_name",
             part := ← fs.part "date_part", keys := ← fs.part "key_list" }

instance : JsonForm CurrentDate where
  toJson c := .object [("zone", toJson c.zone), ("date_part", toJson c.part),
    ("key_list", toJson c.keys)]
  ofJson? j := do
    let fs ← j.fields?
    return { zone := ← fs.option "zone", part := ← fs.part "date_part",
             keys := ← fs.part "key_list" }

instance : JsonForm Environment where
  toJson c := .object [("name", toJson c.name), ("key_list", toJson c.keys)]
  ofJson? j := do
    let fs ← j.fields?
    return { name := ← fs.part "name", keys := ← fs.part "key_list" }

instance : JsonForm Strings where
  toJson c := .object [("source", toJson c.sources), ("key_list", toJson c.keys)]
  ofJson? j := do
    let fs ← j.fields?
    return { sources := ← fs.part "source", keys := ← fs.part "key_list" }

instance : JsonForm MethodCapability where
  toJson c := .object [("uri", toJson c.uri), ("capability", toJson c.capability),
    ("key_list", toJson c.keys)]
  ofJson? j := do
    let fs ← j.fields?
    return { uri := ← fs.part "uri", capability := ← fs.part "capability",
             keys := ← fs.part "key_list" }

instance : JsonForm Metadata where
  toJson c := .object [("mailbox", toJson c.mailbox), ("annotation_name", toJson c.name),
    ("key_list", toJson c.keys)]
  ofJson? j := do
    let fs ← j.fields?
    return { mailbox := ← fs.part "mailbox", name := ← fs.part "annotation_name",
             keys := ← fs.part "key_list" }

instance : JsonForm MetadataExists where
  toJson c := .object [("mailbox", toJson c.mailbox), ("annotation_names", toJson c.names)]
  ofJson? j := do
    let fs ← j.fields?
    return { mailbox := ← fs.part "mailbox", names := ← fs.part "annotation_names" }

end Condition

instance : JsonForm Condition where
  toJson
    | .address c => tagged "Address" c
    | .envelope c => tagged "Envelope" c
    | .headerExists names => taggedPart "Exists" "header_names" names
    | .never => .string "False"
    | .header c => tagged "Header" c
    | .size c => tagged "Size" c
    | .always => .string "True"
    | .body c => tagged "Body" c
    | .environment c => tagged "Environment" c
    | .strings c => tagged "String" c
    | .hasFlag c => tagged "HasFlag" c
    | .spam c => tagged "SpamTest" c
    | .virus value => taggedPart "VirusTest" "value" value
    | .date c => tagged "Date" c
    | .currentDate c => tagged "CurrentDate" c
    | .validMethod uris => taggedPart "ValidNotifyMethod" "uris" uris
    | .methodCapability c => tagged "NotifyMethodCapability" c
    | .available capabilities => taggedPart "IHave" "capabilities" capabilities
    | .mailboxExists names => taggedPart "MailboxExists" "mailbox_names" names
    | .metadata c => tagged "Metadata" c
    | .metadataExists c => tagged "MetadataExists" c
    | .placeholder args => taggedPart "Generic" "arguments" args
  ofJson? j := do
    match ← j.case? with
    | ("Address", c) => content Condition.address c
    | ("Envelope", c) => content Condition.envelope c
    | ("Exists", c) => single "header_names" Condition.headerExists c
    | ("False", c) => bare .never c
    | ("Header", c) => content Condition.header c
    | ("Size", c) => content Condition.size c
    | ("True", c) => bare .always c
    | ("Body", c) => content Condition.body c
    | ("Environment", c) => content Condition.environment c
    | ("String", c) => content Condition.strings c
    | ("HasFlag", c) => content Condition.hasFlag c
    | ("SpamTest", c) => content Condition.spam c
    | ("VirusTest", c) => single "value" Condition.virus c
    | ("Date", c) => content Condition.date c
    | ("CurrentDate", c) => content Condition.currentDate c
    | ("ValidNotifyMethod", c) => single "uris" Condition.validMethod c
    | ("NotifyMethodCapability", c) => content Condition.methodCapability c
    | ("IHave", c) => single "capabilities" Condition.available c
    | ("MailboxExists", c) => single "mailbox_names" Condition.mailboxExists c
    | ("Metadata", c) => content Condition.metadata c
    | ("MetadataExists", c) => content Condition.metadataExists c
    | ("Generic", c) => single "arguments" Condition.placeholder c
    | _ => none

end SieveScript
