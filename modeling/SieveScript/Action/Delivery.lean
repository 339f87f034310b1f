import SieveScript.Argument.Taking

/-!
# Where a message goes

The actions that file, forward or answer a message. Each has `take`, which fills it from a list of
arguments, and `arguments`, which lists what it holds in the order in which it is written. A
positional argument that is missing leaves the old value; a tag that is missing clears it.
-/

namespace SieveScript.Action

open Taking

/-- Files a message into a mailbox. -/
structure FileInto where
  copy : Bool := false
  create : Bool := false
  flags : Option (List String) := none
  mailbox : String := ""
  deriving DecidableEq, Repr

namespace FileInto

/-- Fills the action from arguments. -/
def take (a : FileInto) : Taking FileInto := do
  let flags ← taggedStrings ":flags"
  let copy ← flag ":copy"
  let create ← flag ":create"
  let mailbox ← popString
  return { copy, create, flags, mailbox := mailbox.getD a.mailbox }

/-- What the action holds. -/
def arguments (a : FileInto) : List Argument :=
  Argument.ofFlag ":copy" a.copy ++ Argument.ofFlag ":create" a.create ++
    Argument.ofTagged ":flags" .strings a.flags ++ [.string a.mailbox]

end FileInto

/-- Forwards a message. -/
structure Redirect where
  copy : Bool := false
  address : String := ""
  deriving DecidableEq, Repr

namespace Redirect

/-- Fills the action from arguments. -/
def take (a : Redirect) : Taking Redirect := do
  let copy ← flag ":copy"
  let address ← popString
  return { copy, address := address.getD a.address }

/-- What the action holds. -/
def arguments (a : Redirect) : List Argument :=
  Argument.ofFlag ":copy" a.copy ++ [.string a.address]

end Redirect

/-- Answers a message while its receiver is away. -/
structure Vacation where
  days : Option Number := none
  seconds : Option Number := none
  subject : Option String := none
  sender : Option String := none
  addresses : Option (List String) := none
  mime : Bool := false
  handle : Option String := none
  reason : Text := .quoted ""
  deriving DecidableEq, Repr

namespace Vacation

/-- Fills the action from arguments. -/
def take (a : Vacation) : Taking Vacation := do
  let days ← taggedNumber ":days"
  let seconds ← taggedNumber ":seconds"
  let subject ← taggedString ":subject"
  let sender ← taggedString ":from"
  let addresses ← taggedStrings ":addresses"
  let handle ← taggedString ":handle"
  let mime ← flag ":mime"
  let reason ← popText
  return { days, seconds, subject, sender, addresses, mime, handle,
           reason := reason.getD a.reason }

/-- What the action holds. -/
def arguments (a : Vacation) : List Argument :=
  Argument.ofTagged ":days" .number a.days ++ Argument.ofTagged ":seconds" .number a.seconds ++
    Argument.ofTagged ":subject" .string a.subject ++ Argument.ofTagged ":from" .string a.sender ++
    Argument.ofTagged ":addresses" .strings a.addresses ++ Argument.ofFlag ":mime" a.mime ++
    Argument.ofTagged ":handle" .string a.handle ++ [.ofText a.reason]

end Vacation

/-- Tells someone that a message has come. -/
structure Notify where
  sender : Option String := none
  importance : Option String := none
  options : Option (List String) := none
  message : Option String := none
  method : String := ""
  deriving DecidableEq, Repr

namespace Notify

/-- Fills the action from arguments. -/
def take (a : Notify) : Taking Notify := do
  let sender ← taggedString ":from"
  let importance ← taggedString ":importance"
  let options ← taggedStrings ":options"
  let message ← taggedString ":message"
  let method ← popString
  return { sender, importance, options, message, method := method.getD a.method }

/-- What the action holds. -/
def arguments (a : Notify) : List Argument :=
  Argument.ofTagged ":from" .string a.sender ++
    Argument.ofTagged ":importance" .string a.importance ++
    Argument.ofTagged ":options" .strings a.options ++
    Argument.ofTagged ":message" .string a.message ++ [.string a.method]

end Notify

end SieveScript.Action
