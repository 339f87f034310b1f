import SieveScript.Action.Delivery
import SieveScript.Action.Editing

/-!
# Actions

An action is a command without a block. `take` gives it a list of arguments and returns what it
left; `arguments` lists what it holds. A placeholder keeps the arguments of a word that is not
known, all of them and in their order.
-/

namespace SieveScript

/-- A command without a block. -/
inductive Action where
  | require (capabilities : List String)
  | stop
  | keep (flags : Option (List String))
  | discard
  | fileInto (a : Action.FileInto)
  | redirect (a : Action.Redirect)
  | assign (a : Action.Assign)
  | vacation (a : Action.Vacation)
  | setFlags (a : Action.Flags)
  | addFlags (a : Action.Flags)
  | removeFlags (a : Action.Flags)
  | addHeader (a : Action.AddHeader)
  | deleteHeader (a : Action.DeleteHeader)
  | reject (reason : Text)
  | earlyReject (reason : Text)
  | notify (a : Action.Notify)
  | error (message : String)
  | inclusion (a : Action.Inclusion)
  | leave
  | placeholder (arguments : List Argument)
  deriving DecidableEq, Repr

namespace Action

open Taking

/-- Fills an action from arguments. -/
def take : Action → Taking Action
  | require old => return require ((← popStrings).getD old)
  | stop => return stop
  | keep _ => return keep (← taggedStrings ":flags")
  | discard => return discard
  | fileInto a => return fileInto (← a.take)
  | redirect a => return redirect (← a.take)
  | assign a => return assign (← a.take)
  | vacation a => return vacation (← a.take)
  | setFlags a => return setFlags (← a.take)
  | addFlags a => return addFlags (← a.take)
  | removeFlags a => return removeFlags (← a.take)
  | addHeader a => return addHeader (← a.take)
  | deleteHeader a => return deleteHeader (← a.take)
  | reject old => return reject ((← popText).getD old)
  | earlyReject old => return earlyReject ((← popText).getD old)
  | notify a => return notify (← a.take)
  | error old => return error ((← popString).getD old)
  | inclusion a => return inclusion (← a.take)
  | leave => return leave
  | placeholder args => return placeholder (args ++ (← everything))

/-- What an action holds, in the order in which it is written. -/
def arguments : Action → List Argument
  | require capabilities => [.strings capabilities]
  | stop | discard | leave => []
  | keep flags => Argument.ofTagged ":flags" .strings flags
  | fileInto a => a.arguments
  | redirect a => a.arguments
  | assign a => a.arguments
  | vacation a => a.arguments
  | setFlags a | addFlags a | removeFlags a => a.arguments
  | addHeader a => a.arguments
  | deleteHeader a => a.arguments
  | reject reason | earlyReject reason => [.ofText reason]
  | notify a => a.arguments
  | error message => [.string message]
  | inclusion a => a.arguments
  | placeholder args => args

/-- The match type and comparator of an action that has them. -/
def matching? : Action → Option Matching
  | deleteHeader a => some a.matching
  | _ => none

/-- Replaces the match type and comparator of an action that has them. -/
def withMatching (m : Matching) : Action → Action
  | deleteHeader a => deleteHeader { a with matching := m }
  | a => a

/-- The action stands for a word that is not known. -/
def isPlaceholder : Action → Bool
  | placeholder _ => true
  | _ => false

end Action

end SieveScript
