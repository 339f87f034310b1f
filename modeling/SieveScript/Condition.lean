import SieveScript.Condition.Message
import SieveScript.Condition.Context

/-!
# Conditions

A condition is the body of a test without tests inside it. As an action, it takes its arguments
from a list and lists what it holds, and a placeholder keeps those of a word that is not known.
-/

namespace SieveScript

/-- The body of a test that has no tests inside it. -/
inductive Condition where
  | address (c : Condition.Address)
  | envelope (c : Condition.Address)
  | headerExists (names : List String)
  | never
  | header (c : Condition.Header)
  | size (c : Condition.Size)
  | always
  | body (c : Condition.Body)
  | environment (c : Condition.Environment)
  | strings (c : Condition.Strings)
  | hasFlag (c : Condition.HasFlag)
  | spam (c : Condition.SpamScore)
  | virus (value : String)
  | date (c : Condition.Date)
  | currentDate (c : Condition.CurrentDate)
  | validMethod (uris : List String)
  | methodCapability (c : Condition.MethodCapability)
  | available (capabilities : List String)
  | mailboxExists (names : List String)
  | metadata (c : Condition.Metadata)
  | metadataExists (c : Condition.MetadataExists)
  | placeholder (arguments : List Argument)
  deriving DecidableEq, Repr

namespace Condition

open Taking

/-- Fills a condition from arguments. -/
def take : Condition → Taking Condition
  | address c => return address (← c.take)
  | envelope c => return envelope (← c.take)
  | headerExists old => return headerExists ((← popStrings).getD old)
  | never => return never
  | header c => return header (← c.take)
  | size c => return size (← c.take)
  | always => return always
  | body c => return body (← c.take)
  | environment c => return environment (← c.take)
  | strings c => return strings (← c.take)
  | hasFlag c => return hasFlag (← c.take)
  | spam c => return spam (← c.take)
  | virus old => return virus ((← popString).getD old)
  | date c => return date (← c.take)
  | currentDate c => return currentDate (← c.take)
  | validMethod old => return validMethod ((← popStrings).getD old)
  | methodCapability c => return methodCapability (← c.take)
  | available old => return available ((← popStrings).getD old)
  | mailboxExists old => return mailboxExists ((← popStrings).getD old)
  | metadata c => return metadata (← c.take)
  | metadataExists c => return metadataExists (← c.take)
  | placeholder args => return placeholder (args ++ (← everything))

/-- What a condition holds, in the order in which it is written. -/
def arguments : Condition → List Argument
  | address c | envelope c => c.arguments
  | headerExists names => [.strings names]
  | never | always => []
  | header c => c.arguments
  | size c => c.arguments
  | body c => c.arguments
  | environment c => c.arguments
  | strings c => c.arguments
  | hasFlag c => c.arguments
  | spam c => c.arguments
  | virus value => [.string value]
  | date c => c.arguments
  | currentDate c => c.arguments
  | validMethod uris => [.strings uris]
  | methodCapability c => c.arguments
  | available capabilities => [.strings capabilities]
  | mailboxExists names => [.strings names]
  | metadata c => c.arguments
  | metadataExists c => c.arguments
  | placeholder args => args

/-- The condition stands for a word that is not known. -/
def isPlaceholder : Condition → Bool
  | placeholder _ => true
  | _ => false

end Condition

end SieveScript
