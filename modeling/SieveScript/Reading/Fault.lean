import SieveScript.Argument

/-!
# Faults

What may be wrong with a script, and how it is reported.
-/

namespace SieveScript

/-- Why a symbol cannot stand where it stands. -/
inductive Fault where
  /-- A test stands where no command is open. -/
  | testOutside (word : String)
  /-- A test stands inside a node that has no place for it. -/
  | testNotAllowed (word parent : String)
  /-- A command stands inside a node that has no place for it. -/
  | commandNotAllowed (word parent : String)
  /-- An argument stands where no action or test is open. -/
  | argumentOutside
  /-- What follows `:value` or `:count` is no relation. -/
  | invalidRelation (tag : String) (a : Argument)
  /-- What follows `:comparator` is not one string. -/
  | invalidComparator (a : Argument)
  /-- A semicolon stands behind no action. -/
  | semicolonMisplaced
  /-- A block starts behind no conditional. -/
  | blockStartMisplaced
  /-- A block starts while a group of tests is open. -/
  | groupNotClosed
  /-- A block ends that has not started, or in the middle of a command. -/
  | blockEndMisplaced
  /-- A parenthesis opens behind no `allof` or `anyof`. -/
  | leftParenMisplaced
  /-- A parenthesis closes that is not open. -/
  | rightParenMisplaced
  /-- A comma stands outside a group of tests. -/
  | commaMisplaced
  /-- A run of characters that is no token. -/
  | invalidToken (text : String)
  deriving DecidableEq, Repr

namespace Fault

/-- The report of a fault. -/
def message : Fault → String
  | testOutside w => "Test \"" ++ w ++ "\" not part of a control command"
  | testNotAllowed w p => "Test \"" ++ w ++ "\" not allowed in \"" ++ p ++ "\""
  | commandNotAllowed w p => "Command \"" ++ w ++ "\" not allowed in \"" ++ p ++ "\""
  | argumentOutside => "Argument not part of command"
  | invalidRelation t a =>
    "Invalid relational match-type " ++ t ++ " " ++ String.ofList a.encode
  | invalidComparator a => "Invalid comparator " ++ String.ofList a.encode
  | semicolonMisplaced => "Semicolon not at end of command"
  | blockStartMisplaced => "Block start not part of control command"
  | groupNotClosed => "Test-list not closed before block start"
  | blockEndMisplaced => "Block end has no matching block start"
  | leftParenMisplaced => "Test start not part of anyof/allof test"
  | rightParenMisplaced => "Test end not part of test-list"
  | commaMisplaced => "Comma not part of test-list"
  | invalidToken t => "Invalid token " ++ t

end Fault

/-- A fault with the place where it was found. -/
structure SyntaxError where
  fault : Fault
  /-- The name of the script. -/
  script : String
  line : Nat
  /-- The text around the end of the token at fault. -/
  snippet : String
  deriving DecidableEq, Repr

namespace SyntaxError

/-- The report of an error with its place. -/
def describe (e : SyntaxError) : String :=
  e.fault.message ++ " on line " ++ toString e.line ++ " of " ++ e.script

end SyntaxError

end SieveScript
