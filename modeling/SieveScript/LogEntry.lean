import SieveScript.Json

/-!
# Log entries

What the program tells while it works, beside what it is asked for: a message with values that have
names, and how much it matters.
-/

namespace SieveScript

/-- How much an entry matters. -/
inductive LogLevel where
  | debug
  | warning
  deriving DecidableEq, Repr

namespace LogLevel

/-- The name of a level. -/
def name : LogLevel → String
  | debug => "DEBUG"
  | warning => "WARN"

end LogLevel

/-- A value in an entry. -/
inductive LogValue where
  | text (s : String)
  | number (n : Nat)
  | texts (ss : List String)
  deriving DecidableEq, Repr

namespace LogValue

/-- The value as it is written: texts stand in quotes, so an entry stays on one line. -/
def render : LogValue → String
  | text s => String.ofList (Json.quote s)
  | number n => toString n
  | texts ss => "[" ++ ", ".intercalate (ss.map fun s => String.ofList (Json.quote s)) ++ "]"

end LogValue

/-- Something that the program tells. -/
structure LogEntry where
  level : LogLevel
  message : String
  fields : List (String × LogValue)
  deriving DecidableEq, Repr

namespace LogEntry

/-- The entry as one line, without the end of the line. -/
def render (e : LogEntry) : String :=
  " ".intercalate (e.level.name :: e.message :: e.fields.map fun (k, v) => k ++ "=" ++ v.render)

end LogEntry

end SieveScript
