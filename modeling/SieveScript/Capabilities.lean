import SieveScript.Disk
import SieveScript.LogEntry
import SieveScript.Vocabulary
import SieveScript.Json.Form
import SieveScript.Json.StringArray

/-!
# The capability list

The capabilities of a server are kept as a JSON array of strings in a file. A list that is given
wins over one that is kept, and without either all that is known counts. A file that holds anything
else counts as none, but the log tells of it.
-/

namespace SieveScript

/-- Why a capability list could not be kept. -/
inductive StoreError where
  /-- The user has no directory for settings. -/
  | noDirectory
  | cannotWrite (path : String) (cause : DiskError)
  deriving DecidableEq, Repr

namespace StoreError

/-- The report of an error. -/
def message : StoreError → String
  | noDirectory => "no config directory for this user"
  | cannotWrite path cause => "cannot write " ++ path ++ ": " ++ cause.message

end StoreError

namespace Capabilities

variable {m : Type → Type} [Monad m]

/-- The file below the directory for settings. -/
def file (settings : String) : String :=
  Path.join (Path.join settings "sieve-grammar") "capabilities.json"

/-- What a file holds. -/
inductive Kept where
  /-- The file cannot be read. -/
  | missing
  /-- The file holds no list. -/
  | malformed (path : String)
  | list (capabilities : List String)
  deriving DecidableEq, Repr

namespace Kept

/-- The list, if there is one. -/
def list? : Kept → Option (List String)
  | list capabilities => some capabilities
  | _ => none

/-- What the log tells when a file has been read. -/
def log : Kept → List LogEntry
  | malformed path =>
    [{ level := .warning, message := "ignoring malformed capabilities file",
       fields := [("path", .text path)] }]
  | _ => []

end Kept

/-- Reads a file. -/
def readFrom (disk : Disk m) (path : String) : m Kept := do
  match ← disk.readText path with
  | .ok text => return (Json.StringArray.parse? text.toList).elim (.malformed path) .list
  | .error _ => return .missing

/-- The list in a file; none if there is no such file or it holds anything else. -/
def loadFrom (disk : Disk m) (path : String) : m (Option (List String)) := do
  return (← readFrom disk path).list?

/-- Keeps a list in a file, and makes the directories above it. -/
def saveTo (disk : Disk m) (path : String) (capabilities : List String) :
    m (Except StoreError Unit) := do
  let failed (e : DiskError) : Except StoreError Unit := .error (.cannotWrite path e)
  let made ← match Path.parent? path with
    | some parent => disk.makeDirectories parent
    | none => pure (.ok ())
  match made with
  | .error e => return failed e
  | .ok () =>
    match ← disk.writeText path (toJson capabilities).pretty with
    | .error e => return failed e
    | .ok () => return .ok ()

/-- Reads the file of the user. -/
def read (disk : Disk m) (settings : Option String) : m Kept :=
  match settings with
  | some s => readFrom disk (file s)
  | none => return .missing

/-- The list that is kept for the user. -/
def load (disk : Disk m) (settings : Option String) : m (Option (List String)) := do
  return (← read disk settings).list?

/-- Keeps a list for the user; the path of its file. -/
def save (disk : Disk m) (settings : Option String) (capabilities : List String) :
    m (Except StoreError String) := do
  match settings with
  | none => return .error .noDirectory
  | some s =>
    match ← saveTo disk (file s) capabilities with
    | .ok () => return .ok (file s)
    | .error e => return .error e

/-- The list to use, and what the log tells of it. -/
structure Resolved where
  capabilities : List String
  log : List LogEntry := []
  deriving DecidableEq, Repr

/-- The list to use: the given one, else the one that is kept, else all that is known. -/
def resolve (disk : Disk m) (settings : Option String) (given : List String) : m Resolved := do
  if given ≠ [] then return { capabilities := given }
  let kept ← read disk settings
  match kept.list? with
  | some capabilities =>
    let entry : LogEntry :=
      { level := .debug, message := "using saved capabilities",
        fields := [("count", .number capabilities.length)] }
    return { capabilities, log := kept.log ++ [entry] }
  | none => return { capabilities := Vocabulary.allCapabilities, log := kept.log }

end Capabilities

end SieveScript
