import SieveScript.Capabilities
import SieveScript.Reading
import SieveScript.Json.Tree
import SieveScript.Tree.Printer
import SieveScript.Tree.View
import SieveScript.CommandLine.Request

/-!
# The command line

Checks a script, writes it again, writes its tree as JSON, or lists the capabilities in use. What is
noticed on the way goes to the log, of which warnings are shown, and all of it if the user asks for
that. The texts of help and of reports on wrong arguments are left to whoever runs the program: only
the code tells the one from the other.
-/

namespace SieveScript.CommandLine

/-- What a run leaves behind. -/
structure Outcome where
  code : Nat := 0
  output : String := ""
  errors : String := ""
  /-- What is shown of the log. -/
  log : List LogEntry := []
  deriving DecidableEq, Repr

/-- Why a run failed. -/
inductive Failure where
  | cannotRead (path : String) (cause : DiskError)
  | faulty (e : SyntaxError)
  | store (e : StoreError)
  deriving DecidableEq, Repr

namespace Failure

/-- The report of a failure. -/
def message : Failure → String
  | cannotRead path cause => "cannot read " ++ path ++ ": " ++ cause.message
  | faulty e => e.describe ++ "\n  near: " ++ e.snippet
  | store e => e.message

/-- The outcome of a run that failed. -/
def outcome (f : Failure) : Outcome :=
  { code := 1, errors := f.message ++ "\n" }

end Failure

/-- The name and the version of the program. -/
def version : String :=
  "sieve-grammar 0.3.2"

/-- Texts, each with the end of its line. -/
def lines (texts : List String) : String :=
  String.join (texts.map (· ++ "\n"))

/-- A line with a label and a list, if the list is not empty. -/
def labelled (label : String) : List String → List String
  | [] => []
  | xs => [label ++ ": " ++ ", ".intercalate xs]

/-- What `check` tells of a script. -/
def summary (name : String) (s : Script) : String :=
  lines ([name ++ ": ok"] ++ labelled "requires" s.requires ++ labelled "unknown" s.placeholders)

/-- What a command prints of a script. -/
def print (name : String) (s : Script) : Command → String
  | .check _ => summary name s
  | .format false _ => s.render
  | .format true _ => s.renderDeclared
  | .dump _ => (toJson s).pretty ++ "\n"
  | .capabilities _ => ""

/-- Reads a text as a script and prints it. -/
def process (capabilities : List String) (name : String) (c : Command) (text : String) :
    Outcome :=
  let log := (Script.trace (.ofCapabilities capabilities) text).map (Notice.entry name)
  match Script.parse capabilities name text with
  | .ok s => { output := print name s c, log }
  | .error e => { (Failure.faulty e).outcome with log }

section

variable {m : Type → Type} [Monad m] (disk : Disk m) (settings : Option String)

/-- Reads a file as a script and prints it. -/
def processFile (o : Options) (capabilities : List String) (c : Command) (file : String) :
    m Outcome := do
  match ← disk.readText file with
  | .error e => return (Failure.cannotRead file e).outcome
  | .ok text =>
    let name := (o.name.orElse fun _ => Path.fileName? file).getD ""
    return process capabilities name c text

/-- Does what a command says with a list of capabilities. -/
def runWith (o : Options) (capabilities : List String) (c : Command) : m Outcome := do
  match c with
  | .check file | .format _ file | .dump file => processFile disk o capabilities c file
  | .capabilities false => return { output := lines capabilities }
  | .capabilities true =>
    match ← Capabilities.save disk settings capabilities with
    | .error e => return (Failure.store e).outcome
    | .ok path => return { output := lines (("saved to " ++ path) :: capabilities) }

/-- Runs a command. -/
def runCommand (o : Options) (c : Command) : m Outcome := do
  let resolved ← Capabilities.resolve disk settings o.capabilities
  let outcome ← runWith disk settings o resolved.capabilities c
  return { outcome with log := (resolved.log ++ outcome.log).filter o.shows }

/-- Runs the program with the given arguments. -/
def run (args : List String) : m Outcome := do
  match Request.ofArguments? args with
  | none => return { code := 2 }
  | some .version => return { output := version ++ "\n" }
  | some .help => return {}
  | some (.run o c) => runCommand disk settings o c

end

end SieveScript.CommandLine
