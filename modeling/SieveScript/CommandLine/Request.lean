import SieveScript.LogEntry

/-!
# The arguments of the command line

`Request.ofArguments?` reads what a user asks for, and is `none` if the arguments ask for nothing.
Options come before the command; `-c` may be repeated, all others stand once.
-/

namespace SieveScript.CommandLine

/-- The options in front of a command. -/
structure Options where
  /-- All of the log is shown, and not only the warnings. -/
  verbose : Bool := false
  /-- The capabilities, in the order in which they are given. -/
  capabilities : List String := []
  /-- The name of the script in errors. -/
  name : Option String := none
  deriving DecidableEq, Repr

/-- An entry of the log is shown. -/
def Options.shows (o : Options) (e : LogEntry) : Bool :=
  o.verbose || e.level = .warning

/-- What is done. -/
inductive Command where
  /-- Reads a script and tells what it needs. -/
  | check (file : String)
  /-- Writes a script again. -/
  | format (addRequires : Bool) (file : String)
  /-- Writes the tree of a script as JSON. -/
  | dump (file : String)
  /-- Lists the capabilities in use, and keeps them. -/
  | capabilities (save : Bool)
  deriving DecidableEq, Repr

/-- What a user asks for. -/
inductive Request where
  | run (o : Options) (c : Command)
  | version
  | help
  deriving DecidableEq, Repr

/-- An argument that starts with a hyphen and is more than that. -/
def isOption (a : String) : Bool :=
  a.startsWith "-" && a != "-"

/-- The name and the value of a long option without its hyphens. -/
def splitValue : List Char → List Char × Option (List Char)
  | [] => ([], none)
  | '=' :: cs => ([], some cs)
  | c :: cs => let (name, value) := splitValue cs; (c :: name, value)

/-- What has been read of the arguments behind a command. -/
structure Tail where
  /-- No option may follow. -/
  ended : Bool := false
  flag : Bool := false
  file : Option String := none

/-- The shape of the arguments behind a command. -/
structure Shape where
  /-- The only option. -/
  flag : Option String
  takesFile : Bool
  /-- The command with its option and its file. -/
  command : Bool → String → Command

/-- The commands. -/
def shape? : String → Option Shape
  | "check" => some ⟨none, true, fun _ f => .check f⟩
  | "format" => some ⟨some "--add-requires", true, fun b f => .format b f⟩
  | "dump" => some ⟨none, true, fun _ f => .dump f⟩
  | "capabilities" => some ⟨some "--save", false, fun b _ => .capabilities b⟩
  | _ => none

namespace Shape

/-- Reads the arguments behind a command. -/
def read (s : Shape) (o : Options) (t : Tail) : List String → Option Request
  | [] =>
    if s.takesFile then t.file.map fun f => .run o (s.command t.flag f)
    else some (.run o (s.command t.flag ""))
  | a :: rest =>
    if !t.ended && a = "--" then s.read o { t with ended := true } rest
    else if !t.ended && isOption a then
      if a = "--help" ∨ a.startsWith "-h" then some .help
      else if some a = s.flag ∧ !t.flag then s.read o { t with flag := true } rest
      else none
    else if s.takesFile ∧ t.file.isNone ∧ a ≠ "" then s.read o { t with file := some a } rest
    else none

end Shape

/-- An option that takes a value. -/
inductive Valued where
  | capability
  | name
  deriving DecidableEq, Repr

/-- What a word of options asks for next. -/
inductive Next where
  /-- The options are complete. -/
  | options (o : Options)
  /-- The next argument is the value of an option. -/
  | value (o : Options) (v : Valued)
  | version
  | help

namespace Options

/-- Gives an option its value. -/
def give (o : Options) (value : String) : Valued → Option Options
  | .capability => some { o with capabilities := o.capabilities ++ [value] }
  | .name => if o.name.isSome then none else some { o with name := some value }

/-- Asks for more output, once. -/
def beVerbose (o : Options) : Option Options :=
  if o.verbose then none else some { o with verbose := true }

/-- Reads an option that takes a value. -/
def valued (o : Options) (v : Valued) : Option (List Char) → Option Next
  | some value => (o.give (String.ofList value) v).map .options
  | none => some (.value o v)

/-- Reads a long option without its hyphens. -/
def long (o : Options) (cs : List Char) : Option Next :=
  let (name, value) := splitValue cs
  match String.ofList name, value with
  | "capability", value => o.valued .capability value
  | "name", value => o.valued .name value
  | "verbose", none => o.beVerbose.map .options
  | "version", none => some .version
  | "help", none => some .help
  | _, _ => none

/-- Reads short options without their hyphen, one letter each. -/
def short (o : Options) : List Char → Option Next
  | [] => some (.options o)
  | 'v' :: cs => o.beVerbose.bind fun o => o.short cs
  | 'V' :: _ => some .version
  | 'h' :: _ => some .help
  | ['c'] => o.valued .capability none
  | 'c' :: '=' :: cs => o.valued .capability (some cs)
  | 'c' :: cs => o.valued .capability (some cs)
  | _ => none

/-- Reads one word of options. -/
def word (o : Options) (a : String) : Option Next :=
  match a.toList with
  | ['-', '-'] => none
  | '-' :: '-' :: cs => o.long cs
  | '-' :: c :: cs => o.short (c :: cs)
  | _ => none

end Options

namespace Request

/-- Reads what stands behind `help`: nothing, or the one command that help is asked for. -/
def helpOn : List String → Option Request
  | [] => some .help
  | [a] => if a = "help" ∨ (shape? a).isSome then some .help else none
  | _ => none

/-- Reads arguments behind some options; the first may be the value of one of them. -/
def ofArgumentsFrom (o : Options) (waiting : Option Valued) : List String → Option Request
  | [] => none
  | a :: rest =>
    match waiting with
    | some v =>
      if isOption a then none else (o.give a v).bind fun o => ofArgumentsFrom o none rest
    | none =>
      if a = "help" then helpOn rest
      else match shape? a with
        | some s => s.read o {} rest
        | none =>
          match o.word a with
          | some (.options o) => ofArgumentsFrom o none rest
          | some (.value o v) => ofArgumentsFrom o (some v) rest
          | some .version => some .version
          | some .help => some .help
          | none => none

/-- Reads what a user asks for. -/
def ofArguments? (args : List String) : Option Request :=
  ofArgumentsFrom {} none args

end Request

end SieveScript.CommandLine
