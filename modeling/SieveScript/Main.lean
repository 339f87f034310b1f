import SieveScript.CommandLine

/-!
# The program

Runs the command line on the disk of the machine.
-/

namespace SieveScript

/-- The cause of an error of the machine. -/
def DiskError.ofIoError : IO.Error → DiskError
  | .noFileOrDirectory .. | .noSuchThing .. => .notFound
  | .alreadyExists .. => .alreadyExists
  | .inappropriateType _ code _ => if code = 21 then .isDirectory else .notDirectory
  | .invalidArgument (some _) 36 _ => .nameTooLong
  | e => .other (toString e)

/-- Runs an action of the machine and tells why it failed. -/
def attempt {α : Type} (action : IO α) : IO (Except DiskError α) := do
  match ← action.toBaseIO with
  | .ok x => return .ok x
  | .error e => return .error (.ofIoError e)

/-- The disk of the machine. -/
def machineDisk : Disk IO where
  readText path := do
    match ← attempt (IO.FS.readBinFile path) with
    | .error e => return .error e
    | .ok bytes =>
      match String.fromUTF8? bytes with
      | some text => return .ok text
      | none => return .error .notText
  makeDirectory path := attempt (IO.FS.createDir path)
  isDirectory path := do
    match ← attempt (IO.FS.realPath path) with
    | .ok place => place.isDir
    | .error _ => return false
  writeText path text := attempt (IO.FS.writeFile path text)

/-- The user's directory for settings. -/
def settingsDirectory? : IO (Option String) := do
  match (← IO.getEnv "XDG_CONFIG_HOME").filter Path.isAbsolute with
  | some directory => return some directory
  | none => return (← IO.getEnv "HOME").map (Path.join · ".config")

end SieveScript

open SieveScript in
/-- Runs the program. -/
def main (args : List String) : IO UInt32 := do
  let outcome ← CommandLine.run machineDisk (← settingsDirectory?) args
  for entry in outcome.log do
    IO.eprintln entry.render
  IO.print outcome.output
  IO.eprint outcome.errors
  return outcome.code.toUInt32
