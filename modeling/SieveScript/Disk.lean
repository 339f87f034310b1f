/-!
# Disks

What the program asks of a disk, in any monad, and why a disk may refuse. Paths are texts with
slashes between their components.
-/

namespace SieveScript

/-- Why a file could not be read or written. -/
inductive DiskError where
  | notFound
  | isDirectory
  | notDirectory
  | alreadyExists
  /-- A path or one of its components has too many bytes. -/
  | nameTooLong
  /-- A path has a character of code zero, which ends it for the system. -/
  | zeroInName
  /-- The bytes of a file are no UTF-8 text. -/
  | notText
  | other (description : String)
  deriving DecidableEq, Repr

namespace DiskError

/-- The report of an error. -/
def message : DiskError → String
  | notFound => "No such file or directory (os error 2)"
  | isDirectory => "Is a directory (os error 21)"
  | notDirectory => "Not a directory (os error 20)"
  | alreadyExists => "File exists (os error 17)"
  | nameTooLong => "File name too long (os error 36)"
  | zeroInName => "file name contained an unexpected NUL byte"
  | notText => "stream did not contain valid UTF-8"
  | other d => d

end DiskError

/-- The operations of a disk. -/
structure Disk (m : Type → Type) where
  /-- The text of a file. -/
  readText : String → m (Except DiskError String)
  /-- Makes one directory below one that exists. -/
  makeDirectory : String → m (Except DiskError Unit)
  /-- The path leads to a directory. -/
  isDirectory : String → m Bool
  /-- Replaces the text of a file, or makes the file. -/
  writeText : String → String → m (Except DiskError Unit)

namespace Path

/-- The components of a path that name something. -/
def names (path : String) : List String :=
  (path.splitOn "/").filter fun c => c ≠ "" ∧ c ≠ "."

/-- The path starts at the root. -/
def isAbsolute (path : String) : Bool :=
  path.startsWith "/"

/-- The path that leads through names, from the root or not. -/
def ofNames (absolute : Bool) (names : List String) : String :=
  (if absolute then "/" else "") ++ "/".intercalate names

/-- The last component of a path, if it is the name of a file. -/
def fileName? (path : String) : Option String :=
  (names path).getLast?.filter (· ≠ "..")

/-- The path of the directory that holds what a path names. -/
def parent? (path : String) : Option String :=
  match names path with
  | [] => none
  | cs => some (ofNames (isAbsolute path) cs.dropLast)

/-- Why a path cannot lead anywhere on any disk. -/
def fault? (path : String) : Option DiskError :=
  if path = "" then some .notFound
  else if path.contains '\x00' then some .zeroInName
  else if path.utf8ByteSize ≥ 4096 then some .nameTooLong
  else none

/-- A path below a directory. -/
def join (directory name : String) : String :=
  directory ++ "/" ++ name

end Path

namespace Disk

variable {m : Type → Type} [Monad m]

/-- Makes one directory, and is content if it is there. -/
def ensureDirectory (disk : Disk m) (path : String) : m (Except DiskError Unit) := do
  match ← disk.makeDirectory path with
  | .ok () => return .ok ()
  | .error e => if ← disk.isDirectory path then return .ok () else return .error e

/-- Makes the directory that names lead to, given from the last to the first. Those above it are
made only if it fails for want of one, so a path through `..` may leave a directory behind. -/
def ensureAncestry (disk : Disk m) (absolute : Bool) : List String → m (Except DiskError Unit)
  | [] => return .ok ()
  | name :: above => do
    let path := Path.ofNames absolute (name :: above).reverse
    match ← disk.ensureDirectory path with
    | .error .notFound =>
      match ← disk.ensureAncestry absolute above with
      | .error e => return .error e
      | .ok () => disk.ensureDirectory path
    | outcome => return outcome

/-- Makes a directory and all above it that are missing. -/
def makeDirectories (disk : Disk m) (path : String) : m (Except DiskError Unit) :=
  disk.ensureAncestry (Path.isAbsolute path) (Path.names path).reverse

end Disk

end SieveScript
