import SieveScript.Disk

/-!
# A disk in memory

A tree of files and directories with a working directory. A path is followed component by
component, and each one but the last has to be a directory.
-/

namespace SieveScript

/-- What a path may lead to. -/
inductive Entry where
  | file (content : ByteArray)
  | directory

/-- A tree of files. An entry is listed under the names that lead to it from the root. -/
structure FileTree where
  entries : List (List String × Entry) := []
  /-- The names that lead to the directory at which relative paths start. -/
  workingDirectory : List String := []

namespace FileTree

/-- What stands at a place. The root is a directory. -/
def get? (t : FileTree) (place : List String) : Option Entry :=
  if place = [] then some .directory else t.entries.lookup place

/-- Puts an entry at a place. -/
def put (t : FileTree) (place : List String) (e : Entry) : FileTree :=
  { t with entries := (place, e) :: t.entries.filter (·.1 ≠ place) }

/-- The place at which a path starts. -/
def start (t : FileTree) (path : String) : List String :=
  if Path.isAbsolute path then [] else t.workingDirectory

/-- The place that a component leads to from a directory. -/
def next (place : List String) (component : String) : List String :=
  if component = "" ∨ component = "." then place
  else if component = ".." then place.dropLast
  else place ++ [component]

/-- Fails unless a directory stands at the place. -/
def expectDirectory (t : FileTree) (place : List String) : Except DiskError Unit :=
  match t.get? place with
  | none => .error .notFound
  | some (.file _) => .error .notDirectory
  | some .directory => .ok ()

/-- The place that a component leads to; nothing need stand there. -/
def step (t : FileTree) (place : List String) (component : String) :
    Except DiskError (List String) := do
  t.expectDirectory place
  if component.utf8ByteSize > 255 then throw .nameTooLong
  return next place component

/-- The place that components lead to; nothing need stand there. -/
def follow (t : FileTree) (place : List String) : List String → Except DiskError (List String)
  | [] => .ok place
  | c :: cs => do t.follow (← t.step place c) cs

/-- Fails if a path cannot lead anywhere. -/
def expectPath (path : String) : Except DiskError Unit :=
  match Path.fault? path with
  | some e => .error e
  | none => .ok ()

/-- What stands where a path leads. -/
def find (t : FileTree) (path : String) : Except DiskError Entry := do
  expectPath path
  match t.get? (← t.follow (t.start path) (path.splitOn "/")) with
  | some e => return e
  | none => throw .notFound

/-- The text of the file that a path leads to. -/
def readText (t : FileTree) (path : String) : Except DiskError String := do
  match ← t.find path with
  | .directory => throw .isDirectory
  | .file content =>
    match String.fromUTF8? content with
    | some text => return text
    | none => throw .notText

/-- A directory stands where a path leads. -/
def isDirectory (t : FileTree) (path : String) : Bool :=
  match t.find path with
  | .ok .directory => true
  | _ => false

/-- Makes the directory that a path leads to, below one that exists. -/
def makeDirectory (t : FileTree) (path : String) : Except DiskError FileTree := do
  expectPath path
  let named := Path.names path
  let directory ← t.follow (t.start path) named.dropLast
  let place ← t.step directory (named.getLast?.getD "")
  match t.get? place with
  | some _ => throw .alreadyExists
  | none => return t.put place .directory

/-- The components of a path up to the last that is not empty. -/
def dropSlashes (components : List String) : List String :=
  (components.reverse.dropWhile (· = "")).reverse

/-- Replaces the content of the file that a path leads to, or makes the file. A path that ends in
a slash or in dots can only be one of a directory. -/
def write (t : FileTree) (path : String) (content : ByteArray) : Except DiskError FileTree := do
  expectPath path
  let components := path.splitOn "/"
  let named := dropSlashes components
  let directory ← t.follow (t.start path) named.dropLast
  t.expectDirectory directory
  if named ≠ components then throw .isDirectory
  let place ← t.step directory (named.getLast?.getD "")
  if place.length ≤ directory.length then throw .isDirectory
  match t.get? place with
  | some .directory => throw .isDirectory
  | _ => return t.put place (.file content)

/-- Applies a change that may fail; a failure changes nothing. -/
def change (f : FileTree → Except DiskError FileTree) : StateM FileTree (Except DiskError Unit) :=
  fun t =>
    match f t with
    | .ok t' => (.ok (), t')
    | .error e => (.error e, t)

/-- The disk that such a tree is. -/
def disk : Disk (StateM FileTree) where
  readText path := fun t => (t.readText path, t)
  makeDirectory path := change (·.makeDirectory path)
  isDirectory path := fun t => (t.isDirectory path, t)
  writeText path text := change (·.write path text.toUTF8)

end FileTree

end SieveScript
