import Tenure.Files.Access

/-!
# Files in memory

A file tree assigns a directory or a file to locations, which are the components of absolute paths. A path is walked
component by component: every component before the last has to be a directory that is there, and so has the
one before an empty component, a dot or two dots. No path has a zero octet, and paths and components have a greatest
length.
-/

set_option autoImplicit false

namespace Tenure

/-- What a location holds. -/
inductive FileEntry where
  | directory
  | file (content : Text)
deriving DecidableEq, Repr

/-- Where something is: components from the top. -/
abbrev Location := List Text

/-- Directories and files by location, and the location that relative paths start from. The top is always a
directory. -/
structure FileTree where
  entries : List (Location × FileEntry) := []
  current : Location := []
deriving DecidableEq, Repr

namespace FileTree

/-- What is at a location. -/
def entry? (t : FileTree) (place : Location) : Option FileEntry :=
  match place with
  | [] => some .directory
  | _ => (t.entries.find? fun e => e.1 = place).map Prod.snd

/-- The tree with another entry at a location. -/
def put (t : FileTree) (place : Location) (entry : FileEntry) : FileTree :=
  { t with entries := (place, entry) :: t.entries.filter fun e => e.1 ≠ place }

/-- What is wrong with a path before it is walked. -/
def pathFault? (path : Text) : Option FileFault :=
  if path.octets.contains 0 then some .invalid
  else if path.isEmpty then some .missing
  else if Path.maxLength < path.size then some .tooLong
  else none

/-- Goes from a location to a component of it. -/
def descend (t : FileTree) (place : Location) (part : Text) : Except FileFault Location :=
  match t.entry? place with
  | none => .error .missing
  | some (.file _) => .error .notDirectory
  | some .directory =>
    if part.isEmpty ∨ part = Path.here then .ok place
    else if part = Path.above then .ok place.dropLast
    else if Path.maxComponent < part.size then .error .tooLong
    else .ok (place ++ [part])

/-- The location of components below a location. -/
def walk (t : FileTree) (start : Location) (parts : List Text) : Except FileFault Location :=
  parts.foldlM t.descend start

/-- The location that a path starts from. -/
def start (t : FileTree) (path : Text) : Location := if Path.isAbsolute path then [] else t.current

/-- The location of a path, at which nothing need be. -/
def locate (t : FileTree) (path : Text) : Except FileFault Location :=
  match pathFault? path with
  | some fault => .error fault
  | none => t.walk (t.start path) (Path.components path)

/-- The entry at a path. -/
def look (t : FileTree) (path : Text) : Except FileFault FileEntry := do
  match t.entry? (← t.locate path) with
  | some entry => .ok entry
  | none => .error .missing

/-- The content of the file at a path. -/
def read (t : FileTree) (path : Text) : Except FileError Text :=
  match t.look path with
  | .error fault => .error ⟨.open, path, fault⟩
  | .ok .directory => .error ⟨.read, path, .isDirectory⟩
  | .ok (.file content) => .ok content

/-- A location that has to be a directory. -/
def needDirectory (t : FileTree) (place : Location) : Except FileFault Unit :=
  match t.entry? place with
  | some .directory => .ok ()
  | some (.file _) => .error .notDirectory
  | none => .error .missing

/-- The components of a path without the empty ones at its end. -/
def namedParts (path : Text) : List Text := ((Path.components path).reverse.dropWhile Text.isEmpty).reverse

/-- The location of a file that may be written, whether it is there or not. A path that ends with a slash names a
directory, if what is in front of its last component is there. -/
def locateFile (t : FileTree) (path : Text) : Except FileFault Location := do
  match pathFault? path with
  | some fault => .error fault
  | none =>
    if path.endsWith "/" then
      t.needDirectory (← t.walk (t.start path) (namedParts path).dropLast)
      .error .isDirectory
    else
      let place ← t.walk (t.start path) (Path.components path)
      if t.entry? place = some .directory then .error .isDirectory
      else
        t.needDirectory place.dropLast
        return place

/-- Changes the file at a path; a file that is not there counts as none. -/
def change (t : FileTree) (path : Text) (f : Option Text → Text) : Except FileError FileTree :=
  match t.locateFile path with
  | .error fault => .error ⟨.open, path, fault⟩
  | .ok place =>
    match t.entry? place with
    | some (.file content) => .ok (t.put place (.file (f (some content))))
    | _ => .ok (t.put place (.file (f none)))

/-- Makes the directory at a location, which lies in one that is there. One on the way to another is named with a slash
at its end, and a file in its place is in the way of making it. -/
def makeDirectory (t : FileTree) (place : Location) (onTheWay : Bool) : Except FileError FileTree :=
  let path := if onTheWay then Path.absolute place ++ "/" else Path.absolute place
  match t.look path with
  | .ok .directory => .ok t
  | .ok (.file _) => .error ⟨.makeDirectory, path, .notDirectory⟩
  | .error fault =>
    if (t.entry? place).isSome then .error ⟨.makeDirectory, path, .occupied⟩
    else if fault = .missing then .ok (t.put place .directory)
    else .error ⟨.makeDirectory, path, fault⟩

/-- Makes a directory and those above it. -/
def makeDirectories (t : FileTree) (path : Text) : Except FileError FileTree :=
  let parts := Path.simplified (Path.under (Path.absolute t.current) path)
  (List.range parts.length).foldlM (fun t n =>
    t.makeDirectory (parts.take (n + 1)) (n + 1 < parts.length)) t

/-- Keeps the tree that an operation leads to, if it succeeds. -/
def commit (act : FileTree → Except FileError FileTree) : StateM FileTree (Except FileError Unit) := do
  match act (← get) with
  | .error e => return .error e
  | .ok t => set t; return .ok ()

/-- The file system of a tree in memory. -/
def fileSystem : FileSystem (StateM FileTree) where
  workingDirectory := do return Path.absolute (← get).current
  present path := do return (← get).look path |>.isOk
  read path := do return (← get).read path
  write path content := commit fun t => t.change path fun _ => content
  touch path := commit fun t => t.change path fun old => old.getD ∅
  makeDirectories path := commit fun t => t.makeDirectories path

end FileTree

end Tenure
