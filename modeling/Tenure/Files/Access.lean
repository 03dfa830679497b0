import Tenure.Files.Path

/-!
# Access to files

What a program may ask of a file system, as a record of operations in a monad: the commands are written against the
record, so they run on the files of the machine and, in the same words, on a tree of files in memory.
-/

set_option autoImplicit false

namespace Tenure

/-- What stands in the way of an operation on a file. -/
inductive FileFault where
  | missing
  | notDirectory
  | isDirectory
  /-- Something is there already. -/
  | occupied
  /-- A component, or the path, has too many octets. -/
  | tooLong
  /-- No path is written like this. -/
  | invalid
  | other (reason : Text)
deriving DecidableEq, Repr

/-- The text of a fault. -/
def FileFault.message : FileFault → Text
  | .missing => "no such file or directory"
  | .notDirectory => "not a directory"
  | .isDirectory => "is a directory"
  | .occupied => "file exists"
  | .tooLong => "file name too long"
  | .invalid => "invalid argument"
  | .other reason => reason

/-- What was tried on a path. -/
inductive FileAction where
  | open
  | read
  | makeDirectory
deriving DecidableEq, Repr

/-- The word for an action. -/
def FileAction.word : FileAction → Text
  | .open => "open"
  | .read => "read"
  | .makeDirectory => "mkdir"

/-- A failed operation on a file. -/
structure FileError where
  action : FileAction
  path : Text
  fault : FileFault
deriving DecidableEq, Repr

/-- The text of a failed operation. -/
def FileError.message (e : FileError) : Text :=
  e.action.word ++ " " ++ e.path ++ ": " ++ e.fault.message

/-- The operations of a file system. -/
structure FileSystem (m : Type → Type) where
  /-- The absolute path that relative paths start from. -/
  workingDirectory : m Text
  /-- Whether something is at a path. -/
  present : Text → m Bool
  /-- The content of a file. -/
  read : Text → m (Except FileError Text)
  /-- Makes a file with a content, or replaces the content of a file. -/
  write : Text → Text → m (Except FileError Unit)
  /-- Makes an empty file, or leaves a file as it is. -/
  touch : Text → m (Except FileError Unit)
  /-- Makes a directory and those above it, as far as they are not there. -/
  makeDirectories : Text → m (Except FileError Unit)

end Tenure
