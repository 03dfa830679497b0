import Tenure.Command.Run

/-!
# The program

The command on the files of the machine. Everything it decides is in `Command.run`; here its operations on files are
carried out and its texts are written.
-/

set_option autoImplicit false

namespace Tenure.Command

/-- The fault that an error of the system stands for. -/
def faultOf : IO.Error → FileFault
  | .noFileOrDirectory .. => .missing
  | .inappropriateType _ _ details =>
    if details = "Not a directory" then .notDirectory
    else if details = "Is a directory" then .isDirectory
    else .other details
  | .alreadyExists .. => .occupied
  | .invalidArgument _ _ details => if details = "File name too long" then .tooLong else .invalid
  | e => .other (toString e)

/-- Carries out an operation on a path, whose failure is reported with the path. -/
def attempt {α : Type} (action : FileAction) (path : Text) (act : IO α) : IO (Except FileError α) := do
  try
    return .ok (← act)
  catch e =>
    return .error ⟨action, path, faultOf e⟩

/-- Opens a file. -/
def openFile (path : Text) (mode : IO.FS.Mode) : IO (Except FileError IO.FS.Handle) :=
  attempt .open path (IO.FS.Handle.mk path.toStringLossy mode)

/-- The octets of a text as the system takes them. -/
def toByteArray (t : Text) : ByteArray := ⟨t.octets.toArray⟩

/-- The files of the machine. -/
def machineFiles : FileSystem IO where
  workingDirectory := do return (← IO.currentDir).toString
  present path := do return (← openFile path .read).isOk
  read path := do
    match ← openFile path .read with
    | .error e => return .error e
    | .ok handle => attempt .read path (do return ⟨(← handle.readBinToEnd).data.toList⟩)
  write path content := do
    match ← openFile path .write with
    | .error e => return .error e
    | .ok handle => attempt .open path (handle.write (toByteArray content))
  touch path := do return (← openFile path .append).map fun _ => ()
  makeDirectories path := attempt .makeDirectory path (IO.FS.createDirAll path.toStringLossy)

/-- Writes what the command has to say, and the code it ends with. -/
def finish (o : Outcome) : IO UInt32 := do
  (← IO.getStdout).write (toByteArray o.output)
  (← IO.getStderr).write (toByteArray o.errors)
  match o.ending with
  | .exit code => return code.toUInt32
  | .listen address _ =>
    (← IO.getStderr).write (toByteArray ("Error: listen tcp: address " ++ address ++ ": no network available\n"))
    return 1

end Tenure.Command

/-- Runs the command with the arguments of the process. -/
def main (arguments : List String) : IO UInt32 := do
  Tenure.Command.finish (← Tenure.Command.run Tenure.Command.machineFiles (arguments.map Tenure.Text.ofString))
