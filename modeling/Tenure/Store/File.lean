import Tenure.Cbor.Field
import Tenure.Files.Access
import Tenure.Store.Cache

/-!
# The file of a cache

Between runs of the command the images of a cache are kept in a file, in a directory that is made when it is missing.
-/

set_option autoImplicit false

namespace Tenure.Cache

/-- The content of the file of a cache. -/
def content (c : Cache) : Text :=
  ⟨Cbor.Item.encode (.map (c.entries.map fun (key, image) => (.text key, .bytes image)))⟩

/-- The image under a key of a file. -/
def entry? : Cbor.Item × Cbor.Item → Option (Text × List UInt8)
  | (.text key, .bytes image) => some (key, image)
  | _ => none

/-- The cache that the content of a file holds; an empty file holds the empty cache. -/
def ofContent? (content : Text) : Option Cache :=
  if content.isEmpty then some {}
  else
    match Cbor.decode? content.octets with
    | some (.map entries) => (entries.mapM entry?).map fun entries => { entries := entries }
    | _ => none

/-- Why a cache cannot be used. -/
inductive OpenError where
  | directory (cause : FileError)
  | file (cause : FileError)
  | malformed
deriving DecidableEq, Repr

/-- The text of a failure to open a cache. -/
def OpenError.message : OpenError → Text
  | .directory cause => "creating cache directory: " ++ cause.message
  | .file cause => "opening database: " ++ cause.message
  | .malformed => "setting busy timeout: file is not a database"

variable {m : Type → Type} [Monad m]

/-- Writes the file of a cache. -/
def save (fs : FileSystem m) (path : Text) (c : Cache) : m (Except OpenError Unit) := do
  match ← fs.write path c.content with
  | .ok () => return .ok ()
  | .error e => return .error (.file e)

/-- Opens the cache of a file, which is made if it is missing. -/
def load (fs : FileSystem m) (path : Text) : m (Except OpenError Cache) := do
  match ← fs.makeDirectories (Path.parent path) with
  | .error e => return .error (.directory e)
  | .ok () =>
    match ← fs.read path with
    | .ok content =>
      match ofContent? content with
      | some c => return .ok c
      | none => return .error .malformed
    | .error e =>
      match e.fault with
      | .missing => return (← save fs path {}).map fun _ => {}
      | _ => return .error (.file e)

end Tenure.Cache
