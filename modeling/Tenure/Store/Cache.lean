import Tenure.Compile.Rules
import Tenure.Store.Key

/-!
# A cache of compiled programs

The cache holds the image of a program under the key of its tree, so an unchanged tree is compiled once. It counts how
often a key was found and how often not; an image that cannot be read counts as neither, and compiling replaces it.
-/

set_option autoImplicit false

namespace Tenure

/-- Images by key, and the counts since the cache was opened. -/
structure Cache where
  entries : List (Text × List UInt8) := []
  hits : Nat := 0
  misses : Nat := 0
deriving DecidableEq, Repr

namespace Cache

/-- The number of images. -/
def size (c : Cache) : Nat := c.entries.length

/-- The image under a key. -/
def image? (c : Cache) (key : Text) : Option (List UInt8) :=
  (c.entries.find? fun entry => entry.1 = key).map Prod.snd

/-- The cache as it is after it was closed and opened again. -/
def reopen (c : Cache) : Cache := { c with hits := 0, misses := 0 }

/-- Looks up the program of a key. -/
def get (c : Cache) (key : Text) : Except ImageError (Option Program) × Cache :=
  match c.image? key with
  | none => (.ok none, { c with misses := c.misses + 1 })
  | some image =>
    match Image.decode image with
    | .error e => (.error e, c)
    | .ok p => (.ok (some p), { c with hits := c.hits + 1 })

/-- Stores a program under a key in place of an earlier one. -/
def put (c : Cache) (key : Text) (p : Program) : Cache :=
  { c with entries := (key, Image.encode p) :: c.entries.filter fun entry => entry.1 ≠ key }

/-- The text of a failure to read the image under a key. -/
def readErrorMessage (key : Text) (e : ImageError) : Text :=
  "decoding cached program " ++ key ++ ": " ++ e.message

/-- A program and whether it came from the cache. -/
structure Compiled where
  program : Program
  cached : Bool
deriving DecidableEq, Repr

/-- The code of a tree, from the cache if it is there. Trees that do not compile are not stored. -/
def compile (c : Cache) (t : Tree) : Except (Stop CompileError) Compiled × Cache :=
  match c.get t.key with
  | (.ok (some p), c) => (.ok ⟨p, true⟩, c)
  | (_, c) =>
    match t.compile with
    | .error e => (.error e, c)
    | .ok p => (.ok ⟨p, false⟩, c.put t.key p)

end Cache

end Tenure
