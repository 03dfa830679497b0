import Tenure.Manifest.Basic

/-!
# Loading manifests

The manifest of a directory, and the nearest manifest in a directory or one above it.
-/

set_option autoImplicit false

namespace Tenure.Manifest

variable {m : Type → Type} [Monad m]

/-- The simplest absolute form of a path. -/
def absolutePath (fs : FileSystem m) (path : Text) : m Text := do
  if Path.isAbsolute path then return Path.clean path
  else return Path.join [← fs.workingDirectory, path]

/-- Loads the manifest in a directory. -/
def load (fs : FileSystem m) (directory : Text) : m (Except LoadError Manifest) := do
  let path := Path.join [directory, fileName]
  match ← fs.read path with
  | .error e => return .error (.unreadable path e)
  | .ok content => return ofFile path (← absolutePath fs directory) content

/-- The first of some directories that has a manifest. -/
def firstWithManifest (fs : FileSystem m) : List Text → m (Option Text)
  | [] => return none
  | directory :: rest => do
    if ← fs.present (Path.join [directory, fileName]) then return some directory
    else firstWithManifest fs rest

/-- Loads the manifest in a directory or the nearest one above it, if there is one. -/
def findAndLoad (fs : FileSystem m) (start : Text) : m (Except LoadError (Option Manifest)) := do
  let start ← absolutePath fs start
  match ← firstWithManifest fs (Path.ancestors start) with
  | none => return .ok none
  | some directory => return (← load fs directory).map some

end Tenure.Manifest
