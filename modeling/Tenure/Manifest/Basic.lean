import Tenure.Files.Access
import Tenure.Text.Case
import Tenure.Toml.Document

/-!
# Project manifests

A manifest configures a project: the program it starts with, the machine, the log, the cache and the server. Fields
are matched without regard to case, unknown ones are ignored, and those left out or empty have defaults.
-/

set_option autoImplicit false

namespace Tenure

/-- The configuration of a project. -/
structure Manifest where
  name : Text := ∅
  /-- The program that runs when no other is given. -/
  entry : Text := ∅
  heapWords : Int := 0
  stepLimit : Int := 0
  trace : Bool := false
  verbosity : Int := 0
  logFile : Text := ∅
  cacheSwitch : Option Bool := none
  cacheFile : Text := ∅
  address : Text := ∅
  workers : Int := 0
  /-- The directory of the project. -/
  directory : Text := ∅
deriving DecidableEq, Repr

namespace Manifest

/-- The name of manifest files. -/
def fileName : Text := "rivet.toml"

/-- The manifest with defaults in place of what is left out. -/
def withDefaults (m : Manifest) : Manifest :=
  { m with
    heapWords := if m.heapWords = 0 then 10000 else m.heapWords
    cacheSwitch := some (m.cacheSwitch.getD true)
    cacheFile := if m.cacheFile.isEmpty then ".rivet/cache.db" else m.cacheFile
    address := if m.address.isEmpty then ":4567" else m.address
    workers := if m.workers = 0 then 4 else m.workers }

/-- The configuration of a directory without a manifest. -/
def default (directory : Text) : Manifest := { directory := directory : Manifest }.withDefaults

/-- Whether compiled programs are cached. -/
def cacheEnabled (m : Manifest) : Bool := m.cacheSwitch.getD true

/-- Where compiled programs are cached. -/
def cachePath (m : Manifest) : Text := Path.under m.directory m.cacheFile

/-- Where the entry program is; empty if there is none. -/
def entryPath (m : Manifest) : Text := if m.entry.isEmpty then ∅ else Path.under m.directory m.entry

/-- Whether a limit is negative. -/
def hasNegativeLimit (m : Manifest) : Bool := m.heapWords < 0 || m.stepLimit < 0 || m.workers < 0

/-- A section of a manifest. -/
inductive Section where
  | project
  | machine
  | log
  | cache
  | server

/-- The section that a name means, in small letters. -/
def Section.ofName? (name : Text) : Option Section :=
  if name = "project" then some .project
  else if name = "vm" then some .machine
  else if name = "log" then some .log
  else if name = "cache" then some .cache
  else if name = "server" then some .server
  else none

/-- Sets the field of a section that a name in small letters means, if there is one. -/
def setField? (m : Manifest) (s : Section) (name : Text) (item : Toml.Item) : Option Manifest :=
  match s with
  | .project =>
    if name = "name" then item.string?.map fun t => { m with name := t }
    else if name = "entry" then item.string?.map fun t => { m with entry := t }
    else some m
  | .machine =>
    if name = "heap-words" then item.integer?.map fun n => { m with heapWords := n }
    else if name = "step-limit" then item.integer?.map fun n => { m with stepLimit := n }
    else if name = "trace" then item.bool?.map fun b => { m with trace := b }
    else some m
  | .log =>
    if name = "verbosity" then item.integer?.map fun n => { m with verbosity := n }
    else if name = "file" then item.string?.map fun t => { m with logFile := t }
    else some m
  | .cache =>
    if name = "enabled" then item.bool?.map fun b => { m with cacheSwitch := some b }
    else if name = "path" then item.string?.map fun t => { m with cacheFile := t }
    else some m
  | .server =>
    if name = "addr" then item.string?.map fun t => { m with address := t }
    else if name = "workers" then item.integer?.map fun n => { m with workers := n }
    else some m

/-- Sets the fields of a section. -/
def setSection? (m : Manifest) (s : Section) (members : Toml.Members) : Option Manifest :=
  members.foldlM (fun m (name, item) => m.setField? s name.folded item) m

/-- The manifest that the tables of a document describe. -/
def ofMembers? (members : Toml.Members) : Option Manifest :=
  members.foldlM (fun m (name, item) =>
    match Section.ofName? name.folded with
    | some s => item.members?.bind (setSection? m s)
    | none => some m) {}

/-- The manifest that a text describes, before defaults. -/
def read? (t : Text) : Option Manifest := (Toml.read? t).bind ofMembers?

/-- Why there is no manifest of a file. -/
inductive LoadError where
  | unreadable (path : Text) (cause : FileError)
  | malformed (path : Text)
  | negativeLimit (path : Text)
deriving DecidableEq, Repr

/-- The text of a failure to load a manifest. What is wrong with a malformed file is not told apart. -/
def LoadError.message : LoadError → Text
  | .unreadable path cause => "cannot read " ++ path ++ ": " ++ cause.message
  | .malformed path => "parse error in " ++ path ++ ": toml: "
  | .negativeLimit path => path ++ ": negative limits are not allowed"

/-- The manifest that a file of a directory describes. -/
def ofFile (path directory content : Text) : Except LoadError Manifest :=
  match read? content with
  | none => .error (.malformed path)
  | some m =>
    if m.hasNegativeLimit then .error (.negativeLimit path)
    else .ok { m with directory := directory }.withDefaults

end Manifest

end Tenure
