import Tenure.Code.Listing
import Tenure.Command.Options
import Tenure.Machine.Run
import Tenure.Manifest.Load
import Tenure.Service.Address
import Tenure.Service.Handler
import Tenure.Store.File
import Tenure.Tree.Reader

/-!
# The command

The command checks, compiles, writes or runs one program, or starts the evaluation service. It is a function of its
arguments and of the operations of a file system, and it ends with texts for the two output channels and an exit code,
or with a service that is to listen on an address.
-/

set_option autoImplicit false

namespace Tenure.Command

/-- Why the command fails. -/
inductive Failure where
  | manifest (error : Manifest.LoadError)
  | file (error : FileError)
  | tree (path : Text) (error : Tree.ReadError)
  | check (errors : List CheckError)
  | compile (error : CompileError)
  | image (error : ImageError)
  | create (error : CreateError)
  | run (error : RunError)
  | cache (error : Cache.OpenError)
  | address (text : Text) (fault : Service.AddressFault)
  /-- Something was reached for that is not there. -/
  | crashed
deriving Repr

/-- The texts of a failure: every complaint of the checker, or the one error. -/
def Failure.messages : Failure → List Text
  | .manifest e => [e.message]
  | .file e => [e.message]
  | .tree path e => [path ++ ": " ++ e.message]
  | .check errors => errors.map CheckError.message
  | .compile e => Service.errorTexts e
  | .image e => [e.message]
  | .create e => [e.message]
  | .run e => [e.message]
  | .cache e => [e.message]
  | .address text fault => ["listen tcp: address " ++ text ++ ": " ++ fault.message]
  | .crashed => []

/-- How the command ends. -/
inductive Ending where
  | exit (code : Nat)
  | listen (address : Text) (service : Service)

/-- What the command has written, and how it ends. -/
structure Outcome where
  output : Text := ∅
  errors : Text := ∅
  ending : Ending := .exit 0

/-- The outcome of a failure after some output. -/
def Failure.outcome (output warnings : Text) : Failure → Outcome
  | .crashed => ⟨output, warnings ++ "panic: " ++ Service.crashText ++ "\n", .exit 2⟩
  | .create (.heap .tooLarge) =>
    ⟨output, warnings ++ "panic: " ++ Heap.SizeFault.tooLarge.message ++ "\n", .exit 2⟩
  | failure =>
    ⟨output, warnings ++ Text.concat (failure.messages.map fun t => "Error: " ++ t ++ "\n"), .exit 1⟩

/-- The outcome of arguments that are not understood, or that ask for the usage. -/
def UsageFault.outcome (fault : UsageFault) : Outcome :=
  ⟨∅, fault.message ++ usage, .exit (if fault = .help then 0 else 2)⟩

/-- The extension of images. -/
def imageExtension : Text := ".rvbc"

/-- Whether a path names an image. -/
def isImagePath (path : Text) : Bool := (Path.extension path).folded = imageExtension

/-- The least verbosity at which the log is opened. -/
def leastVerbosity : Int := -3

/-- The manifest with what the options say in place of what it says. -/
def Options.override (o : Options) (m : Manifest) : Manifest :=
  { m with
    heapWords := if 0 < o.heapWords then o.heapWords else m.heapWords
    stepLimit := if 0 ≤ o.stepLimit then o.stepLimit else m.stepLimit
    trace := o.trace || m.trace }

/-- Runs a program on a machine as the manifest describes it. -/
def execute (m : Manifest) (p : Program) : Except Failure Host :=
  match Machine.create Heap.defaultDigest p m.heapWords with
  | .error (.prelude .crashed) => .error .crashed
  | .error e => .error (.create e)
  | .ok machine =>
    match (Machine.run { steps := m.stepLimit.toNat } Machine.patience machine).1 with
    | .value v => .ok v
    | .failed e => .error (.run e)
    | .crashed => .error .crashed
    | .unfinished => .error .crashed

/-- The failure that stands for a stopped compilation. -/
def Failure.ofStop : Stop CompileError → Failure
  | .failed e => .compile e
  | .crashed => .crashed

/-- Checks a tree. -/
def checkTree (t : Tree) : Except Failure Unit :=
  match t.complaints with
  | .error .node => .error .crashed
  | .ok [] => .ok ()
  | .ok errors => .error (.check errors)

/-- What is printed when the service starts on an address. -/
def banner (address : Text) : Text :=
  "Rivet evaluation server listening on " ++ address ++ "\n" ++
  "  Connect (HTTP/JSON): http://" ++ address ++ Service.Procedure.evaluate.path ++ "\n" ++
  "  gRPC (CBOR):         grpc://" ++ address ++ "\n"

variable {m : Type → Type} [Monad m]

/-- The manifest of the working directory, or the default one. -/
def findManifest (fs : FileSystem m) : m (Except Failure Manifest) := do
  let directory ← fs.workingDirectory
  match ← Manifest.findAndLoad fs directory with
  | .error e => return .error (.manifest e)
  | .ok none => return .ok (Manifest.default directory)
  | .ok (some manifest) => return .ok manifest

/-- Opens the log if there is one to write. -/
def openLog (fs : FileSystem m) (path : Text) (verbosity : Int) : m (Except FileError Unit) :=
  if path.isEmpty ∨ verbosity < leastVerbosity then return .ok ()
  else fs.touch path

/-- Reads the tree in a file. What cannot be read once it is open is no tree. -/
def readTree (fs : FileSystem m) (path : Text) : m (Except Failure Tree) := do
  match ← fs.read path with
  | .error e => return .error (if e.action = .read then .tree path .format else .file e)
  | .ok content =>
    match Tree.read content with
    | .error e => return .error (.tree path e)
    | .ok t => return .ok t

/-- A program that was loaded, and warnings on the way. -/
structure Loaded where
  program : Except Failure Program
  warnings : Text := ∅

/-- Compiles a tree through the cache in a file; without the cache if that cannot be used. -/
def compileCached (fs : FileSystem m) (path : Text) (t : Tree) : m Loaded := do
  match ← Cache.load fs path with
  | .error e =>
    return ⟨t.compile.mapError Failure.ofStop, "Warning: program cache unavailable: " ++ e.message ++ "\n"⟩
  | .ok cache =>
    match cache.compile t with
    | (.error stop, _) => return { program := .error (.ofStop stop) }
    | (.ok compiled, cache) =>
      if compiled.cached then return { program := .ok compiled.program }
      else
        match ← Cache.save fs path cache with
        | .ok () => return { program := .ok compiled.program }
        | .error e => return { program := .error (.cache e) }

/-- Loads the program of a path: an image as it is, anything else compiled from a tree. -/
def load (fs : FileSystem m) (manifest : Manifest) (useCache : Bool) (path : Text) : m Loaded := do
  if isImagePath path then
    match ← fs.read path with
    | .error e => return { program := .error (.file e) }
    | .ok content => return { program := (Image.decode content.octets).mapError .image }
  else
    match ← readTree fs path with
    | .error e => return { program := .error e }
    | .ok t =>
      if useCache then compileCached fs manifest.cachePath t
      else return { program := t.compile.mapError Failure.ofStop }

/-- Checks the tree in a file. -/
def check (fs : FileSystem m) (path : Text) : m Outcome := do
  match (← readTree fs path).bind checkTree with
  | .error e => return e.outcome ∅ ∅
  | .ok () => return { output := "ok\n" }

/-- Writes a program to a file as an image. -/
def writeImage (fs : FileSystem m) (warnings path : Text) (p : Program) : m Outcome := do
  match ← fs.write path ⟨Image.encode p⟩ with
  | .error e => return (Failure.file e).outcome ∅ warnings
  | .ok () =>
    return ⟨"Wrote " ++ Text.ofNat p.length ++ " instructions to " ++ path ++ "\n", warnings, .exit 0⟩

/-- Runs a program and shows its result, after its listing if that is wanted. -/
def runProgram (manifest : Manifest) (disassemble : Bool) (warnings path : Text) (p : Program) : Outcome :=
  let listing := if disassemble then p.listing (Path.base path) ++ "\n" else ∅
  match execute manifest p with
  | .error e => e.outcome listing warnings
  | .ok v => ⟨listing ++ v.text ++ "\n", warnings, .exit 0⟩

/-- Opens the cache if it is wanted. -/
def openCache (fs : FileSystem m) (path : Text) (wanted : Bool) : m (Except Cache.OpenError (Option Cache)) := do
  if wanted then return (← Cache.load fs path).map some else return .ok none

/-- Starts the service on an address. -/
def serve (fs : FileSystem m) (manifest : Manifest) (useCache : Bool) (address : Text) : m Outcome := do
  match ← openCache fs manifest.cachePath useCache with
  | .error e => return (Failure.cache e).outcome ∅ ∅
  | .ok cache =>
    match Service.addressFault? address with
    | some fault => return (Failure.address address fault).outcome (banner address) ∅
    | none =>
      let limits : Service := { heapWords := manifest.heapWords, cache := cache }
      let service := if 0 < manifest.stepLimit then { limits with stepLimit := manifest.stepLimit.toNat } else limits
      return ⟨banner address, ∅, .listen address service⟩

/-- Carries out what the options ask for, under a manifest they have been applied to. -/
def perform (fs : FileSystem m) (o : Options) (manifest : Manifest) : m Outcome := do
  let useCache := manifest.cacheEnabled && !o.noCache
  if !o.address.isEmpty then
    serve fs manifest useCache (if o.address = "-" then manifest.address else o.address)
  else
    let given := o.arguments.headD ∅
    let path := if given.isEmpty then manifest.entryPath else given
    if path.isEmpty then return ⟨∅, usage, .exit 2⟩
    else if o.checkOnly then check fs path
    else
      let loaded ← load fs manifest useCache path
      match loaded.program with
      | .error e => return e.outcome ∅ loaded.warnings
      | .ok p =>
        if !o.output.isEmpty then writeImage fs loaded.warnings o.output p
        else return runProgram manifest o.disassemble loaded.warnings path p

/-- Runs the command with its arguments. -/
def run (fs : FileSystem m) (arguments : List Text) : m Outcome := do
  match Options.read arguments with
  | .error fault => return fault.outcome
  | .ok o =>
    match ← findManifest fs with
    | .error e => return e.outcome ∅ ∅
    | .ok manifest =>
      match ← openLog fs manifest.logFile (manifest.verbosity + o.verbosity) with
      | .error e => return ⟨∅, "log file error: " ++ e.message ++ "\n", .exit 1⟩
      | .ok () => perform fs o (o.override manifest)

end Tenure.Command
