import Tenure.Code.Listing
import Tenure.Machine.Run
import Tenure.Service.Answer
import Tenure.Store.Cache

/-!
# The evaluation service

The service checks, compiles and runs trees that it is sent. Every evaluation has a machine of its own with a bounded
heap and a bounded number of steps; compiled programs are kept in a cache if the service has one.
-/

set_option autoImplicit false

namespace Tenure

/-- The limits of a service and its cache. -/
structure Service where
  heapWords : Int := 10000
  /-- How many instructions an evaluation may execute; none means any number. -/
  stepLimit : Nat := 10000000
  cache : Option Cache := none

namespace Service

/-- What a client sends. -/
structure Call where
  procedure : Text
  method : Text := "POST"
  contentType : Text
  body : Text

/-- Compiles a tree, through the cache if there is one. -/
def compileTree (s : Service) (t : Tree) : Except (Stop CompileError) Cache.Compiled × Service :=
  match s.cache with
  | some cache =>
    let (result, cache) := cache.compile t
    (result, { s with cache := some cache })
  | none => (t.compile.map fun p => ⟨p, false⟩, s)

/-- The texts of a compile error: every complaint of the checker, or the one error. -/
def errorTexts : CompileError → List Text
  | .rejected errors => errors.map CheckError.message
  | e => [e.message]

/-- What an evaluation reports that reached for a node that is not there. -/
def crashText : Text := "runtime error: invalid memory address or nil pointer dereference"

/-- The outcome of running a program. -/
def execute (s : Service) (start : Evaluation) (p : Program) : Evaluation :=
  match Machine.create Heap.defaultDigest p s.heapWords with
  | .error (.prelude .crashed) => { errors := [crashText] }
  | .error (.heap .tooLarge) => { errors := [Heap.SizeFault.tooLarge.message] }
  | .error e => { start with errors := [e.message] }
  | .ok m =>
    let (outcome, m) := Machine.run { steps := s.stepLimit } Machine.patience m
    match outcome with
    | .value v => { start with success := true, result := v.text, steps := m.steps }
    | .failed e => { start with errors := [e.message], steps := m.steps }
    | .crashed => { errors := [crashText] }
    | .unfinished => { start with steps := m.steps }

/-- Checks, compiles and runs a tree. -/
def evaluate (s : Service) (t : Tree) (disassemble : Bool) : Evaluation × Service :=
  match s.compileTree t with
  | (.error (.failed e), s) => ({ errors := errorTexts e }, s)
  | (.error .crashed, s) => ({ errors := [crashText] }, s)
  | (.ok compiled, s) =>
    let listing := if disassemble then compiled.program.listing ∅ else ∅
    (s.execute { cached := compiled.cached, listing := listing } compiled.program, s)

/-- Compiles a tree to an image. -/
def compile (s : Service) (t : Tree) : Answer × Service :=
  match s.compileTree t with
  | (.error (.failed e), s) => (.compiled { errors := errorTexts e }, s)
  | (.error .crashed, s) => (.crashed, s)
  | (.ok compiled, s) =>
    (.compiled {
      success := true
      image := Image.encode compiled.program
      instructions := compiled.program.length
      cached := compiled.cached }, s)

/-- Checks a tree. -/
def check (t : Tree) : Answer :=
  match t.complaints with
  | .ok errors => .checked (errors.map CheckError.message)
  | .error .node => .crashed

/-- Carries out a request. -/
def perform (s : Service) (p : Procedure) (r : Request) : Answer × Service :=
  if !r.tree.isPresent then (.refused .noTree, s)
  else
    match p with
    | .evaluate =>
      let (outcome, s) := s.evaluate r.tree r.disassemble
      (.evaluated outcome, s)
    | .check => (check r.tree, s)
    | .compile => s.compile r.tree

/-- The refusal of a body without a request. -/
def Refusal.ofFault : BodyFault → Refusal
  | .empty => .emptyBody
  | .undecodable => .undecodable

/-- Answers a call: the procedure, the method, the format and the body are examined in this order. -/
def handle (s : Service) (c : Call) : Answer × Service :=
  match Procedure.ofName? c.procedure with
  | none => (.refused .unknownProcedure, s)
  | some p =>
    if c.method ≠ "POST" then (.refused .wrongMethod, s)
    else
      match Format.ofMediaType? c.contentType with
      | none => (.refused .unsupportedFormat, s)
      | some format =>
        match Request.read p format c.body with
        | .error fault => (.refused (.ofFault fault), s)
        | .ok r =>
          let (answer, s) := s.perform p r
          (if format = .json then answer.repaired else answer, s)

end Service

end Tenure
