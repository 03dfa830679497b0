import Tenure.Command.Numeral

/-!
# Options of the command

An option begins with one or two dashes and may have its value after an equals sign or, unless it is a switch, as the
next argument. Options end at the first argument that is none, or after two dashes alone.
-/

set_option autoImplicit false

namespace Tenure.Command

/-- What the arguments of the command ask for. -/
structure Options where
  verbosity : Int := 0
  checkOnly : Bool := false
  disassemble : Bool := false
  output : Text := ∅
  heapWords : Int := 0
  /-- The largest number of instructions; negative if the manifest decides. -/
  stepLimit : Int := -1
  trace : Bool := false
  noCache : Bool := false
  address : Text := ∅
  arguments : List Text := []
deriving DecidableEq, Repr

/-- What is wrong with the arguments. -/
inductive UsageFault where
  | badSyntax (argument : Text)
  | undefined (name : Text)
  | needsArgument (name : Text)
  | badSwitch (name value reason : Text)
  | badValue (name value : Text) (fault : NumberFault)
  /-- Not a fault: the usage was asked for. -/
  | help
deriving DecidableEq, Repr

/-- The text of what is wrong with the arguments; empty if nothing is. -/
def UsageFault.message : UsageFault → Text
  | .badSyntax argument => "bad flag syntax: " ++ argument ++ "\n"
  | .undefined name => "flag provided but not defined: -" ++ name ++ "\n"
  | .needsArgument name => "flag needs an argument: -" ++ name ++ "\n"
  | .badSwitch name value reason =>
    "invalid boolean value " ++ value.quoted ++ " for -" ++ name ++ ": " ++ reason ++ "\n"
  | .badValue name value fault =>
    "invalid value " ++ value.quoted ++ " for flag -" ++ name ++ ": " ++ fault.message ++ "\n"
  | .help => ∅

/-- The options there are. -/
inductive Flag where
  | verbose
  | check
  | disasm
  | trace
  | noCache
  | output
  | serve
  | heap
  | steps
deriving DecidableEq, Repr

/-- The name of an option. -/
def Flag.name : Flag → Text
  | .verbose => "v"
  | .check => "check"
  | .disasm => "disasm"
  | .trace => "trace"
  | .noCache => "no-cache"
  | .output => "o"
  | .serve => "serve"
  | .heap => "heap"
  | .steps => "steps"

/-- The option of a name. -/
def Flag.ofName? (name : Text) : Option Flag :=
  [Flag.verbose, .check, .disasm, .trace, .noCache, .output, .serve, .heap, .steps].find? fun f => f.name = name

/-- Whether an option is a switch, which never takes the next argument. -/
def Flag.isSwitch : Flag → Bool
  | .verbose | .check | .disasm | .trace | .noCache => true
  | .output | .serve | .heap | .steps => false

/-- The truth value given to a switch. -/
def switchValue (name value : Text) : Except UsageFault Bool :=
  match Decimal.readBool? value with
  | some b => .ok b
  | none => .error (.badSwitch name value NumberFault.notNumber.message)

/-- The number given to an option. -/
def numberValue (name value : Text) : Except UsageFault Int :=
  match readWord value with
  | .ok n => .ok n
  | .error fault => .error (.badValue name value fault)

/-- The verbosity after another mention of its option: one more, or the number given. -/
def verbosityValue (old : Int) (value : Text) : Except UsageFault Int :=
  if value = "true" then .ok (old + 1)
  else
    match readDecimalWord value with
    | .ok n => .ok n
    | .error fault => .error (.badSwitch Flag.verbose.name value (fault.decimalMessage value))

/-- The options after one more with its value. -/
def Options.set (o : Options) (f : Flag) (value : Text) : Except UsageFault Options := do
  match f with
  | .verbose => return { o with verbosity := ← verbosityValue o.verbosity value }
  | .check => return { o with checkOnly := ← switchValue f.name value }
  | .disasm => return { o with disassemble := ← switchValue f.name value }
  | .trace => return { o with trace := ← switchValue f.name value }
  | .noCache => return { o with noCache := ← switchValue f.name value }
  | .output => return { o with output := value }
  | .serve => return { o with address := value }
  | .heap => return { o with heapWords := ← numberValue f.name value }
  | .steps => return { o with stepLimit := ← numberValue f.name value }

/-- What one argument means. -/
inductive Argument where
  /-- No option: it and all that follow are left. -/
  | plain
  /-- The end of the options. -/
  | stop
  | malformed
  | option (name : Text) (value : Option Text)
deriving DecidableEq, Repr

/-- The name of an option, and the value after an equals sign. -/
def splitOption (octets : List UInt8) : Argument :=
  let name := octets.takeWhile (· ≠ Text.octet '=')
  match octets.drop name.length with
  | [] => .option ⟨name⟩ none
  | _ :: value => .option ⟨name⟩ (some ⟨value⟩)

/-- What an argument means. -/
def Argument.of (t : Text) : Argument :=
  let body (octets : List UInt8) : Argument :=
    match octets with
    | [] => .malformed
    | c :: _ => if c = Text.octet '-' ∨ c = Text.octet '=' then .malformed else splitOption octets
  match t.octets with
  | dash :: next :: rest =>
    if dash ≠ Text.octet '-' then .plain
    else if next = Text.octet '-' then (if rest.isEmpty then .stop else body rest)
    else body (next :: rest)
  | _ => .plain

/-- The fault of an option that is not there. -/
def unknownOption (name : Text) : UsageFault :=
  if name = "help" ∨ name = "h" then .help else .undefined name

/-- Reads options up to the first argument that is none. -/
def Options.readFrom (o : Options) : List Text → Except UsageFault Options
  | [] => .ok o
  | argument :: rest =>
    match Argument.of argument with
    | .plain => .ok { o with arguments := argument :: rest }
    | .stop => .ok { o with arguments := rest }
    | .malformed => .error (.badSyntax argument)
    | .option name value =>
      match Flag.ofName? name with
      | none => .error (unknownOption name)
      | some f =>
        match value, rest with
        | some value, rest =>
          match o.set f value with
          | .ok o => o.readFrom rest
          | .error fault => .error fault
        | none, rest =>
          if f.isSwitch then
            match o.set f "true" with
            | .ok o => o.readFrom rest
            | .error fault => .error fault
          else
            match rest with
            | [] => .error (.needsArgument name)
            | value :: rest =>
              match o.set f value with
              | .ok o => o.readFrom rest
              | .error fault => .error fault

/-- What arguments ask for. -/
def Options.read (arguments : List Text) : Except UsageFault Options := Options.readFrom {} arguments

/-- How the command is used. -/
def usage : Text :=
  "Usage: rivet [options] [file]\n\n" ++
  "Runs a program given as a JSON tree (or a compiled .rvbc image).\n" ++
  "With no file, runs the entry program named in rivet.toml.\n\n" ++
  "Options:\n" ++
  "  -check\n    \tType-check only, do not compile or run\n" ++
  "  -disasm\n    \tPrint the disassembled program before running\n" ++
  "  -heap int\n    \tHeap size in words (default from rivet.toml, else 10000)\n" ++
  "  -no-cache\n    \tDo not use the compiled program cache\n" ++
  "  -o file\n    \tWrite the compiled program image to file instead of running\n" ++
  "  -serve addr\n    \tStart the evaluation server on addr (- for the rivet.toml address)\n" ++
  "  -steps int\n    \tMaximum instructions to execute, 0 for unbounded (default from rivet.toml) (default -1)\n" ++
  "  -trace\n    \tLog every executed instruction (needs -v -v)\n" ++
  "  -v\tIncrease log verbosity (repeatable)\n" ++
  "\nExamples:\n" ++
  "  rivet prog.json                # Run a program\n" ++
  "  rivet -check prog.json         # Type-check only\n" ++
  "  rivet -o prog.rvbc prog.json   # Compile to an image\n" ++
  "  rivet -disasm prog.rvbc        # Disassemble and run an image\n" ++
  "  rivet -serve :4567             # Start the evaluation server\n"

end Tenure.Command
