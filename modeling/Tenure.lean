import Tenure.Calendar.Date
import Tenure.Calendar.Instant
import Tenure.Cbor.Decode
import Tenure.Cbor.Field
import Tenure.Cbor.Item
import Tenure.Check.Basic
import Tenure.Check.Error
import Tenure.Check.Rules
import Tenure.Check.Scopes
import Tenure.Code.Builtin
import Tenure.Code.Image
import Tenure.Code.Instr
import Tenure.Code.Listing
import Tenure.Code.Opcode
import Tenure.Command.Numeral
import Tenure.Command.Options
import Tenure.Command.Run
import Tenure.Compile.Environment
import Tenure.Compile.Error
import Tenure.Compile.Rules
import Tenure.Decimal.Layout
import Tenure.Decimal.Reader
import Tenure.Decimal.Shortest
import Tenure.Digest.Sha256
import Tenure.Double.Basic
import Tenure.Files.Access
import Tenure.Files.Memory
import Tenure.Files.Path
import Tenure.Heap.Alloc
import Tenure.Heap.Basic
import Tenure.Heap.Collect
import Tenure.Heap.Host
import Tenure.Heap.Node
import Tenure.Json.Reader
import Tenure.Json.Value
import Tenure.Machine.Error
import Tenure.Machine.Operator
import Tenure.Machine.Run
import Tenure.Machine.State
import Tenure.Machine.Step
import Tenure.Main
import Tenure.Manifest.Basic
import Tenure.Manifest.Load
import Tenure.Proofs.Anchors.Images
import Tenure.Proofs.Anchors.Instructions
import Tenure.Proofs.Anchors.Machine
import Tenure.Proofs.Anchors.Programs
import Tenure.Proofs.Assignment.Ownership
import Tenure.Proofs.Assignment.Programs
import Tenure.Proofs.Assignment.Rules
import Tenure.Proofs.Assignment.Soundness
import Tenure.Proofs.Assignment.Terms
import Tenure.Proofs.Assignment.Trees
import Tenure.Proofs.Cbor.Canonical
import Tenure.Proofs.Cbor.Reading
import Tenure.Proofs.Cbor.RoundTrip
import Tenure.Proofs.Check.Balance
import Tenure.Proofs.Check.Plain
import Tenure.Proofs.Check.Total
import Tenure.Proofs.Code.Reading
import Tenure.Proofs.Code.RoundTrip
import Tenure.Proofs.Compile.Layout
import Tenure.Proofs.Compile.Places
import Tenure.Proofs.Compile.Plain
import Tenure.Proofs.Compile.Resolution
import Tenure.Proofs.Compile.Steps
import Tenure.Proofs.Compile.Surroundings
import Tenure.Proofs.Compile.Total
import Tenure.Proofs.Compile.Validity
import Tenure.Proofs.Decimal.Digits
import Tenure.Proofs.Decimal.Reading
import Tenure.Proofs.Decimal.RoundTrip
import Tenure.Proofs.Decimal.Shortest
import Tenure.Proofs.Double.Encoding
import Tenure.Proofs.Double.Order
import Tenure.Proofs.Double.Rounding
import Tenure.Proofs.Endless.Host
import Tenure.Proofs.Endless.Machine
import Tenure.Proofs.Endless.Objects
import Tenure.Proofs.Endless.Run
import Tenure.Proofs.Heap.Allocate
import Tenure.Proofs.Heap.Collection
import Tenure.Proofs.Heap.Create
import Tenure.Proofs.Heap.HostValues
import Tenure.Proofs.Heap.Interning
import Tenure.Proofs.Heap.Mark
import Tenure.Proofs.Heap.Operations
import Tenure.Proofs.Heap.Sweep
import Tenure.Proofs.Lending.Programs
import Tenure.Proofs.Lending.Rules
import Tenure.Proofs.Lending.Soundness
import Tenure.Proofs.Lending.Terms
import Tenure.Proofs.Lending.Trees
import Tenure.Proofs.Machine.Integers
import Tenure.Proofs.Machine.Keeps
import Tenure.Proofs.Machine.Returns
import Tenure.Proofs.Machine.Steps
import Tenure.Proofs.Mirror.Allocation
import Tenure.Proofs.Mirror.Calls
import Tenure.Proofs.Mirror.Course
import Tenure.Proofs.Mirror.Create
import Tenure.Proofs.Mirror.Heap
import Tenure.Proofs.Mirror.Instructions
import Tenure.Proofs.Mirror.Machine
import Tenure.Proofs.Mirror.Operators
import Tenure.Proofs.Mirror.Run
import Tenure.Proofs.Naming.Blocks
import Tenure.Proofs.Naming.Expressions
import Tenure.Proofs.Naming.Programs
import Tenure.Proofs.Order.Checks
import Tenure.Proofs.Order.Items
import Tenure.Proofs.Order.Programs
import Tenure.Proofs.Program.Assignment
import Tenure.Proofs.Program.Evaluation
import Tenure.Proofs.Program.HeapSize
import Tenure.Proofs.Program.Integers
import Tenure.Proofs.Program.Strings
import Tenure.Proofs.Program.Structure
import Tenure.Proofs.Program.Types
import Tenure.Proofs.Safety.Addresses
import Tenure.Proofs.Safety.Heap
import Tenure.Proofs.Safety.Images
import Tenure.Proofs.Safety.Instructions
import Tenure.Proofs.Safety.Machine
import Tenure.Proofs.Safety.Operations
import Tenure.Proofs.Semantics.Contract
import Tenure.Proofs.Semantics.Eval
import Tenure.Proofs.Semantics.Guarded
import Tenure.Proofs.Semantics.Integers
import Tenure.Proofs.Semantics.Operators
import Tenure.Proofs.Semantics.Term
import Tenure.Proofs.Simulation.Instructions
import Tenure.Proofs.Simulation.Logic
import Tenure.Proofs.Simulation.Program
import Tenure.Proofs.Simulation.Terms
import Tenure.Proofs.Simulation.World
import Tenure.Proofs.Store.Cache
import Tenure.Proofs.Store.Key
import Tenure.Proofs.Text.Characters
import Tenure.Proofs.Text.Quoted
import Tenure.Proofs.Tree.Canonical
import Tenure.Proofs.Tree.Complete
import Tenure.Proofs.Tree.Plain
import Tenure.Proofs.Typing.Blocks
import Tenure.Proofs.Typing.Checks
import Tenure.Proofs.Typing.Expressions
import Tenure.Proofs.Typing.Literals
import Tenure.Proofs.Typing.Names
import Tenure.Proofs.Typing.Normal
import Tenure.Proofs.Typing.Notation
import Tenure.Proofs.Typing.Paths
import Tenure.Proofs.Typing.Programs
import Tenure.Proofs.Typing.Soundness
import Tenure.Proofs.Typing.Terms
import Tenure.Service.Address
import Tenure.Service.Answer
import Tenure.Service.Handler
import Tenure.Service.MediaType
import Tenure.Service.Request
import Tenure.Stop
import Tenure.Store.Cache
import Tenure.Store.File
import Tenure.Store.Key
import Tenure.Text.Basic
import Tenure.Text.Blank
import Tenure.Text.Case
import Tenure.Text.Printable
import Tenure.Text.Quoted
import Tenure.Text.Utf8
import Tenure.Toml.Document
import Tenure.Toml.Number
import Tenure.Toml.Reader
import Tenure.Toml.Time
import Tenure.Toml.Value
import Tenure.Tree.Basic
import Tenure.Tree.Binary
import Tenure.Tree.Build
import Tenure.Tree.Draft
import Tenure.Tree.Payload
import Tenure.Tree.Reader
import Tenure.Typing.Ascription
import Tenure.Typing.Literal
import Tenure.Typing.Ty
