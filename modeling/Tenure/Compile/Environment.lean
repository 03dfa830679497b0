import Tenure.Code.Instr

/-!
# Compile-time environments

While code is generated, every binding has a fixed position: a frame, counted from the outermost, and a slot in it.
Beside its name a binding carries what is known of it at the current place: whether it still owns its value, how it is
borrowed, which binding its value refers to, and whether it is in scope yet. Bindings have numbers that are never used
twice, so that saved states can be put back onto the same bindings only.
-/

set_option autoImplicit false

namespace Tenure

/-- The strongest borrow of a binding. -/
inductive Borrow where
  | none
  | immutable
  | mutable
deriving DecidableEq, Repr, Inhabited

namespace Borrow

/-- The name of a borrow. -/
def text : Borrow → Text
  | .none => "none"
  | .immutable => "immutable"
  | .mutable => "mutable"

/-- How strong a borrow is. -/
def rank : Borrow → Nat
  | .none => 0
  | .immutable => 1
  | .mutable => 2

/-- The stronger of two borrows. -/
def stronger (a b : Borrow) : Borrow := if a.rank < b.rank then b else a

end Borrow

/-- What is known of a binding at a place of the program. -/
structure Variable where
  id : Nat
  name : Text
  /-- Whether the binding still owns its value. -/
  owns : Bool := true
  borrow : Borrow := .none
  /-- The number of shared borrows taken. -/
  shares : Int := 0
  /-- The binding that the value refers to, if the value came from a borrow. -/
  lends : Option Nat := .none
  /-- A hidden binding has a slot but is not in scope yet. -/
  hidden : Bool := false
deriving DecidableEq, Repr

/-- The bindings of one scope in slot order. -/
abbrev Frame := List Variable

/-- All bindings around a place: frames, outermost first. -/
structure Environment where
  frames : List Frame := []
  /-- The number of the next binding. -/
  fresh : Nat := 0
deriving DecidableEq, Repr

namespace Frame

/-- New bindings, numbered from a number on. -/
def ofNames : List Text → Nat → Frame
  | [], _ => []
  | name :: rest, id => { id, name } :: ofNames rest (id + 1)

/-- The last slot of a visible binding of a name, slots being counted from a number on. -/
def visible? (name : Text) : Frame → Nat → Option (Nat × Variable)
  | [], _ => none
  | v :: rest, slot =>
    match visible? name rest (slot + 1) with
    | some found => some found
    | none => if v.name = name ∧ v.hidden = false then some (slot, v) else none

/-- The first slot of a hidden binding of a name. -/
def hidden? (name : Text) : Frame → Nat → Option (Nat × Variable)
  | [], _ => none
  | v :: rest, slot =>
    if v.name = name ∧ v.hidden = true then some (slot, v) else hidden? name rest (slot + 1)

/-- Hides the bindings whose flag says so. -/
def hide : Frame → List Bool → Frame
  | v :: rest, flag :: flags => { v with hidden := flag } :: hide rest flags
  | f, [] => f
  | [], _ => []

end Frame

namespace Environment

/-- The number of frames. -/
def depth (env : Environment) : Nat := env.frames.length

/-- The environment with a new innermost frame, whose bindings own their values. -/
def extend (env : Environment) (names : List Text) : Environment :=
  { frames := env.frames ++ [Frame.ofNames names env.fresh], fresh := env.fresh + names.length }

/-- The environment without its innermost frame. -/
def shrink (env : Environment) : Environment := { env with frames := env.frames.dropLast }

/-- The innermost frame. -/
def innermost? (env : Environment) : Option Frame := env.frames.getLast?

/-- The position of a slot. -/
def positionOf (frame slot : Nat) : Position := ⟨frame, slot⟩

/-- The innermost visible binding of a name in frames that are counted from a number on. -/
def search? (name : Text) : List Frame → Nat → Option (Position × Variable)
  | [], _ => none
  | f :: rest, frame =>
    match search? name rest (frame + 1) with
    | some found => some found
    | none => (f.visible? name 0).map fun (slot, v) => (positionOf frame slot, v)

/-- The innermost visible binding of a name, with its position. Within a frame the last slot counts. -/
def find? (env : Environment) (name : Text) : Option (Position × Variable) := search? name env.frames 0

/-- All bindings, in the order of their positions. -/
def bindings (env : Environment) : List Variable := env.frames.flatten

/-- The binding of a number. -/
def get? (env : Environment) (id : Nat) : Option Variable := env.bindings.find? fun v => v.id = id

/-- Changes every binding. -/
def map (env : Environment) (f : Variable → Variable) : Environment :=
  { env with frames := env.frames.map (List.map f) }

/-- Changes the binding of a number. -/
def update (env : Environment) (id : Nat) (f : Variable → Variable) : Environment :=
  env.map fun v => if v.id = id then f v else v

/-- Changes the innermost frame. -/
def onInnermost (env : Environment) (f : Frame → Frame) : Environment :=
  match env.innermost? with
  | none => env
  | some frame => { env with frames := env.frames.dropLast ++ [f frame] }

/-- Changes every binding that also has a saved state, given both. -/
def combine (env : Environment) (saved : Environment) (f : Variable → Variable → Variable) :
    Environment :=
  env.map fun v =>
    match saved.get? v.id with
    | some s => f s v
    | none => v

/-- Puts the saved borrows back. Moves stay in effect. -/
def restoreBorrows (env saved : Environment) : Environment :=
  env.combine saved fun s v => { v with borrow := s.borrow, shares := s.shares }

/-- Puts the saved ownership back. -/
def restoreOwnership (env saved : Environment) : Environment :=
  env.combine saved fun s v => { v with owns := s.owns }

end Environment

end Tenure
