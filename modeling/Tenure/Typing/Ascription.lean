import Tenure.Typing.Ty

/-!
# Reading type ascriptions

An ascription is a primitive name, `()`, a reference or a function type; spaces may stand between its parts. A
shared reference to a string is the string type itself, and `String` is another name for it.
-/

set_option autoImplicit false

namespace Tenure

/-- Why a text is not a type. -/
inductive AscriptionError where
  | unexpected (rest source : Text)
  | tuple (source : Text)
  | missing (source : Text)
  | unknown (name : Text)
  | expectedParenthesis (source : Text)
  | expectedComma (source : Text)
deriving DecidableEq, Repr

/-- The text of a defect of an ascription. -/
def AscriptionError.message : AscriptionError → Text
  | .unexpected rest source => "unexpected " ++ rest.quoted ++ " in type " ++ source.quoted
  | .tuple source => "tuple types are not supported: " ++ source.quoted
  | .missing source => "missing type in " ++ source.quoted
  | .unknown name => "unknown type " ++ name.quoted
  | .expectedParenthesis source => "expected ( after fn in " ++ source.quoted
  | .expectedComma source => "expected , in " ++ source.quoted

namespace Ascription

open Text (octet isDigit)

/-- The octets from the first that is not a space. -/
def skipSpaces (octets : List UInt8) : List UInt8 := octets.dropWhile (· = 32)

/-- What follows a word after spaces, if the word comes next. -/
def accept? (word : Text) (octets : List UInt8) : Option (List UInt8) :=
  (Text.dropStart? ⟨skipSpaces octets⟩ word).map Text.octets

/-- Whether an octet can be part of a name. -/
def isNameOctet (b : UInt8) : Bool :=
  b = 95 || (97 ≤ b && b ≤ 122) || (65 ≤ b && b ≤ 90) || isDigit b

/-- The name that comes next after spaces, possibly empty, and the rest. -/
def takeName (octets : List UInt8) : Text × List UInt8 :=
  let octets := skipSpaces octets
  (⟨octets.takeWhile isNameOctet⟩, octets.dropWhile isNameOctet)

/-- The word that allows change if it comes next, and the rest. -/
def takeMutable (octets : List UInt8) : Bool × List UInt8 :=
  match takeName octets with
  | (name, rest) => if name = "mut" then (true, rest) else (false, octets)

/-- A reference to a type; a shared reference to a string is a string. -/
def referenceTo (target : Ty) (mutable : Bool) : Ty :=
  if target = .str ∧ mutable = false then .str else .reference target mutable

/-- The primitive type of a name. -/
def primitive? (name : Text) : Option Ty :=
  if name = "i32" then some .i32
  else if name = "f32" then some .f32
  else if name = "bool" then some .bool
  else if name = "char" then some .char
  else if name = "str" then some .str
  else if name = "String" then some .str
  else none

mutual

/-- The type that comes next, and the rest. -/
def takeType (source : Text) : Nat → List UInt8 → Except AscriptionError (Ty × List UInt8)
  | 0, _ => .error (.missing source)
  | fuel + 1, octets =>
    match accept? "&" octets with
    | some rest => do
      let (mutable, rest) := takeMutable rest
      let (target, rest) ← takeType source fuel rest
      return (referenceTo target mutable, rest)
    | none =>
      match accept? "(" octets with
      | some rest =>
        match accept? ")" rest with
        | some rest => .ok (.unit, rest)
        | none => .error (.tuple source)
      | none =>
        let (name, rest) := takeName octets
        match primitive? name with
        | some t => .ok (t, rest)
        | none =>
          if name = "fn" then
            match accept? "(" rest with
            | none => .error (.expectedParenthesis source)
            | some rest => do
              let (parameters, rest) ← takeParameters source fuel [] rest
              match accept? "->" rest with
              | none => return (.function parameters .unit, rest)
              | some rest => do
                let (result, rest) ← takeType source fuel rest
                return (.function parameters result, rest)
          else if name.isEmpty then .error (.missing source)
          else .error (.unknown name)

/-- The parameter types up to the closing parenthesis, after those taken before in reverse, and the rest. -/
def takeParameters (source : Text) :
    Nat → List Ty → List UInt8 → Except AscriptionError (List Ty × List UInt8)
  | 0, _, _ => .error (.missing source)
  | fuel + 1, acc, octets =>
    match accept? ")" octets with
    | some rest => .ok (acc.reverse, rest)
    | none => do
      let rest ← if acc.isEmpty then .ok octets else
        match accept? "," octets with
        | some rest => .ok rest
        | none => .error (.expectedComma source)
      let (t, rest) ← takeType source fuel rest
      takeParameters source fuel (t :: acc) rest

end

end Ascription

/-- The type that a text writes. Reading takes at most two steps for each octet. -/
def Ty.read (source : Text) : Except AscriptionError Ty := do
  let (t, rest) ← Ascription.takeType source (2 * source.size + 2) source.octets
  let rest := Ascription.skipSpaces rest
  if rest.isEmpty then return t else .error (.unexpected ⟨rest⟩ source)

end Tenure
