import Tenure.Code.Instr
import Tenure.Decimal.Reader
import Tenure.Tree.Basic
import Tenure.Typing.Ty

/-!
# Literals of a program

A literal node carries a payload and usually its kind; a node without either may hold them in a terminal child. A
kind that was left out is guessed from the payload. The payload's text is read by the rules of its kind.
-/

set_option autoImplicit false

namespace Tenure

/-- Why a literal has no value. -/
inductive LiteralError where
  | invalidInt (text : Text)
  | outOfRange (text : Text)
  | invalidFloat (text : Text)
  | invalidBool (text : Text)
  /-- The quoted form of a character is malformed. -/
  | charQuotation (text : Text)
  /-- The text is not one character. -/
  | invalidChar (text : Text)
  /-- The quoted form of a string is malformed. -/
  | stringQuotation (text : Text)
  | unknownKind (kind : Text)
deriving DecidableEq, Repr

/-- The text of a defect of a literal. -/
def LiteralError.message : LiteralError → Text
  | .invalidInt text => "invalid i32 literal " ++ text.quoted
  | .outOfRange text => "integer literal " ++ text ++ " out of range for i32"
  | .invalidFloat text => "invalid f32 literal " ++ text.quoted
  | .invalidBool text => "invalid bool literal " ++ text.quoted
  | .charQuotation text => "invalid char literal " ++ text
  | .invalidChar text => "invalid char literal " ++ text.quoted
  | .stringQuotation text => "invalid string literal " ++ text
  | .unknownKind kind => "unknown literal type " ++ kind.quoted

namespace Literal

/-- The node that carries the payload of a literal: the node itself, or its terminal child. -/
def source (t : Tree) : Inspect Tree := do
  if t.val.isSome ∨ !t.type.isEmpty then return t
  else
    match ← t.child .terminal with
    | some inner => return inner
    | none => return t

/-- The integer that a floating point number holds, if it fits 64 bits. -/
def wholeNumber? (x : Float) : Option Int := do
  let n ← Double.integer? x
  if -0x8000000000000000 ≤ n ∧ n < 0x8000000000000000 then some n else none

/-- The kind that a payload suggests; empty if it suggests none. -/
def guessKind : Payload → Text
  | .bool _ => "bool"
  | .numeral token => if token.contains '.' ∨ token.contains 'e' ∨ token.contains 'E' then "f32" else "i32"
  | .float x => if (wholeNumber? x).isSome then "i32" else "f32"
  | .int _ => "i32"
  | .text _ => "str"
  | _ => ∅

/-- The kind of the literal that a node carries. -/
def kindOf (source : Tree) : Text :=
  if source.type.isEmpty then guessKind source.val else source.type

/-- Whether a kind is that of strings. -/
def isStringKind (kind : Text) : Bool := kind = "str" || kind = "String" || kind = "&str"

/-- The type of a literal kind. -/
def typeOfKind? (kind : Text) : Option Ty :=
  if kind = "i32" then some .i32
  else if kind = "f32" then some .f32
  else if kind = "bool" then some .bool
  else if kind = "char" then some .char
  else if isStringKind kind then some .str
  else none

/-- The text of a number without the name of its type at the end and without underscores. -/
def cleanNumeral (text kind : Text) : Text := (text.trimTail kind).erase '_'

/-- An integer literal: an integer numeral, or a floating point numeral without a fraction. -/
def readInt (text : Text) : Except LiteralError Literal :=
  let clean := cleanNumeral text "i32"
  let n? := match Decimal.readInt? clean with
    | some n => some n
    | none => (Decimal.readFloat? clean).bind wholeNumber?
  match n? with
  | none => .error (.invalidInt text)
  | some n => if -0x80000000 ≤ n ∧ n < 0x80000000 then .ok (.ofInt n) else .error (.outOfRange text)

/-- A floating point literal. -/
def readFloat (text : Text) : Except LiteralError Literal :=
  match Decimal.readFloat? (cleanNumeral text "f32") with
  | some x => .ok (.ofFloat x)
  | none => .error (.invalidFloat text)

/-- A truth value. -/
def readBool (val : Payload) (text : Text) : Except LiteralError Literal :=
  match val with
  | .bool b => .ok (.ofBool b)
  | _ =>
    match Decimal.readBool? text with
    | some b => .ok (.ofBool b)
    | none => .error (.invalidBool text)

/-- The code of a text that is one character; a single stray octet counts as the replacement character. -/
def singleCode? (t : Text) : Option Nat :=
  match t.pieces with
  | [.scalar code] => some code
  | [.stray _] => some Text.replacement
  | _ => none

/-- A character literal, in single quotes or bare. -/
def readChar (text : Text) : Except LiteralError Literal := do
  let bare ←
    if text.startsWith "'" then
      match text.unquote? with
      | some t => .ok t
      | none => .error (.charQuotation text)
    else .ok text
  match singleCode? bare with
  | some code => return .ofCode code
  | none => .error (.invalidChar text)

/-- A string literal, in double quotes or bare. -/
def readString (text : Text) : Except LiteralError Literal :=
  if text.startsWith "\"" then
    match text.unquote? with
    | some t => .ok (.ofText t)
    | none => .error (.stringQuotation text)
  else .ok (.ofText text)

/-- The literal that a payload-carrying node stands for. -/
def read (source : Tree) : Except LiteralError Literal :=
  let kind := kindOf source
  let text := source.text
  if kind = "i32" then readInt text
  else if kind = "f32" then readFloat text
  else if kind = "bool" then readBool source.val text
  else if kind = "char" then readChar text
  else if isStringKind kind then readString text
  else .error (.unknownKind kind)

end Literal

end Tenure
