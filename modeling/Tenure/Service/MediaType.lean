import Tenure.Text.Blank
import Tenure.Text.Case
import Tenure.Text.Quoted

/-!
# Media types

A media type has a base and parameters, such as `application/json; charset=utf-8`. The value of a parameter is a word
or stands in quotes. A parameter whose name has a star in it is written in a character set that the value names, or is
one of the numbered parts of a longer value.
-/

set_option autoImplicit false

namespace Tenure

/-- A media type: its base in small letters, and its parameters, each name once. -/
structure MediaType where
  base : Text
  parameters : List (Text × Text)
deriving DecidableEq, Repr

namespace MediaType

open Text (octet)

/-- Whether an octet has a meaning of its own in a media type. -/
def isSpecial (b : UInt8) : Bool := (Text.octets "()<>@,;:\\\"/[]?=").contains b

/-- Whether an octet may stand in a word. -/
def isWordPart (b : UInt8) : Bool := 0x20 < b && b < 0x7f && !isSpecial b

/-- Whether a base is a word, or two words with a slash between them. -/
def isBase (base : Text) : Bool :=
  match Text.splitWhere (· = octet '/') base.octets with
  | [type] => !type.isEmpty && type.all isWordPart
  | [type, subtype] => !type.isEmpty && type.all isWordPart && !subtype.isEmpty && subtype.all isWordPart
  | _ => false

/-- A value up to its closing quote, after what has been read of it in reverse, and the rest. A backslash counts as
itself except before an octet with a meaning of its own. -/
def takeQuoted? : List UInt8 → List UInt8 → Option (List UInt8 × List UInt8)
  | _, [] => none
  | acc, [c] => if c = octet '"' then some (acc.reverse, []) else none
  | acc, c :: d :: rest =>
    if c = octet '"' then some (acc.reverse, d :: rest)
    else if c = octet '\\' ∧ isSpecial d then takeQuoted? (d :: acc) rest
    else if c = 13 ∨ c = 10 then none
    else takeQuoted? (c :: acc) (d :: rest)

/-- A word that is not empty, and the rest. -/
def takeWord? (octets : List UInt8) : Option (List UInt8 × List UInt8) :=
  let word := octets.takeWhile isWordPart
  if word.isEmpty then none else some (word, octets.drop word.length)

/-- The value of a parameter, and the rest. -/
def takeValue? (octets : List UInt8) : Option (List UInt8 × List UInt8) :=
  match octets with
  | c :: rest => if c = octet '"' then takeQuoted? [] rest else takeWord? octets
  | [] => none

/-- What follows white space and a mark, without white space in front of it. -/
def skipMark? (mark : Char) (octets : List UInt8) : Option (List UInt8) :=
  match (Text.trimmedLeft ⟨octets⟩).octets with
  | c :: rest => if c = octet mark then some (Text.trimmedLeft ⟨rest⟩).octets else none
  | [] => none

/-- A semicolon and a parameter, its name in small letters, and the rest. -/
def takeParameter? (octets : List UInt8) : Option ((Text × Text) × List UInt8) := do
  let (name, rest) ← takeWord? (← skipMark? ';' octets)
  let (value, rest) ← takeValue? (← skipMark? '=' rest)
  some ((Text.lower ⟨name⟩, ⟨value⟩), rest)

/-- The value under a name. -/
def valueOf? (parameters : List (Text × Text)) (name : Text) : Option Text :=
  (parameters.find? fun parameter => parameter.1 = name).map Prod.snd

/-- The parameters as they are written, after those read before. A semicolon at the end is ignored, and a name may come
again only with the same value. Every parameter has more than one octet, so as many steps as there are octets
suffice. -/
def takeParameters? : Nat → List (Text × Text) → List UInt8 → Option (List (Text × Text))
  | 0, acc, _ => some acc
  | fuel + 1, acc, octets =>
    if (Text.trimmed ⟨octets⟩).isEmpty ∨ Text.trimmed ⟨octets⟩ = ";" then some acc
    else do
      let ((name, value), rest) ← takeParameter? octets
      match valueOf? acc name with
      | some earlier => if earlier = value then takeParameters? fuel acc rest else none
      | none => takeParameters? fuel (acc ++ [(name, value)]) rest

/-! ## Parameters with a star -/

/-- The octets that a text with percent signs stands for. -/
def percentDecode? : List UInt8 → Option (List UInt8)
  | [] => some []
  | c :: rest =>
    if c = octet '%' then
      match rest with
      | high :: low :: rest => do
        let v ← Text.hexValue? [high, low]
        some (v.toUInt8 :: (← percentDecode? rest))
      | _ => none
    else do some (c :: (← percentDecode? rest))

/-- The value after the name of a character set and of a language, each with an apostrophe behind it. -/
def decodeExtended? (value : Text) : Option Text :=
  let quote := octet (Char.ofNat 39)
  let charset := value.octets.takeWhile (· ≠ quote)
  match value.octets.drop charset.length with
  | [] => none
  | _ :: rest =>
    let name := Text.small ⟨charset⟩
    match rest.dropWhile (· ≠ quote) with
    | [] => none
    | _ :: encoded =>
      if name = "us-ascii" ∨ name = "utf-8" then (percentDecode? encoded).map Text.mk else none

/-- The numbered parts of a value from a number on, one after the other; `steps` is how many there can be. -/
def joinParts (parameters : List (Text × Text)) (name : Text) : Nat → Nat → List Text
  | 0, _ => []
  | steps + 1, n =>
    let part := name ++ "*" ++ Text.ofNat n
    match valueOf? parameters part with
    | some value => value :: joinParts parameters name steps (n + 1)
    | none =>
      match valueOf? parameters (part ++ "*") with
      | some value =>
        let decoded := if n = 0 then decodeExtended? value else (percentDecode? value.octets).map Text.mk
        decoded.getD ∅ :: joinParts parameters name steps (n + 1)
      | none => []

/-- The value of a parameter that is written with stars. -/
def starredValue? (parameters : List (Text × Text)) (name : Text) : Option Text :=
  match valueOf? parameters (name ++ "*") with
  | some value => decodeExtended? value
  | none =>
    match joinParts parameters name parameters.length 0 with
    | [] => none
    | parts => some (.concat parts)

/-- The name of a parameter in front of its first star, if it has one. -/
def starredName? (name : Text) : Option Text :=
  if name.contains '*' then some ⟨name.octets.takeWhile (· ≠ octet '*')⟩ else none

/-- The parameters without stars: a value written with stars stands in for one written without. -/
def resolve (parameters : List (Text × Text)) : List (Text × Text) :=
  let plain := parameters.filter fun parameter => !parameter.1.contains '*'
  let starred := (parameters.filterMap fun parameter => starredName? parameter.1).eraseDups.filterMap fun name =>
    (starredValue? parameters name).map fun value => (name, value)
  (plain.filter fun parameter => (valueOf? starred parameter.1).isNone) ++ starred

/-- Reads a media type. -/
def read? (t : Text) : Option MediaType := do
  let base := t.octets.takeWhile (· ≠ octet ';')
  let rest := t.octets.drop base.length
  let base := (Text.small ⟨base⟩).trimmed
  if isBase base then
    let parameters ← takeParameters? (rest.length + 1) [] rest
    some ⟨base, resolve parameters⟩
  else none

end MediaType

end Tenure
