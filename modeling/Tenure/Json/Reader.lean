import Tenure.Json.Value
import Tenure.Text.Quoted

/-!
# Reading structured text

`Json.first?` reads the first value of a text and ignores what follows it. Strings are repaired while they are
read: octets that are not UTF-8 and surrogates without a partner become the replacement character. Containers
nest at most ten thousand deep.
-/

set_option autoImplicit false

namespace Tenure.Json

open Text (octet isDigit encodeScalar firstPiece replacement hexEscape?)

/-- How deep containers may nest. -/
def maxNesting : Nat := 10000

/-- Whether an octet is blank. -/
def isBlank (b : UInt8) : Bool := b = 32 || b = 9 || b = 10 || b = 13

/-- The octets from the first that is not blank. -/
def skipBlanks (octets : List UInt8) : List UInt8 := octets.dropWhile isBlank

/-- Whether a code unit is the first half of a surrogate pair. -/
def isHighSurrogate (unit : Nat) : Bool := 0xd800 ≤ unit && unit < 0xdc00

/-- Whether a code unit is the second half of a surrogate pair. -/
def isLowSurrogate (unit : Nat) : Bool := 0xdc00 ≤ unit && unit < 0xe000

/-- The second half of a surrogate pair if an escape of one comes next, and the rest. -/
def takeLowSurrogate? : List UInt8 → Option (Nat × List UInt8)
  | b :: u :: rest => do
    if b = octet '\\' ∧ u = octet 'u' then
      let (unit, rest) ← hexEscape? 4 rest
      if isLowSurrogate unit then some (unit, rest) else none
    else none
  | _ => none

/-- The scalar value that a code unit stands for, with its partner if it has one, and the rest. -/
def completeUnit (unit : Nat) (rest : List UInt8) : Nat × List UInt8 :=
  if isHighSurrogate unit then
    match takeLowSurrogate? rest with
    | some (low, rest) => (0x10000 + (unit - 0xd800) * 1024 + (low - 0xdc00), rest)
    | none => (replacement, rest)
  else if isLowSurrogate unit then (replacement, rest)
  else (unit, rest)

/-- The octets that the escape after a backslash stands for, and the rest. -/
def escape? : List UInt8 → Option (List UInt8 × List UInt8)
  | [] => none
  | c :: rest =>
    if c = octet '"' ∨ c = octet '\\' ∨ c = octet '/' then some ([c], rest)
    else if c = octet 'b' then some ([8], rest)
    else if c = octet 'f' then some ([12], rest)
    else if c = octet 'n' then some ([10], rest)
    else if c = octet 'r' then some ([13], rest)
    else if c = octet 't' then some ([9], rest)
    else if c = octet 'u' then do
      let (unit, rest) ← hexEscape? 4 rest
      let (code, rest) := completeUnit unit rest
      some (encodeScalar code, rest)
    else none

/-- The characters of a string up to its closing quote, after those taken before in reverse, and the rest. -/
def takeString? : Nat → List UInt8 → List UInt8 → Option (Text × List UInt8)
  | 0, _, _ => none
  | fuel + 1, acc, octets =>
    match octets with
    | [] => none
    | c :: rest =>
      if c = octet '"' then some (⟨acc.reverse⟩, rest)
      else if c = octet '\\' then
        match escape? rest with
        | some (octets, rest) => takeString? fuel (octets.reverse ++ acc) rest
        | none => none
      else if c < 0x20 then none
      else if c < 0x80 then takeString? fuel (c :: acc) rest
      else
        match firstPiece c rest with
        | (.scalar code, more) => takeString? fuel ((encodeScalar code).reverse ++ acc) (rest.drop more)
        | (.stray _, _) => takeString? fuel ((encodeScalar replacement).reverse ++ acc) rest

/-- A run of digits, and the rest. -/
def takeDigits (octets : List UInt8) : List UInt8 × List UInt8 :=
  (octets.takeWhile isDigit, octets.dropWhile isDigit)

/-- An optional minus sign, and the rest. -/
def takeMinus : List UInt8 → List UInt8 × List UInt8
  | c :: rest => if c = octet '-' then ([c], rest) else ([], c :: rest)
  | [] => ([], [])

/-- The integer part of a number: a zero, or digits that do not start with one. -/
def takeInteger? (octets : List UInt8) : Option (List UInt8 × List UInt8) :=
  match octets with
  | c :: rest =>
    if c = octet '0' then some ([c], rest)
    else
      match takeDigits octets with
      | ([], _) => none
      | parts => some parts
  | [] => none

/-- The fraction of a number, if a point comes next. -/
def takeFraction? (octets : List UInt8) : Option (List UInt8 × List UInt8) :=
  match octets with
  | c :: rest =>
    if c = octet '.' then
      match takeDigits rest with
      | ([], _) => none
      | (digits, rest) => some (c :: digits, rest)
    else some ([], octets)
  | [] => some ([], [])

/-- The exponent of a number, if its mark comes next. -/
def takeExponent? (octets : List UInt8) : Option (List UInt8 × List UInt8) :=
  match octets with
  | c :: rest =>
    if c = octet 'e' ∨ c = octet 'E' then
      let (sign, rest) := match rest with
        | s :: more => if s = octet '+' ∨ s = octet '-' then ([s], more) else ([], rest)
        | [] => ([], [])
      match takeDigits rest with
      | ([], _) => none
      | (digits, rest) => some (c :: sign ++ digits, rest)
    else some ([], octets)
  | [] => some ([], [])

/-- A number as it is written, and the rest. -/
def takeNumber? (octets : List UInt8) : Option (Text × List UInt8) := do
  let (sign, rest) := takeMinus octets
  let (integer, rest) ← takeInteger? rest
  let (fraction, rest) ← takeFraction? rest
  let (exponent, rest) ← takeExponent? rest
  some (⟨sign ++ integer ++ fraction ++ exponent⟩, rest)

/-- A word that has to come next, and the rest. -/
def takeWord? (word : Text) (octets : List UInt8) : Option (List UInt8) :=
  (Text.dropStart? ⟨octets⟩ word).map Text.octets

/-- An octet that has to come next after blanks, and the rest. -/
def takeMark? (mark : Char) (octets : List UInt8) : Option (List UInt8) :=
  match skipBlanks octets with
  | c :: rest => if c = octet mark then some rest else none
  | [] => none

mutual

/-- The first value of some octets, and the rest; `room` is how many containers may still open. -/
def takeValue? : Nat → Nat → List UInt8 → Option (Value × List UInt8)
  | 0, _, _ => none
  | fuel + 1, room, octets =>
    match skipBlanks octets with
    | [] => none
    | c :: rest =>
      if c = octet '\x7b' then
        if room = 0 then none
        else
          match takeMark? '\x7d' rest with
          | some rest => some (.object [], rest)
          | none => do
            let (members, rest) ← takeMembers? fuel (room - 1) [] rest
            some (.object members, rest)
      else if c = octet '[' then
        if room = 0 then none
        else
          match takeMark? ']' rest with
          | some rest => some (.array [], rest)
          | none => do
            let (items, rest) ← takeElements? fuel (room - 1) [] rest
            some (.array items, rest)
      else if c = octet '"' then do
        let (t, rest) ← takeString? (rest.length + 1) [] rest
        some (.string t, rest)
      else if c = octet 't' then do some (.bool true, ← takeWord? "true" (c :: rest))
      else if c = octet 'f' then do some (.bool false, ← takeWord? "false" (c :: rest))
      else if c = octet 'n' then do some (.null, ← takeWord? "null" (c :: rest))
      else do
        let (token, rest) ← takeNumber? (c :: rest)
        some (.number token, rest)

/-- The elements of an array up to its end, after those taken before in reverse, and the rest. -/
def takeElements? : Nat → Nat → List Value → List UInt8 → Option (List Value × List UInt8)
  | 0, _, _, _ => none
  | fuel + 1, room, acc, octets =>
    match takeValue? fuel room octets with
    | none => none
    | some (v, rest) =>
      match skipBlanks rest with
      | [] => none
      | c :: rest =>
        if c = octet ',' then takeElements? fuel room (v :: acc) rest
        else if c = octet ']' then some ((v :: acc).reverse, rest)
        else none

/-- The members of an object up to its end, after those taken before in reverse, and the rest. -/
def takeMembers? : Nat → Nat → List (Text × Value) → List UInt8 → Option (List (Text × Value) × List UInt8)
  | 0, _, _, _ => none
  | fuel + 1, room, acc, octets =>
    match takeMark? '"' octets with
    | none => none
    | some rest =>
      match takeString? (rest.length + 1) [] rest with
      | none => none
      | some (key, rest) =>
        match takeMark? ':' rest with
        | none => none
        | some rest =>
          match takeValue? fuel room rest with
          | none => none
          | some (v, rest) =>
            match skipBlanks rest with
            | [] => none
            | c :: rest =>
              if c = octet ',' then takeMembers? fuel room ((key, v) :: acc) rest
              else if c = octet '\x7d' then some (((key, v) :: acc).reverse, rest)
              else none

end

/-- The first value of a text. Reading takes fewer steps than twice the number of octets. -/
def first? (t : Text) : Option Value :=
  (takeValue? (2 * t.size + 2) maxNesting t.octets).map Prod.fst

end Tenure.Json
