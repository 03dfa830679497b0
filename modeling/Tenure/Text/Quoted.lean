import Tenure.Text.Utf8
import Tenure.Text.Printable

/-!
# Quoted texts

How texts and characters are shown in messages and listings, and how quoted literals are read back.
Quotation shows printable characters as themselves, the common control characters by a letter, every other
character by its code and a stray octet by its value. `unquote` reads a literal in single or double quotes.
-/

set_option autoImplicit false

namespace Tenure.Text

/-- The letter that names a control character after a backslash. -/
def controlLetter? (code : Nat) : Option Char :=
  match code with
  | 7 => some 'a'
  | 8 => some 'b'
  | 9 => some 't'
  | 10 => some 'n'
  | 11 => some 'v'
  | 12 => some 'f'
  | 13 => some 'r'
  | _ => none

/-- A scalar value as it stands between the given quotes. -/
def quoteScalar (mark : Char) (code : Nat) : Text :=
  if code = mark.toNat ∨ code = 92 then "\\" ++ (⟨encodeScalar code⟩ : Text)
  else if isPrintable code then ⟨encodeScalar code⟩
  else
    match controlLetter? code with
    | some c => "\\" ++ (⟨[octet c]⟩ : Text)
    | none =>
      if code < 32 ∨ code = 127 then "\\x" ++ ofHex code 2
      else if code < 0x10000 then "\\u" ++ ofHex code 4
      else "\\U" ++ ofHex code 8

/-- A piece of a text as it stands between the given quotes. -/
def quotePiece (mark : Char) : Piece → Text
  | .scalar code => quoteScalar mark code
  | .stray b => "\\x" ++ ofHex b.toNat 2

/-- A text in double quotes. -/
def quoted (t : Text) : Text := "\"" ++ concat (t.pieces.map (quotePiece '"')) ++ "\""

/-- A character in single quotes; a code point that is no scalar value shows as the replacement character. -/
def quotedCode (code : Int) : Text := "'" ++ quoteScalar '\'' (scalarOr code) ++ "'"

/-- The number that a run of hexadecimal digits writes, if all octets are such digits. -/
def hexValue? (digits : List UInt8) : Option Nat :=
  digits.foldl (fun value b => do
    let v ← value
    let d ← digitValue? b
    if d < 16 then some (16 * v + d) else none) (some 0)

/-- A code escape of a given number of hexadecimal digits, and the rest. -/
def hexEscape? (count : Nat) (rest : List UInt8) : Option (Nat × List UInt8) := do
  if rest.length < count then none
  else
    let value ← hexValue? (rest.take count)
    some (value, rest.drop count)

/-- The octets that the escape after a backslash stands for, and the rest. -/
def escape? (mark : UInt8) : List UInt8 → Option (List UInt8 × List UInt8)
  | [] => none
  | c :: rest =>
    if c = octet 'a' then some ([7], rest)
    else if c = octet 'b' then some ([8], rest)
    else if c = octet 'f' then some ([12], rest)
    else if c = octet 'n' then some ([10], rest)
    else if c = octet 'r' then some ([13], rest)
    else if c = octet 't' then some ([9], rest)
    else if c = octet 'v' then some ([11], rest)
    else if c = octet 'x' then do
      let (value, rest) ← hexEscape? 2 rest
      some ([value.toUInt8], rest)
    else if c = octet 'u' then do
      let (value, rest) ← hexEscape? 4 rest
      if isScalar value then some (encodeScalar value, rest) else none
    else if c = octet 'U' then do
      let (value, rest) ← hexEscape? 8 rest
      if isScalar value then some (encodeScalar value, rest) else none
    else if octet '0' ≤ c ∧ c ≤ octet '7' then
      match rest with
      | d :: e :: rest =>
        if octet '0' ≤ d ∧ d ≤ octet '7' ∧ octet '0' ≤ e ∧ e ≤ octet '7' then
          let value := (c.toNat - 48) * 64 + (d.toNat - 48) * 8 + (e.toNat - 48)
          if value < 256 then some ([value.toUInt8], rest) else none
        else none
      | _ => none
    else if c = octet '\\' then some ([c], rest)
    else if c = mark ∧ (mark = octet '\'' ∨ mark = octet '"') then some ([c], rest)
    else none

/-- One character of a quoted literal before its closing quote: the octets it stands for, and the rest. -/
def literalChar? (mark : UInt8) : List UInt8 → Option (List UInt8 × List UInt8)
  | [] => none
  | c :: rest =>
    if c = mark ∨ c = 10 then none
    else if c = octet '\\' then escape? mark rest
    else if c < 0x80 then some ([c], rest)
    else
      match firstPiece c rest with
      | (.scalar code, more) => some (encodeScalar code, rest.drop more)
      | (.stray _, _) => some (encodeScalar replacement, rest)

/-- The characters of a double-quoted literal up to its closing quote, which must end the text. -/
def literalBody? (mark : UInt8) : Nat → List UInt8 → Option (List UInt8)
  | 0, _ => none
  | fuel + 1, rest =>
    match rest with
    | [c] => if c = mark then some [] else none
    | _ => do
      let (octets, rest) ← literalChar? mark rest
      let tail ← literalBody? mark fuel rest
      some (octets ++ tail)

/-- The text that a literal in single or double quotes stands for. A single-quoted literal holds at most one
character; the empty one is read as the empty text. -/
def unquote? (t : Text) : Option Text :=
  match t.octets with
  | mark :: rest =>
    if mark = octet '"' then (literalBody? mark (rest.length + 1) rest).map Text.mk
    else if mark = octet '\'' then
      if rest = [mark] then some ∅
      else do
        let (octets, rest) ← literalChar? mark rest
        if rest = [mark] then some ⟨octets⟩ else none
    else none
  | [] => none

end Tenure.Text
