/-!
# Texts

A text is a finite sequence of octets. Source literals, names and images can hold octets that form no
character, so a text is not a `String`; every `String` has a text, its UTF-8 form, and coerces to it.
-/

set_option autoImplicit false

namespace Tenure

/-- A text: a finite sequence of octets, usually but not always UTF-8. -/
structure Text where
  octets : List UInt8
deriving DecidableEq, Hashable, Inhabited, Repr

namespace Text

/-- The UTF-8 form of a string. -/
def ofString (s : String) : Text := ⟨s.toByteArray.data.toList⟩

instance : Coe String Text := ⟨ofString⟩

/-- The text without octets. -/
def empty : Text := ⟨[]⟩

instance : EmptyCollection Text := ⟨empty⟩

instance : Append Text := ⟨fun a b => ⟨a.octets ++ b.octets⟩⟩

@[simp] theorem octets_append (a b : Text) : (a ++ b).octets = a.octets ++ b.octets := rfl

/-- The number of octets. -/
def size (t : Text) : Nat := t.octets.length

/-- Whether the text has no octet. -/
def isEmpty (t : Text) : Bool := t.octets.isEmpty

/-- All texts of a list, one after the other. -/
def concat (ts : List Text) : Text := ⟨ts.flatMap octets⟩

/-- The texts of a list with a separator between neighbours. -/
def join (separator : Text) : List Text → Text
  | [] => ∅
  | [t] => t
  | t :: rest => t ++ separator ++ join separator rest

/-- The octet of an ASCII character. -/
def octet (c : Char) : UInt8 := c.toUInt8

/-- The decimal digits of a natural number, most significant first. -/
def ofNat (n : Nat) : Text := ⟨(Nat.toDigits 10 n).map octet⟩

/-- The decimal digits of an integer, after a minus sign if it is negative. -/
def ofInt : Int → Text
  | .ofNat n => ofNat n
  | .negSucc n => "-" ++ ofNat (n + 1)

/-- The two texts `true` and `false`. -/
def ofBool (b : Bool) : Text := if b then "true" else "false"

/-- The text padded on the left to a width. -/
def padLeft (t : Text) (fill : Char) (width : Nat) : Text :=
  ⟨List.replicate (width - t.size) (octet fill) ++ t.octets⟩

/-- The hexadecimal digits of a number, in lower case, padded with zeros to a width. -/
def ofHex (n width : Nat) : Text :=
  padLeft ⟨(Nat.toDigits 16 n).map octet⟩ '0' width

/-- The hexadecimal digits of a number, in upper case, padded with zeros to a width. -/
def ofHexUpper (n width : Nat) : Text :=
  padLeft ⟨(Nat.toDigits 16 n).map fun c => octet c.toUpper⟩ '0' width

/-- Whether a text begins with another. -/
def startsWith (t start : Text) : Bool := start.octets.isPrefixOf t.octets

/-- Whether a text ends with another. -/
def endsWith (t tail : Text) : Bool := tail.octets.isSuffixOf t.octets

/-- What follows a given start, if the text begins with it. -/
def dropStart? (t start : Text) : Option Text :=
  if t.startsWith start then some ⟨t.octets.drop start.size⟩ else none

/-- The text without a given tail, or the text itself if it does not end with it. -/
def trimTail (t tail : Text) : Text :=
  if t.endsWith tail then ⟨t.octets.take (t.size - tail.size)⟩ else t

/-- The text without any occurrence of an octet. -/
def erase (t : Text) (c : Char) : Text := ⟨t.octets.filter (· != octet c)⟩

/-- The parts of a sequence of octets between the octets that pass a test; there is one part more than such octets. -/
def splitWhere (p : UInt8 → Bool) : List UInt8 → List (List UInt8)
  | [] => [[]]
  | c :: rest =>
    if p c then [] :: splitWhere p rest
    else
      match splitWhere p rest with
      | [] => [[c]]
      | part :: parts => (c :: part) :: parts

/-- Whether an octet occurs in the text. -/
def contains (t : Text) (c : Char) : Bool := t.octets.contains (octet c)

/-- The octetwise lexicographic order. -/
def before : List UInt8 → List UInt8 → Bool
  | [], [] => false
  | [], _ :: _ => true
  | _ :: _, [] => false
  | a :: as, b :: bs => if a = b then before as bs else a < b

/-- The order of texts used for sorting: octet by octet, a proper start before the longer text. -/
def precedes (a b : Text) : Bool := before a.octets b.octets

/-- The small letter of an ASCII capital, every other octet as it is. -/
def lowerOctet (b : UInt8) : UInt8 := if 65 ≤ b ∧ b ≤ 90 then b + 32 else b

/-- The text with ASCII capitals replaced by small letters. -/
def lower (t : Text) : Text := ⟨t.octets.map lowerOctet⟩

/-- Whether an octet is an ASCII decimal digit. -/
def isDigit (b : UInt8) : Bool := 48 ≤ b && b ≤ 57

/-- The value of an octet as a digit in a base up to 36, if it is a digit or a letter. -/
def digitValue? (b : UInt8) : Option Nat :=
  if isDigit b then some (b.toNat - 48)
  else
    let small := lowerOctet b
    if 97 ≤ small ∧ small ≤ 122 then some (small.toNat - 87) else none

end Text

end Tenure
