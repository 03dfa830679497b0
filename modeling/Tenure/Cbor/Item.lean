import Tenure.Double.Basic
import Tenure.Text.Utf8

/-!
# Binary data items

The data items of the concise binary object representation, and their canonical form: every number in the
shortest head, every floating point number in the narrowest width that keeps its value, one form for
not-a-number.
-/

set_option autoImplicit false

namespace Tenure.Cbor

/-- A data item. -/
inductive Item where
  | uint (n : Nat)
  /-- The integer `-1 - n`. -/
  | nint (n : Nat)
  | bytes (octets : List UInt8)
  | text (t : Text)
  /-- What is marked as a text but is not UTF-8, or is in parts that are not. -/
  | garbled (octets : List UInt8)
  | array (items : List Item)
  | map (entries : List (Item × Item))
  | tag (number : Nat) (item : Item)
  | float (x : Float)
  | bool (b : Bool)
  | null
  | undefined
  | simple (n : Nat)
deriving Repr, Inhabited

/-- The item of an integer. -/
def Item.ofInt : Int → Item
  | .ofNat n => .uint n
  | .negSucc n => .nint n

/-- The octets of a number, most significant first, in a fixed width. -/
def bigEndian : Nat → Nat → List UInt8
  | 0, _ => []
  | width + 1, n => bigEndian width (n / 256) ++ [(n % 256).toUInt8]

/-- The shortest head of a major type with an argument. -/
def head (major n : Nat) : List UInt8 :=
  let first := major * 32
  if n < 24 then [(first + n).toUInt8]
  else if n < 0x100 then (first + 24).toUInt8 :: bigEndian 1 n
  else if n < 0x10000 then (first + 25).toUInt8 :: bigEndian 2 n
  else if n < 0x100000000 then (first + 26).toUInt8 :: bigEndian 4 n
  else (first + 27).toUInt8 :: bigEndian 8 n

/-- The canonical form of a floating point number. -/
def encodeFloat (x : Float) : List UInt8 :=
  match Double.value x with
  | .nan => [0xf9, 0x7e, 0x00]
  | .infinite negative => [0xf9, if negative then 0xfc else 0x7c, 0x00]
  | .finite negative m e =>
    match Double.Format.half.exact? 5 negative m e with
    | some bits => 0xf9 :: bigEndian 2 bits
    | none =>
      match Double.Format.single.exact? 8 negative m e with
      | some bits => 0xfa :: bigEndian 4 bits
      | none => 0xfb :: bigEndian 8 x.toBits.toNat

mutual

/-- The canonical form of an item whose map entries stand in canonical order. -/
def Item.encode : Item → List UInt8
  | .uint n => head 0 n
  | .nint n => head 1 n
  | .bytes octets => head 2 octets.length ++ octets
  | .text t => head 3 t.size ++ t.octets
  | .garbled octets => head 3 octets.length ++ octets
  | .array items => head 4 items.length ++ encodeItems items
  | .map entries => head 5 entries.length ++ encodeEntries entries
  | .tag number item => head 6 number ++ item.encode
  | .float x => encodeFloat x
  | .bool b => [if b then 0xf5 else 0xf4]
  | .null => [0xf6]
  | .undefined => [0xf7]
  | .simple n => head 7 n

/-- The forms of items, one after the other. -/
def encodeItems : List Item → List UInt8
  | [] => []
  | item :: rest => item.encode ++ encodeItems rest

/-- The forms of map entries, one after the other. -/
def encodeEntries : List (Item × Item) → List UInt8
  | [] => []
  | (key, value) :: rest => key.encode ++ value.encode ++ encodeEntries rest

end

/-- Whether a key comes before another in a canonical map: a shorter form first, then by octets. -/
def keyBefore (a b : Item) : Bool :=
  let x := a.encode
  let y := b.encode
  x.length < y.length || (x.length = y.length && Text.before x y)

end Tenure.Cbor
