import Tenure.Cbor.Item

/-!
# Reading binary data items

A reader for well-formed items in any form: long heads, indefinite lengths and entries in any order are
accepted. Nesting is limited, and so is the number of elements of an array or map. A text that is not UTF-8 is told
apart, and it is left to whoever uses it to refuse it.
-/

set_option autoImplicit false

namespace Tenure.Cbor

/-- How deep items may nest. -/
def maxNesting : Nat := 32

/-- How many elements an array, or entries a map, may have. -/
def maxElements : Nat := 131072

/-- A number of a fixed width, most significant octet first, and the rest. -/
def takeNat? : Nat → Nat → List UInt8 → Option (Nat × List UInt8)
  | 0, acc, rest => some (acc, rest)
  | width + 1, acc, b :: rest => takeNat? width (acc * 256 + b.toNat) rest
  | _ + 1, _, [] => none

/-- A number of octets, and the rest. -/
def takeOctets? (n : Nat) (octets : List UInt8) : Option (List UInt8 × List UInt8) :=
  if octets.length < n then none else some (octets.take n, octets.drop n)

/-- A head: the major type, the additional information and the argument. Information 31 marks an indefinite
length and has no argument. -/
structure Head where
  major : Nat
  info : Nat
  argument : Nat

/-- The first head of some octets, and the rest. -/
def takeHead? : List UInt8 → Option (Head × List UInt8)
  | [] => none
  | b :: rest =>
    let major := b.toNat / 32
    let info := b.toNat % 32
    if info < 24 then some (⟨major, info, info⟩, rest)
    else if info < 28 then do
      let (n, rest) ← takeNat? (Nat.pow 2 (info - 24)) 0 rest
      some (⟨major, info, n⟩, rest)
    else if info = 31 then some (⟨major, info, 0⟩, rest)
    else none

/-- The item of a head of major type 7. -/
def simpleItem? (h : Head) : Option Item :=
  if h.info = 20 then some (.bool false)
  else if h.info = 21 then some (.bool true)
  else if h.info = 22 then some .null
  else if h.info = 23 then some .undefined
  else if h.info < 20 then some (.simple h.argument)
  else if h.info = 24 then if h.argument < 32 then none else some (.simple h.argument)
  else if h.info = 25 then some (.float (Double.ofValue (Double.Format.half.decode 5 h.argument)))
  else if h.info = 26 then some (.float (Double.ofValue (Double.Format.single.decode 8 h.argument)))
  else if h.info = 27 then some (.float (Double.ofValue (Double.Format.double.decode 11 h.argument)))
  else none

/-- The octet that ends an item of indefinite length. -/
def breakOctet : UInt8 := 0xff

/-- The item of a text in parts, each of which has to be UTF-8. -/
def textItem (chunks : List (List UInt8)) : Item :=
  if chunks.all fun chunk => Text.isUtf8 ⟨chunk⟩ then .text ⟨chunks.flatten⟩ else .garbled chunks.flatten

/-- The chunks of a string of indefinite length, each of definite length and of the same major type; those taken before
come in reverse. -/
def takeChunks? (major : Nat) : Nat → List (List UInt8) → List UInt8 → Option (List (List UInt8) × List UInt8)
  | 0, _, _ => none
  | fuel + 1, acc, octets =>
    match octets with
    | [] => none
    | b :: rest =>
      if b = breakOctet then some (acc.reverse, rest)
      else do
        let (h, rest) ← takeHead? octets
        if h.major ≠ major ∨ h.info = 31 then none
        else
          let (chunk, rest) ← takeOctets? h.argument rest
          takeChunks? major fuel (chunk :: acc) rest

/-- Pairs up the elements of a map of indefinite length. -/
def pairUp? : List Item → Option (List (Item × Item))
  | [] => some []
  | key :: value :: rest => do some ((key, value) :: (← pairUp? rest))
  | [_] => none

mutual

/-- The first item of some octets, and the rest; `room` is how many levels may still open. -/
def takeItem? : Nat → Nat → List UInt8 → Option (Item × List UInt8)
  | 0, _, _ => none
  | fuel + 1, room, octets => do
    let (h, rest) ← takeHead? octets
    match h.major with
    | 0 => if h.info = 31 then none else some (.uint h.argument, rest)
    | 1 => if h.info = 31 then none else some (.nint h.argument, rest)
    | 2 =>
      if h.info = 31 then do
        let (chunks, rest) ← takeChunks? 2 rest.length [] rest
        some (.bytes chunks.flatten, rest)
      else do
        let (octets, rest) ← takeOctets? h.argument rest
        some (.bytes octets, rest)
    | 3 =>
      if h.info = 31 then do
        let (chunks, rest) ← takeChunks? 3 rest.length [] rest
        some (textItem chunks, rest)
      else do
        let (octets, rest) ← takeOctets? h.argument rest
        some (textItem [octets], rest)
    | 4 =>
      if room = 0 then none
      else if h.info = 31 then do
        let (items, rest) ← takeUntilBreak? fuel (room - 1) [] rest
        if maxElements < items.length then none else some (.array items, rest)
      else if maxElements < h.argument then none
      else do
        let (items, rest) ← takeItems? fuel (room - 1) h.argument [] rest
        some (.array items, rest)
    | 5 =>
      if room = 0 then none
      else if h.info = 31 then do
        let (items, rest) ← takeUntilBreak? fuel (room - 1) [] rest
        let entries ← pairUp? items
        if maxElements < entries.length then none else some (.map entries, rest)
      else if maxElements < h.argument then none
      else do
        let (items, rest) ← takeItems? fuel (room - 1) (2 * h.argument) [] rest
        let entries ← pairUp? items
        some (.map entries, rest)
    | 6 =>
      if h.info = 31 then none
      else do
        let nested : Bool := match rest with
          | b :: _ => b.toNat / 32 = 6
          | [] => false
        if nested && room = 0 then none
        else
          let (item, rest) ← takeItem? fuel (if nested then room - 1 else room) rest
          some (.tag h.argument item, rest)
    | _ => do some (← simpleItem? h, rest)

/-- A number of items in a row, appended to those taken before in reverse, and the rest. -/
def takeItems? : Nat → Nat → Nat → List Item → List UInt8 → Option (List Item × List UInt8)
  | _, _, 0, acc, rest => some (acc.reverse, rest)
  | 0, _, _ + 1, _, _ => none
  | fuel + 1, room, count + 1, acc, octets => do
    let (item, rest) ← takeItem? fuel room octets
    takeItems? fuel room count (item :: acc) rest

/-- The items up to the end of an indefinite length, appended to those taken before in reverse, and the rest. -/
def takeUntilBreak? : Nat → Nat → List Item → List UInt8 → Option (List Item × List UInt8)
  | 0, _, _, _ => none
  | fuel + 1, room, acc, octets =>
    match octets with
    | [] => none
    | b :: rest =>
      if b = breakOctet then some (acc.reverse, rest)
      else do
        let (item, rest) ← takeItem? fuel room octets
        takeUntilBreak? fuel room (item :: acc) rest

end

/-- The item that some octets are the form of, with nothing after it. Reading takes fewer steps than twice the
number of octets. -/
def decode? (octets : List UInt8) : Option Item := do
  match ← takeItem? (2 * octets.length + 2) maxNesting octets with
  | (item, []) => some item
  | _ => none

end Tenure.Cbor
