import Tenure.Cbor.Decode

/-!
# Records in binary data

A record is a map whose keys name its fields by number or by word. Missing fields and null fields have their
zero value, fields that nobody asks for are skipped, and of a repeated field the first counts. A key that is
neither a number nor a text spoils the record.
-/

set_option autoImplicit false

namespace Tenure.Cbor

/-- The number that octets write, most significant first. -/
def ofBigEndian (octets : List UInt8) : Nat := octets.foldl (fun n b => n * 256 + b.toNat) 0

/-- Whether an item may stand under a tag: tag 0 is for a date written as a text, tag 1 for a time given as a
number, tags 2 and 3 are for integers of any size given by their octets. -/
def Item.admits (number : Nat) (item : Item) : Bool :=
  match number, item with
  | 0, .text _ => true
  | 1, .uint _ | 1, .nint _ | 1, .float _ => true
  | 2, .bytes _ | 3, .bytes _ => true
  | _, _ => 4 ≤ number

/-- The item without tags around it, if each tag may stand there. Octets under tag 2 or 3 are the integer that
they write. -/
def Item.untagged? : Item → Option Item
  | .tag 2 (.bytes octets) => some (.uint (ofBigEndian octets))
  | .tag 3 (.bytes octets) => some (.nint (ofBigEndian octets))
  | .tag number item => if item.admits number then item.untagged? else none
  | item => some item

/-- The name of a field: a number or a word. -/
inductive Key where
  | number (n : Int)
  | word (t : Text)
deriving DecidableEq, Repr

/-- The key that an item names, if it can name one. -/
def Key.ofItem? : Item → Option Key
  | .uint n => some (.number n)
  | .nint n => if n < 0x8000000000000000 then some (.number (Int.negSucc n)) else none
  | .text t => some (.word t)
  | _ => none

/-- The fields of a record. -/
abbrev Record := List (Key × Item)

/-- The record that an item holds; null and undefined hold the record without fields. -/
def Record.ofItem? (item : Item) : Option Record :=
  match item.untagged? with
  | some (.map entries) => entries.mapM fun (key, value) => do some (← Key.ofItem? key, value)
  | some .null => some []
  | some .undefined => some []
  | _ => none

/-- The first value under a number, written as a number or with its digits as a text. -/
def Record.numbered? (r : Record) (n : Int) : Option Item :=
  (r.find? fun entry => entry.1 = .number n ∨ entry.1 = .word (Text.ofInt n)).map Prod.snd

/-- The integer of an item in a range; null counts as zero, and a simple value as its number. -/
def Item.int? (low high : Int) (item : Item) : Option Int :=
  match item.untagged? with
  | some (.uint n) => if (n : Int) ≤ high then some n else none
  | some (.nint n) => if low ≤ Int.negSucc n then some (Int.negSucc n) else none
  | some (.simple n) => if (n : Int) ≤ high then some n else none
  | some .null | some .undefined => some 0
  | _ => none

/-- The double of an item: any number; an integer has to fit in 64 bits, as unsigned or as signed. -/
def Item.float? (item : Item) : Option Float :=
  match item.untagged? with
  | some (.uint n) => if n < 0x10000000000000000 then some (Double.ofInt n) else none
  | some (.nint n) => if n < 0x8000000000000000 then some (Double.ofInt (Int.negSucc n)) else none
  | some (.simple n) => some (Double.ofInt n)
  | some (.float x) => some x
  | some .null | some .undefined => some 0
  | _ => none

/-- The truth value of an item. -/
def Item.bool? (item : Item) : Option Bool :=
  match item.untagged? with
  | some (.bool b) => some b
  | some .null | some .undefined => some false
  | _ => none

/-- The text of an item. -/
def Item.text? (item : Item) : Option Text :=
  match item.untagged? with
  | some (.text t) => some t
  | some .null | some .undefined => some ∅
  | _ => none

/-- The elements of an item. -/
def Item.items? (item : Item) : Option (List Item) :=
  match item.untagged? with
  | some (.array items) => some items
  | some .null | some .undefined => some []
  | _ => none

/-- Reads a numbered field, or takes its zero value if it is missing. -/
def Record.read {α : Type} (r : Record) (n : Int) (zero : α) (of : Item → Option α) : Option α :=
  match r.numbered? n with
  | some item => of item
  | none => some zero

end Tenure.Cbor
