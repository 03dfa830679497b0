import Tenure.Calendar.Instant
import Tenure.Decimal.Layout

/-!
# Payloads

What a node carries beside its children. Structured text gives texts, numerals, truth values, lists and maps; binary
data gives besides integers and doubles the rarer kinds of values that it can hold. A payload is shown as a text, with
the members of a map in the order of their keys.
-/

set_option autoImplicit false

namespace Tenure

open Calendar (Instant)

/-- The payload of a node. -/
inductive Payload where
  | none
  | text (t : Text)
  /-- A number as it was written. -/
  | numeral (token : Text)
  | bool (b : Bool)
  | float (x : Float)
  /-- An integer of 64 bits. -/
  | int (n : Int)
  /-- An integer of any size. -/
  | big (n : Int)
  | bytes (octets : List UInt8)
  /-- A value that has only a number. -/
  | simple (n : Nat)
  | time (t : Instant)
  /-- A value with a number that says how to understand it. -/
  | tagged (number : Nat) (content : Payload)
  | list (items : List Payload)
  /-- A map, its members in the order of their keys. -/
  | map (members : List (Payload × Payload))
deriving Repr, Inhabited

namespace Payload

/-- Whether there is a payload. -/
def isSome : Payload → Bool
  | .none => false
  | _ => true

/-! ## Keys of maps -/

/-- Whether a payload can be the key of a map. -/
def isKey : Payload → Bool
  | .big _ => false
  | .bytes _ => false
  | .list _ => false
  | .map _ => false
  | .tagged _ content => content.isKey
  | _ => true

/-- The place of a kind of keys among the kinds; negative integers are a kind of their own. -/
def keyRank : Payload → Nat
  | .none => 0
  | .bool _ => 1
  | .float _ => 2
  | .int n => if n < 0 then 3 else 5
  | .text _ => 4
  | .simple _ => 6
  | .tagged _ _ => 7
  | .time _ => 8
  | _ => 9

/-- The order of doubles as keys: what is not a number comes first and equals no key. -/
def floatOrder (x y : Float) : Ordering :=
  if x.isNaN then .lt
  else if y.isNaN then .gt
  else if x < y then .lt
  else if y < x then .gt
  else .eq

/-- The order of texts as keys. -/
def textOrder (t u : Text) : Ordering := if t = u then .eq else if t.precedes u then .lt else .gt

/-- The order of keys: by kind, and by value within a kind. -/
def keyOrder : Payload → Payload → Ordering
  | .bool b, .bool c => compare b.toNat c.toNat
  | .float x, .float y => floatOrder x y
  | .text t, .text u => textOrder t u
  | .simple m, .simple n => compare m n
  | .tagged m a, .tagged n b => (compare m n).then (keyOrder a b)
  | .time t, .time u => (compare t.nanos u.nanos).then ((compare t.seconds u.seconds).then (compare t.offset u.offset))
  | .int m, .int n => (compare (keyRank (.int m)) (keyRank (.int n))).then (compare m n)
  | p, q => compare p.keyRank q.keyRank

/-- Puts a member into its place; a member with the same key is replaced. -/
def insertMember (key value : Payload) : List (Payload × Payload) → List (Payload × Payload)
  | [] => [(key, value)]
  | (k, v) :: rest =>
    match keyOrder key k with
    | .eq => (key, value) :: rest
    | .lt => (key, value) :: (k, v) :: rest
    | .gt => (k, v) :: insertMember key value rest

/-! ## Texts -/

/-- The digits of a number in the base of 64-bit words, the least significant first. -/
def wordsOf (n : Nat) : List Nat :=
  if n = 0 then [] else n % 0x10000000000000000 :: wordsOf (n / 0x10000000000000000)
termination_by n
decreasing_by omega

/-- The text of an integer of any size: whether it is negative, and the words of its magnitude. -/
def bigText (n : Int) : Text :=
  "\x7b" ++ Text.ofBool (n < 0) ++ " [" ++ Text.join " " ((wordsOf n.natAbs).map Text.ofNat) ++ "]\x7d"

mutual

/-- The text of a payload inside another one. -/
def nestedText : Payload → Text
  | .none => "<nil>"
  | .text t => t
  | .numeral token => token
  | .bool b => Text.ofBool b
  | .float x => Decimal.general x
  | .int n => Text.ofInt n
  | .big n => bigText n
  | .bytes octets => "[" ++ Text.join " " (octets.map fun b => Text.ofNat b.toNat) ++ "]"
  | .simple n => Text.ofNat n
  | .time t => t.text
  | .tagged number content => "\x7b" ++ Text.ofNat number ++ " " ++ content.nestedText ++ "\x7d"
  | .list items => "[" ++ Text.join " " (itemTexts items) ++ "]"
  | .map members => "map[" ++ Text.join " " (memberTexts members) ++ "]"

/-- The texts of the items of a list. -/
def itemTexts : List Payload → List Text
  | [] => []
  | item :: rest => item.nestedText :: itemTexts rest

/-- The texts of the members of a map. -/
def memberTexts : List (Payload × Payload) → List Text
  | [] => []
  | (key, value) :: rest => (key.nestedText ++ ":" ++ value.nestedText) :: memberTexts rest

end

/-- The text of a payload; none has the empty text. -/
def toText : Payload → Text
  | .none => ∅
  | p => p.nestedText

end Payload

end Tenure
