import Tenure.Code.Instr

/-!
# Heap nodes

Every heap node has the same size: a header and nine child words. What a node is, and the payload that the
collector does not trace, is its content; the children that the collector traces are the first `slots` of its
child words.
-/

set_option autoImplicit false

namespace Tenure

/-- An address, which is a signed word of 32 bits: the index of a node in the arena. `Heap.linkTo` says what becomes of
an index that is too large for such a word. -/
abbrev Address := Nat

/-- A child word: an address, or nothing. -/
abbrev Link := Option Address

/-- The size of every node in words, the header included. -/
def nodeWords : Nat := 10

/-- The number of child words of a node. -/
def maxChildren : Nat := 9

/-- One more than a count, as a 64-bit word holds it. -/
def oneMore (count : Int) : Int := (count + 1).bmod 0x10000000000000000

/-- The size in words of a node with a number of children: one word more for the header. -/
def wordsFor (slots : Int) : Int := oneMore slots

/-- A number: an integer that a double can hold, which arithmetic treats as a 32-bit integer, or a double. -/
inductive Number where
  | int (n : Int)
  | float (x : Float)
deriving DecidableEq, Repr

namespace Number

/-- The number of an integer: the nearest integer that a double can hold. -/
def ofInt (n : Int) : Number := .int (Double.roundInt n)

/-- The number as a double. -/
def toFloat : Number → Float
  | .int n => Double.ofInt n
  | .float x => x

/-- Whether arithmetic treats the number as an integer. -/
def isIntegral : Number → Bool
  | .int _ => true
  | .float _ => false

end Number

/-- What a node is, with its untraced payload. -/
inductive Content where
  | free
  | falsity
  | truth
  | null
  | unassigned
  | undefined
  | number (n : Number)
  | string (t : Text)
  | char (code : Int)
  | pair
  | frame
  | environment
  | closure (arity entry : Int)
  | blockframe
  | callframe (back height : Int)
  | reference (pos : Position) (mutable : Bool)
  | builtin (id : Int)
deriving DecidableEq, Repr, Inhabited

/-- The kinds of nodes. -/
inductive Kind where
  | free
  | falsity
  | truth
  | null
  | unassigned
  | undefined
  | number
  | string
  | char
  | pair
  | frame
  | environment
  | closure
  | blockframe
  | callframe
  | reference
  | builtin
deriving DecidableEq, Repr, Inhabited

namespace Kind

/-- The name of a kind in messages. -/
def name : Kind → String
  | .free => "Free"
  | .falsity => "False"
  | .truth => "True"
  | .null => "Null"
  | .unassigned => "Unassigned"
  | .undefined => "Undefined"
  | .number => "Number"
  | .string => "String"
  | .char => "Char"
  | .pair => "Pair"
  | .frame => "Frame"
  | .environment => "Environment"
  | .closure => "Closure"
  | .blockframe => "Blockframe"
  | .callframe => "Callframe"
  | .reference => "Reference"
  | .builtin => "Builtin"

/-- The name of a kind as a text. -/
def text (k : Kind) : Text := Text.ofString k.name

/-- Every kind, in the order of their numbers. -/
def all : List Kind :=
  [.free, .falsity, .truth, .null, .unassigned, .undefined, .number, .string, .char, .pair, .frame,
   .environment, .closure, .blockframe, .callframe, .reference, .builtin]

/-- The name that belongs to the number of a kind; other numbers show as themselves. -/
def nameOfNumber (n : Nat) : Text :=
  match all[n]? with
  | some k => k.text
  | none => "Kind(" ++ Text.ofNat n ++ ")"

end Kind

namespace Content

/-- The kind of a content. -/
def kind : Content → Kind
  | .free => .free
  | .falsity => .falsity
  | .truth => .truth
  | .null => .null
  | .unassigned => .unassigned
  | .undefined => .undefined
  | .number _ => .number
  | .string _ => .string
  | .char _ => .char
  | .pair => .pair
  | .frame => .frame
  | .environment => .environment
  | .closure _ _ => .closure
  | .blockframe => .blockframe
  | .callframe _ _ => .callframe
  | .reference _ _ => .reference
  | .builtin _ => .builtin

/-- The first integer word of the payload: an arity, a stack height, a frame index, a builtin or a character
code. -/
def firstWord : Content → Int
  | .closure arity _ => arity
  | .callframe _ height => height
  | .reference pos _ => pos.frame
  | .builtin id => id
  | .char code => code
  | _ => 0

/-- The second integer word of the payload: an entry, a return address or a slot index. -/
def secondWord : Content → Int
  | .closure _ entry => entry
  | .callframe back _ => back
  | .reference pos _ => pos.slot
  | _ => 0

/-- The number of a payload; zero for a node that is no number. -/
def toNumber : Content → Number
  | .number n => n
  | _ => .float 0

/-- The string of a payload; empty for a node that is no string. -/
def toText : Content → Text
  | .string t => t
  | _ => ∅

/-- Whether a payload is a reference that may be stored through. -/
def isMutable : Content → Bool
  | .reference _ m => m
  | _ => false

end Content

/-- The child words of a node. -/
abbrev Children := Vector Link 9

/-- A node: its content, the number of its traced children, its link in the free list, and its child words. -/
structure Node where
  content : Content
  slots : Int
  next : Link
  children : Children
deriving DecidableEq, Repr, Inhabited

namespace Node

/-- Child words that hold nothing. -/
def noChildren : Children := Vector.replicate 9 none

/-- The child words of a node on the free list, all zero. -/
def zeroChildren : Children := Vector.replicate 9 (some 0)

/-- A node on the free list, followed by another. -/
def vacant (next : Link) : Node := ⟨.free, 0, next, zeroChildren⟩

/-- A node fresh from allocation, with a number of children still to be set. -/
def fresh (content : Content) (slots : Int) : Node := ⟨content, slots, none, noChildren⟩

/-- The kind of a node. -/
def kind (n : Node) : Kind := n.content.kind

/-- The size of a node in words; a node on the free list has none. -/
def size (n : Node) : Int := if n.kind = .free then 0 else wordsFor n.slots

/-- A child word, if the index is one of the nine. -/
def child? (n : Node) (i : Int) : Option Link :=
  if 0 ≤ i then n.children[i.toNat]? else none

/-- The first child word. -/
def firstChild (n : Node) : Link := n.children[0]

/-- The node with a child word replaced, if the index is one of the nine. -/
def setChild? (n : Node) (i : Int) (v : Link) : Option Node :=
  if 0 ≤ i ∧ i < 9 then some { n with children := n.children.setIfInBounds i.toNat v } else none

/-- The node with its first child words replaced by those of a list. -/
def withChildren (n : Node) (links : List Link) : Node :=
  { n with children := links.zipIdx.foldl (fun cs (v, i) => cs.setIfInBounds i v) n.children }

/-- The children that the collector traces. -/
def traced (n : Node) : List Link := n.children.toList.take n.slots.toNat

/-- Whether a node is meant to have more children than there are child words. Only a number of children whose size
wraps around gets past the limit of sizes. -/
def overruns (n : Node) : Bool := maxChildren < n.slots

end Node

end Tenure
