import Tenure.Heap.Alloc

/-!
# Host values

A host value is what a heap value looks like from outside: it has no addresses. Pairs and references are followed
to a fixed depth and cut off below it. Values without a form of their own, such as closures, show as a word in
angle brackets.
-/

set_option autoImplicit false

namespace Tenure

/-- A value outside the heap. -/
inductive Host where
  | null
  | undefined
  | bool (b : Bool)
  /-- A 64-bit integer. -/
  | int (n : Int)
  /-- An integer that display does not tell from a plain number. -/
  | word (n : Int)
  | float (x : Float)
  | single (x : Float32)
  /-- The code of a character. -/
  | charCode (n : Int)
  | str (t : Text)
  | pair (head tail : Host)
  | ref (mutable : Bool) (target : Host)
deriving Repr

namespace Host

/-- The text of a host value for display. -/
def text : Host → Text
  | .null => "null"
  | .undefined => "()"
  | .bool b => Text.ofBool b
  | .int n => Text.ofInt n
  | .word n => Text.ofInt n
  | .float x => Decimal.display x
  | .single x => Decimal.generalSingle x
  | .charCode n => Text.ofInt n
  | .str t => t
  | .pair head tail => "(" ++ head.text ++ " . " ++ tail.text ++ ")"
  | .ref true target => "&mut " ++ target.text
  | .ref false target => "&" ++ target.text

/-- How many pairs and references deep a value is followed. -/
def maxDepth : Nat := 64

/-- The host form of an integer number: values past the end of 64 bits wrap around. -/
def ofNumber : Number → Host
  | .int n => .int (n.bmod 0x10000000000000000)
  | .float x => .float x

/-- The host value of a link, followed through at most `depth` further pairs and references; nothing if a
reference leads nowhere. -/
def ofLink? (h : Heap) : Nat → Link → Option Host
  | _, none => some .null
  | 0, some _ => some (.str "<...>")
  | depth + 1, some a => do
    let n ← h.node? a
    match n.content with
    | .falsity => some (.bool false)
    | .truth => some (.bool true)
    | .null => some .null
    | .undefined => some .undefined
    | .unassigned => some (.str "<unassigned>")
    | .number v => some (ofNumber v)
    | .string t => some (.str t)
    | .char code => some (.str (Text.ofCode code))
    | .pair => do
      let head ← ofLink? h depth (← n.child? 0)
      let tail ← ofLink? h depth (← n.child? 1)
      some (.pair head tail)
    | .reference pos mutable => do
      let env ← h.node? (← n.firstChild)
      let frame ← h.node? (← (← env.child? pos.frame))
      let target ← ofLink? h depth (← frame.child? pos.slot)
      some (.ref mutable target)
    | .closure _ _ => some (.str "<closure>")
    | .builtin _ => some (.str "<builtin>")
    | .frame => some (.str "<frame>")
    | .environment => some (.str "<environment>")
    | .blockframe => some (.str "<blockframe>")
    | .callframe _ _ => some (.str "<callframe>")
    | .free => some (.str "<Free>")

end Host

/-- The host value of a link. -/
def Heap.toHost? (h : Heap) (l : Link) : Option Host := Host.ofLink? h (Host.maxDepth + 1) l

namespace HeapM

/-- The heap form of a host value. References have none. The head of a pair is pinned while its tail is made. -/
def ofHost : Host → HeapM Address
  | .null => pure Heap.null
  | .undefined => pure Heap.undefined
  | .bool b => pure (Heap.ofBool b)
  | .int n => int n
  | .word n => int n
  | .float x => float x
  | .single x => float x.toFloat
  | .charCode n => char n
  | .str t => string t
  | .pair head tail => do
    let head ← ofHost head
    let tail ← holding [some head] (ofHost tail)
    pair (some head) (some tail)
  | .ref _ _ => fail .unrepresentable

/-- The heap form of a literal. -/
def ofLiteral (l : Literal) : HeapM Address :=
  if l.kind = Literal.unitKind then pure Heap.undefined
  else if l.kind = Literal.boolKind then pure (Heap.ofBool l.bool)
  else if l.kind = Literal.intKind then int l.int
  else if l.kind = Literal.floatKind then float l.float
  else if l.kind = Literal.charKind then char l.code
  else if l.kind = Literal.stringKind then string l.str
  else fail (.unknownLiteral l.kind)

end HeapM

end Tenure
