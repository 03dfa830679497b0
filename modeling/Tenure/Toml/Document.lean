import Tenure.Toml.Reader

/-!
# Documents

The statements of a configuration text define tables inside tables. A name is defined once, unless it is *mentioned*: a
head, a dotted key or an inline table has passed through it since. A mentioned name may be defined once more. A table
keeps what it holds then, whereas the name of an *array* gets what it is defined as.

Elements of an array of tables are added one by one, and keys below the array mean its last element. The entries of an
inline table are defined below its name like those of any table; what they come to by themselves is the value that the
name is given at the end.
-/

set_option autoImplicit false

namespace Tenure.Toml

/-- What a name stands for. -/
inductive Item where
  | leaf (value : Value)
  | table (members : List (Text × Item))
  /-- An array of tables, the last one first. -/
  | tables (last : List (Text × Item)) (others : List (List (Text × Item)))
deriving Repr, Inhabited

/-- The members of a table. -/
abbrev Members := List (Text × Item)

namespace Members

/-- The item of a name. -/
def get? (ms : Members) (name : Text) : Option Item := (ms.find? fun m => m.1 = name).map Prod.snd

/-- The members with another item for a name. -/
def set (ms : Members) (name : Text) (item : Item) : Members :=
  if ms.any fun m => m.1 = name then ms.map fun m => if m.1 = name then (name, item) else m
  else ms ++ [(name, item)]

/-- The members of the table under a key; an array of tables stands for its last one. -/
def below? (ms : Members) : Key → Option Members
  | [] => some ms
  | name :: key =>
    match ms.get? name with
    | some (.table inner) => below? inner key
    | some (.tables last _) => below? last key
    | _ => none

/-- The members with another item for a name of the table under a key. -/
def setBelow? (ms : Members) (name : Text) (item : Item) : Key → Option Members
  | [] => some (ms.set name item)
  | outer :: key =>
    match ms.get? outer with
    | some (.table inner) => (setBelow? inner name item key).map fun inner => ms.set outer (.table inner)
    | some (.tables last others) => (setBelow? last name item key).map fun last => ms.set outer (.tables last others)
    | _ => none

/-- Empty tables under the names of a key, one inside the other. -/
def chain : Key → Members
  | [] => []
  | name :: key => [(name, .table (chain key))]

/-- The members with tables under the names of a key, one inside the other, and how many of them were there. -/
def reach? (ms : Members) : Key → Option (Members × Nat)
  | [] => some (ms, 0)
  | name :: key =>
    match ms.get? name with
    | none => some (ms.set name (.table (chain key)), 0)
    | some (.leaf _) => none
    | some (.table inner) => (reach? inner key).map fun (inner, n) => (ms.set name (.table inner), n + 1)
    | some (.tables last others) => (reach? last key).map fun (last, n) => (ms.set name (.tables last others), n + 1)

/-- The members with an item under a dotted key, where tables on the way come into being. -/
def insert? (ms : Members) (item : Item) : Key → Option Members
  | [] => none
  | [name] => some (ms.set name item)
  | name :: key =>
    match ms.get? name with
    | none => (insert? [] item key).map fun inner => ms.set name (.table inner)
    | some (.table inner) => (insert? inner item key).map fun inner => ms.set name (.table inner)
    | some _ => none

end Members

/-- A document in the making: what is defined so far, the keys of tables that are only mentioned, and the keys of
arrays. -/
structure Outline where
  root : Members := []
  mentioned : List Key := []
  arrays : List Key := []
deriving Repr

namespace Outline

/-- Mentions a key. -/
def mention (o : Outline) (key : Key) : Outline := { o with mentioned := key :: o.mentioned }

/-- From now on a key is not only mentioned. -/
def settle (o : Outline) (key : Key) : Outline := { o with mentioned := o.mentioned.filter (· ≠ key) }

/-- The key under which it is kept whether a name of a table is that of an array; the empty name has that of the
table. -/
def arrayKey (context : Key) (name : Text) : Key :=
  if !name.isEmpty then context ++ [name] else if context.isEmpty then [name] else context

/-- Notes whether a name of a table is that of an array. -/
def noteArray (o : Outline) (context : Key) (name : Text) (isArray : Bool) : Outline :=
  let key := arrayKey context name
  let others := o.arrays.filter (· ≠ key)
  { o with arrays := if isArray then key :: others else others }

/-- Puts an item under a name of a table, in place of an earlier one. -/
def put? (o : Outline) (context : Key) (name : Text) (item : Item) : Option Outline :=
  (o.root.setBelow? name item context).map fun root => { o with root := root }

/-- Defines a name of a table. -/
def define? (o : Outline) (context : Key) (name : Text) (item : Item) : Option Outline := do
  let key := context ++ [name]
  match (← o.root.below? context).get? name with
  | none => o.put? context name item
  | some _ =>
    if key ∈ o.mentioned then
      if key ∈ o.arrays then (o.settle key).put? context name item else some (o.settle key)
    else none

/-- Makes sure that there are tables under the names of a key, one inside the other; those that come into being are
mentioned. -/
def pass? (o : Outline) (key : Key) : Option Outline := do
  let (root, there) ← o.root.reach? key
  let added := (List.range (key.length - there)).map fun n => key.take (there + n + 1)
  return { o with root := root, mentioned := added ++ o.mentioned }

/-- Opens a table under a name. -/
def openTable? (o : Outline) (context : Key) (name : Text) : Option Outline := do
  (← o.pass? context).define? context name (.table [])

/-- Opens one more element of the array of tables under a name. -/
def openElement? (o : Outline) (context : Key) (name : Text) : Option Outline := do
  let o ← o.pass? context
  match (← o.root.below? context).get? name with
  | none => o.put? context name (.tables [] [])
  | some (.tables last others) => o.put? context name (.tables [] (last :: others))
  | some _ => none

/-- Opens the tables that a dotted key passes through. -/
def openAll? (o : Outline) (context : Key) : Key → Option Outline
  | [] => some o
  | name :: key => do
    ((← (o.mention (context ++ [name])).openTable? context name)).openAll? (context ++ [name]) key

/-- Defines a name of a table by a value, and notes whether that is an array. -/
def conclude? (o : Outline) (context : Key) (name : Text) (value : Value) (item : Item) : Option Outline := do
  let isArray := match value with
    | .array _ => true
    | _ => false
  return (← o.define? context name item).noteArray context name isArray

end Outline

/-- The table and the name in it that a dotted key means, seen from a table. -/
def Key.place (key context : Key) : Key × Text := (context ++ key.dropLast, key.getLast?.getD ∅)

mutual

/-- What reading a value under a name of a table does to a document, and the item that the value is. Inside an array,
inline tables are elements of an array of tables as long as the array is read. -/
def Outline.evaluate? (o : Outline) (context : Key) (name : Text) (inArray : Bool) :
    Value → Option (Outline × Item)
  | .array items => do
    let o ← Outline.evaluateAll? (o.noteArray context name true) context name items
    some (o, .leaf (.array items))
  | .inline entries => do
    let o := o.mention (context ++ [name])
    let o ← if inArray then o.openElement? context name else o.openTable? context name
    let (o, members) ← Outline.enterAll? o (context ++ [name]) [] entries
    some (o, .table members)
  | value => some (o, .leaf value)

/-- What reading the items of an array does to a document. -/
def Outline.evaluateAll? (o : Outline) (context : Key) (name : Text) : List Value → Option Outline
  | [] => some o
  | value :: rest => do
    let (o, _) ← Outline.evaluate? o context name true value
    Outline.evaluateAll? o context name rest

/-- Defines the entries of an inline table in order, and collects what they come to by themselves. -/
def Outline.enterAll? (o : Outline) (context : Key) (members : Members) :
    List (Key × Value) → Option (Outline × Members)
  | [] => some (o, members)
  | (key, value) :: rest => do
    let (inner, name) := key.place context
    let o ← o.openAll? context key.dropLast
    let (o, item) ← Outline.evaluate? o inner name false value
    let o ← o.conclude? inner name value item
    let members ← members.insert? item key
    Outline.enterAll? o context members rest

end

/-- Defines a dotted key inside a table by a value. -/
def Outline.enter? (o : Outline) (context key : Key) (value : Value) : Option Outline := do
  let (inner, name) := key.place context
  let o ← o.openAll? context key.dropLast
  let (o, item) ← o.evaluate? inner name false value
  o.conclude? inner name value item

/-- Carries out statements from within a table. -/
def Outline.run? (o : Outline) (context : Key) : List Statement → Option Outline
  | [] => some o
  | .table key :: rest => do
    let (outer, name) := key.place []
    ((← o.openTable? outer name).noteArray key ∅ false).run? key rest
  | .element key :: rest => do
    let (outer, name) := key.place []
    ((← o.openElement? outer name).noteArray key ∅ false).run? key rest
  | .entry key value :: rest => do (← o.enter? context key value).run? context rest

/-- The members of the outermost table that a text defines. -/
def read? (t : Text) : Option Members := do
  let o ← Outline.run? {} [] (← statements? t)
  some o.root

/-- The members of a table. -/
def Item.members? : Item → Option Members
  | .table ms => some ms
  | _ => none

/-- The string of a leaf. -/
def Item.string? : Item → Option Text
  | .leaf (.string t) => some t
  | _ => none

/-- The integer of a leaf. -/
def Item.integer? : Item → Option Int
  | .leaf (.integer n) => some n
  | _ => none

/-- The truth value of a leaf. -/
def Item.bool? : Item → Option Bool
  | .leaf (.bool b) => some b
  | _ => none

end Tenure.Toml
