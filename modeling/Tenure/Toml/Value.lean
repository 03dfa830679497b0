import Tenure.Text.Basic

/-!
# Configuration text

The parts of a configuration text as it is written: dotted keys, values, and the statements that a text is a sequence
of. What the statements define together is the matter of documents.
-/

set_option autoImplicit false

namespace Tenure.Toml

/-- A dotted key: the names from the outermost table on. -/
abbrev Key := List Text

/-- A value as it is written. -/
inductive Value where
  | string (t : Text)
  | integer (n : Int)
  | float (x : Float)
  | bool (b : Bool)
  /-- A date, a time of day, or both. -/
  | time (token : Text)
  | array (items : List Value)
  | inline (entries : List (Key × Value))
deriving Repr, Inhabited

/-- A statement of a configuration text. -/
inductive Statement where
  /-- The head of a table. -/
  | table (key : Key)
  /-- The head of one more element of an array of tables. -/
  | element (key : Key)
  | entry (key : Key) (value : Value)
deriving Repr

end Tenure.Toml
