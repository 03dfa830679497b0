import Tenure.Text.Utf8

/-!
# Structured text

The values of the structured text format that trees and requests are written in. A number keeps the text it was
written with, and an object keeps its members in order, repeated ones included.
-/

set_option autoImplicit false

namespace Tenure.Json

/-- A value. -/
inductive Value where
  | null
  | bool (b : Bool)
  | number (token : Text)
  | string (t : Text)
  | array (items : List Value)
  | object (members : List (Text × Value))
deriving Repr, Inhabited

end Tenure.Json
