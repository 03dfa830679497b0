import Tenure.Text.Utf8

/-!
# White space

The code points that count as white space, and texts without white space around them.
-/

set_option autoImplicit false

namespace Tenure.Text

/-- Whether a code point is white space. -/
def isBlank (code : Nat) : Bool :=
  (9 ≤ code && code ≤ 13) || code = 0x20 || code = 0x85 || code = 0xa0 || code = 0x1680 ||
    (0x2000 ≤ code && code ≤ 0x200a) || code = 0x2028 || code = 0x2029 || code = 0x202f || code = 0x205f ||
    code = 0x3000

namespace Piece

/-- Whether a piece is white space. -/
def isBlank : Piece → Bool
  | .scalar code => Text.isBlank code
  | .stray _ => false

/-- The octets of a piece. -/
def octets : Piece → List UInt8
  | .scalar code => encodeScalar code
  | .stray b => [b]

end Piece

/-- The text without white space at its start. -/
def trimmedLeft (t : Text) : Text := ⟨(t.pieces.dropWhile Piece.isBlank).flatMap Piece.octets⟩

/-- The text without white space around it. -/
def trimmed (t : Text) : Text :=
  ⟨((t.pieces.dropWhile Piece.isBlank).reverse.dropWhile Piece.isBlank).reverse.flatMap Piece.octets⟩

end Tenure.Text
