import Tenure.Text.Utf8

/-!
# Texts without regard to case

Names of fields are compared in a spelling that stands for all spellings of different case. The names are ASCII, so
only the code points matter that are another case of an ASCII letter.
-/

set_option autoImplicit false

namespace Tenure.Text

/-- The small letter that a code point stands for when case does not matter: ASCII capitals, the long s and the
sign for kelvin. -/
def foldCode (code : Nat) : Nat :=
  if 65 ≤ code ∧ code ≤ 90 then code + 32
  else if code = 0x17f then 115
  else if code = 0x212a then 107
  else code

/-- The text in the spelling that stands for all spellings of different case. -/
def folded (t : Text) : Text :=
  ⟨t.pieces.flatMap fun
    | .scalar code => encodeScalar (foldCode code)
    | .stray b => [b]⟩

/-- The ASCII letter that is the small letter of a code point, or the code point itself: besides the ASCII capitals, the
capital I with a dot and the sign for kelvin have one. -/
def smallCode (code : Nat) : Nat :=
  if 65 ≤ code ∧ code ≤ 90 then code + 32
  else if code = 0x130 then 105
  else if code = 0x212a then 107
  else code

/-- The text with every capital replaced that has an ASCII letter as its small letter. -/
def small (t : Text) : Text :=
  ⟨t.pieces.flatMap fun
    | .scalar code => encodeScalar (smallCode code)
    | .stray b => [b]⟩

end Tenure.Text
