import Tenure.Text.Basic

/-!
# Characters of a text

A text is read as a sequence of pieces: well-formed UTF-8 sequences, each a scalar value, and stray octets
that belong to no such sequence. Overlong forms, surrogates and values above the last code point are not
well formed, so their octets are stray.
-/

set_option autoImplicit false

namespace Tenure.Text

/-- One piece of a text: a scalar value in UTF-8 form, or an octet that belongs to none. -/
inductive Piece where
  | scalar (code : Nat)
  | stray (octet : UInt8)
deriving DecidableEq, Repr

/-- The code point that stands for what cannot be decoded. -/
def replacement : Nat := 0xfffd

/-- Whether a code point is a scalar value: in range and not a surrogate. -/
def isScalar (code : Nat) : Bool :=
  code < 0xd800 || (0xe000 ≤ code && code < 0x110000)

/-- Whether an octet continues a sequence. -/
def isContinuation (b : UInt8) : Bool := 0x80 ≤ b && b < 0xc0

/-- The low six bits of a continuation octet. -/
def payload (b : UInt8) : Nat := b.toNat % 64

/-- The first piece of a nonempty text, and how many octets after the first it takes. -/
def firstPiece (b : UInt8) (rest : List UInt8) : Piece × Nat :=
  if b < 0x80 then (.scalar b.toNat, 0)
  else
    match rest with
    | b1 :: more =>
      if 0xc2 ≤ b ∧ b < 0xe0 then
        if isContinuation b1 then (.scalar (b.toNat % 32 * 64 + payload b1), 1) else (.stray b, 0)
      else
        match more with
        | b2 :: more =>
          if 0xe0 ≤ b ∧ b < 0xf0 then
            let code := b.toNat % 16 * 4096 + payload b1 * 64 + payload b2
            if isContinuation b1 ∧ isContinuation b2 ∧ 0x800 ≤ code ∧ isScalar code then (.scalar code, 2)
            else (.stray b, 0)
          else
            match more with
            | b3 :: _ =>
              let code := b.toNat % 8 * 262144 + payload b1 * 4096 + payload b2 * 64 + payload b3
              if 0xf0 ≤ b ∧ b < 0xf5 ∧ isContinuation b1 ∧ isContinuation b2 ∧ isContinuation b3 ∧
                  0x10000 ≤ code ∧ isScalar code then (.scalar code, 3)
              else (.stray b, 0)
            | [] => (.stray b, 0)
        | [] => (.stray b, 0)
    | [] => (.stray b, 0)

/-- The pieces of a sequence of octets, of which the first `skip` have been taken already. -/
def piecesFrom : Nat → List UInt8 → List Piece
  | _, [] => []
  | skip + 1, _ :: rest => piecesFrom skip rest
  | 0, b :: rest =>
    let (piece, more) := firstPiece b rest
    piece :: piecesFrom more rest

/-- The pieces of a text, in order. -/
def pieces (t : Text) : List Piece := piecesFrom 0 t.octets

/-- Whether a text is well-formed UTF-8: no octet is stray. -/
def isUtf8 (t : Text) : Bool :=
  t.pieces.all fun
    | .scalar _ => true
    | .stray _ => false

/-- The UTF-8 octets of a scalar value. -/
def encodeScalar (code : Nat) : List UInt8 :=
  if code < 0x80 then [code.toUInt8]
  else if code < 0x800 then [(0xc0 + code / 64).toUInt8, (0x80 + code % 64).toUInt8]
  else if code < 0x10000 then
    [(0xe0 + code / 4096).toUInt8, (0x80 + code / 64 % 64).toUInt8, (0x80 + code % 64).toUInt8]
  else
    [(0xf0 + code / 262144).toUInt8, (0x80 + code / 4096 % 64).toUInt8,
      (0x80 + code / 64 % 64).toUInt8, (0x80 + code % 64).toUInt8]

/-- The code point itself if it is a scalar value, else the replacement character. -/
def scalarOr (code : Int) : Nat :=
  match code with
  | .ofNat n => if isScalar n then n else replacement
  | .negSucc _ => replacement

/-- The text of one character; a code point that is no scalar value shows as the replacement character. -/
def ofCode (code : Int) : Text := ⟨encodeScalar (scalarOr code)⟩

/-- The text with every stray octet replaced by the replacement character. -/
def repaired (t : Text) : Text :=
  ⟨t.pieces.flatMap fun
    | .scalar code => encodeScalar code
    | .stray _ => encodeScalar replacement⟩

/-- The string of a text, with the replacement character in place of stray octets. -/
def toStringLossy (t : Text) : String :=
  String.ofList (t.pieces.map fun
    | .scalar code => Char.ofNat code
    | .stray _ => Char.ofNat replacement)

end Tenure.Text
