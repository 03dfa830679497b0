import Tenure.Text.Basic

/-!
# The digest SHA-256

The message is padded to whole blocks of 64 octets: a one bit, zeros, and the length in bits. Each block gives 64
words, the first sixteen read from it and each later one from four earlier ones, and each word takes one round to mix
into a state of eight words.
-/

set_option autoImplicit false

namespace Tenure.Sha256

/-- The chaining state. -/
structure State where
  a : UInt32
  b : UInt32
  c : UInt32
  d : UInt32
  e : UInt32
  f : UInt32
  g : UInt32
  h : UInt32
deriving DecidableEq, Repr

/-- The state before the first block. -/
def initial : State :=
  ⟨0x6a09e667, 0xbb67ae85, 0x3c6ef372, 0xa54ff53a, 0x510e527f, 0x9b05688c, 0x1f83d9ab, 0x5be0cd19⟩

/-- The constants of the rounds. -/
def roundConstants : List UInt32 :=
  [0x428a2f98, 0x71374491, 0xb5c0fbcf, 0xe9b5dba5, 0x3956c25b, 0x59f111f1, 0x923f82a4, 0xab1c5ed5,
   0xd807aa98, 0x12835b01, 0x243185be, 0x550c7dc3, 0x72be5d74, 0x80deb1fe, 0x9bdc06a7, 0xc19bf174,
   0xe49b69c1, 0xefbe4786, 0x0fc19dc6, 0x240ca1cc, 0x2de92c6f, 0x4a7484aa, 0x5cb0a9dc, 0x76f988da,
   0x983e5152, 0xa831c66d, 0xb00327c8, 0xbf597fc7, 0xc6e00bf3, 0xd5a79147, 0x06ca6351, 0x14292967,
   0x27b70a85, 0x2e1b2138, 0x4d2c6dfc, 0x53380d13, 0x650a7354, 0x766a0abb, 0x81c2c92e, 0x92722c85,
   0xa2bfe8a1, 0xa81a664b, 0xc24b8b70, 0xc76c51a3, 0xd192e819, 0xd6990624, 0xf40e3585, 0x106aa070,
   0x19a4c116, 0x1e376c08, 0x2748774c, 0x34b0bcb5, 0x391c0cb3, 0x4ed8aa4a, 0x5b9cca4f, 0x682e6ff3,
   0x748f82ee, 0x78a5636f, 0x84c87814, 0x8cc70208, 0x90befffa, 0xa4506ceb, 0xbef9a3f7, 0xc67178f2]

/-- A word rotated to the right. -/
def rotate (x n : UInt32) : UInt32 := (x >>> n) ||| (x <<< (32 - n))

/-- The octets of a word, most significant first. -/
def wordOctets (w : UInt32) : List UInt8 :=
  [(w >>> 24).toUInt8, (w >>> 16).toUInt8, (w >>> 8).toUInt8, w.toUInt8]

/-- The words of octets, four to a word; what is left over is dropped. -/
def words : List UInt8 → List UInt32
  | a :: b :: c :: d :: rest =>
    ((a.toUInt32 <<< 24) ||| (b.toUInt32 <<< 16) ||| (c.toUInt32 <<< 8) ||| d.toUInt32) :: words rest
  | _ => []

/-- A message with its padding, given as words. -/
def padded (message : List UInt8) : List UInt32 :=
  let size := message.length
  let zeros := (119 - size % 64) % 64
  let bits := 8 * size
  words (message ++ 0x80 :: List.replicate zeros 0) ++ [(bits / 0x100000000).toUInt32, bits.toUInt32]

/-- The word that follows sixteen words, the latest of them first. -/
def nextWord (latest : List UInt32) : UInt32 :=
  let at_ (i : Nat) : UInt32 := latest.getD i 0
  let x := at_ 14
  let y := at_ 1
  let s0 := rotate x 7 ^^^ rotate x 18 ^^^ (x >>> 3)
  let s1 := rotate y 17 ^^^ rotate y 19 ^^^ (y >>> 10)
  at_ 15 + s0 + at_ 6 + s1

/-- Adds a number of words to words given latest first. -/
def expand : Nat → List UInt32 → List UInt32
  | 0, latest => latest
  | n + 1, latest => expand n (nextWord latest :: latest)

/-- The words of a block for all rounds. -/
def schedule (block : List UInt32) : List UInt32 := (expand 48 block.reverse).reverse

/-- One round. -/
def round (s : State) (entry : UInt32 × UInt32) : State :=
  let s1 := rotate s.e 6 ^^^ rotate s.e 11 ^^^ rotate s.e 25
  let choice := (s.e &&& s.f) ^^^ ((~~~s.e) &&& s.g)
  let t1 := s.h + s1 + choice + entry.1 + entry.2
  let s0 := rotate s.a 2 ^^^ rotate s.a 13 ^^^ rotate s.a 22
  let majority := (s.a &&& s.b) ^^^ (s.a &&& s.c) ^^^ (s.b &&& s.c)
  ⟨t1 + (s0 + majority), s.a, s.b, s.c, s.d + t1, s.e, s.f, s.g⟩

/-- Mixes a block into the state. -/
def compress (s : State) (block : List UInt32) : State :=
  let t := (roundConstants.zip (schedule block)).foldl round s
  ⟨s.a + t.a, s.b + t.b, s.c + t.c, s.d + t.d, s.e + t.e, s.f + t.f, s.g + t.g, s.h + t.h⟩

/-- Mixes blocks into the state, as many as there are, up to a number. -/
def compressAll : Nat → State → List UInt32 → State
  | 0, s, _ => s
  | n + 1, s, rest => compressAll n (compress s (rest.take 16)) (rest.drop 16)

/-- The digest of a message: 32 octets. -/
def digest (message : List UInt8) : List UInt8 :=
  let input := padded message
  let s := compressAll (input.length / 16) initial input
  [s.a, s.b, s.c, s.d, s.e, s.f, s.g, s.h].flatMap wordOctets

/-- The hexadecimal text of octets. -/
def hexText (octets : List UInt8) : Text := Text.concat (octets.map fun b => Text.ofHex b.toNat 2)

end Tenure.Sha256
