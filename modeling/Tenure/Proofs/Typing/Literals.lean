import Tenure.Proofs.Decimal.RoundTrip
import Tenure.Proofs.Text.Quoted
import Tenure.Tree.Build
import Tenure.Typing.Literal

/-!
# Literals denote their values

A literal that is built from a constant denotes that constant, `Literal.denotes_iff_isBare`: every integer in range, every
double and every truth value does. Characters and texts are built bare but can also be read in quotes. So it holds of all
characters but the single quote, and of just those texts that do not begin with a double quote; one that does is taken for
a quoted text, which is either malformed or stands for a shorter one.

A number is read from its text. The text of a number has neither an underscore nor the name of a type in it, so what
`cleanNumeral` takes off is not there, and the numeral reads back.
-/

set_option autoImplicit false

namespace Tenure

namespace Literal

open Text (octet isDigit)
open Decimal (isNumeral IsNumeral isNumeral_of_isDigit)

/-- A node stands for a literal: its payload is there and reads as the literal. -/
def Denotes (t : Tree) (l : Literal) : Prop := ∃ s, source t = .ok s ∧ read s = .ok l

/-- A node that carries its own kind is its own source. -/
theorem denotes_literal {val : Payload} {kind : Text} (hkind : kind.isEmpty = false) (l : Literal) :
    Denotes (Tree.literal val kind) l ↔ read (Tree.literal val kind) = .ok l := by
  have hsource : source (Tree.literal val kind) = .ok (Tree.literal val kind) := by
    have htype : (Tree.literal val kind).type = kind := rfl
    rw [source, htype, hkind]
    exact if_pos (.inr rfl)
  constructor
  · rintro ⟨s, hs, hread⟩
    rw [hsource] at hs
    cases hs
    exact hread
  · exact fun hread => ⟨_, hsource, hread⟩

/-! ## Numbers -/

/-- Nothing is taken off the text of a number. -/
theorem cleanNumeral_eq {t kind : Text} {b : UInt8} (hkind : b ∈ kind.octets) (hletter : isNumeral b = false)
    (ht : ∀ c ∈ t.octets, isNumeral c = true) : cleanNumeral t kind = t := by
  have hend : t.endsWith kind = false := by
    rw [Text.endsWith, Bool.eq_false_iff]
    intro hsuffix
    have hmem := (List.isSuffixOf_iff_suffix.mp hsuffix).mem hkind
    rw [ht b hmem] at hletter
    cases hletter
  rw [cleanNumeral, Text.trimTail, hend]
  change Text.mk (t.octets.filter (· != octet '_')) = t
  rw [List.filter_eq_self.mpr]
  intro c hc
  have hnumeral := ht c hc
  rw [bne_iff_ne]
  rintro rfl
  cases hnumeral

theorem isNumeral_ofNat (n : Nat) : ∀ b ∈ (Text.ofNat n).octets, isNumeral b = true :=
  fun b hb => isNumeral_of_isDigit (Text.isDigit_of_mem_ofNat n b hb)

theorem isNumeral_ofInt (n : Int) : ∀ b ∈ (Text.ofInt n).octets, isNumeral b = true := by
  cases n with
  | ofNat n => exact isNumeral_ofNat n
  | negSucc n =>
    intro b hb
    rcases List.mem_cons.mp hb with rfl | hb
    · rfl
    · exact isNumeral_ofNat (n + 1) b hb

/-- An integer in range is read from its text. -/
theorem readInt_ofInt {n : Int} (hlow : -0x80000000 ≤ n) (hhigh : n < 0x80000000) :
    readInt (Text.ofInt n) = .ok (.ofInt n) := by
  have hclean : cleanNumeral (Text.ofInt n) "i32" = Text.ofInt n :=
    cleanNumeral_eq (b := octet 'i') (by decide) rfl (isNumeral_ofInt n)
  rw [readInt, hclean, Decimal.readInt?_ofInt (by omega) (by omega)]
  exact if_pos ⟨hlow, hhigh⟩

/-- The text of a double has nothing that is taken off it. -/
theorem cleanNumeral_general (x : Float) : cleanNumeral (Decimal.general x) "f32" = Decimal.general x := by
  have hsign : ∀ (negative : Bool) (octets : List UInt8), (∀ b ∈ octets, isNumeral b = true) →
      cleanNumeral (Decimal.sign negative ++ ⟨octets⟩) "f32" = Decimal.sign negative ++ ⟨octets⟩ := by
    intro negative octets hoctets
    apply cleanNumeral_eq (b := octet 'f') (by decide) rfl
    intro b hb
    cases negative with
    | false => exact hoctets b hb
    | true =>
      rcases List.mem_cons.mp hb with rfl | hb
      · rfl
      · exact hoctets b hb
  rw [Decimal.general]
  cases Double.value x with
  | nan => rfl
  | infinite negative => cases negative <;> rfl
  | finite negative m q =>
    rw [Decimal.generalOf]
    split
    · exact hsign negative _ (isNumeral_ofNat 0)
    · exact hsign negative _ (Decimal.Layout.general.isNumeral_write _).all

/-- A double is read from its text. -/
theorem readFloat_general (x : Float) : readFloat (Decimal.general x) = .ok (.ofFloat x) := by
  rw [readFloat, cleanNumeral_general, Decimal.readFloat?_general]

/-! ## Characters and texts -/

/-- A character begins with a single quote only if it is one. -/
theorem startsWith_ofCode {code : Nat} (hcode : Text.isScalar code = true) :
    (Text.ofCode code).startsWith "'" = decide (code = 39) := by
  have hoctets : (Text.ofCode code).octets = Text.encodeScalar code := by
    change Text.encodeScalar (if Text.isScalar code then code else Text.replacement) = _
    rw [if_pos hcode]
  have hhigh := Text.lt_of_isScalar hcode
  have hfirst : ∀ {n : Nat} {rest : List UInt8}, n < 256 →
      ([octet '\''] : List UInt8).isPrefixOf (n.toUInt8 :: rest) = decide (n = 39) := by
    intro n rest hn
    have htoNat := Text.toNat_toUInt8 hn
    have hiff : octet '\'' = n.toUInt8 ↔ n = 39 := by
      rw [← UInt8.toNat_inj, htoNat]
      exact eq_comm
    have hstarts : ([octet '\''] : List UInt8).isPrefixOf (n.toUInt8 :: rest) = (octet '\'' == n.toUInt8) := by
      rw [List.isPrefixOf, List.isPrefixOf, Bool.and_true]
    rw [hstarts, beq_eq_decide]
    exact decide_eq_decide.mpr hiff
  change ([octet '\''] : List UInt8).isPrefixOf (Text.ofCode code).octets = _
  rw [hoctets]
  simp only [Text.encodeScalar]
  split_ifs with h₁ h₂ h₃
  · exact hfirst (by omega)
  all_goals
    rw [hfirst (by omega)]
    exact decide_eq_decide.mpr (by omega)

/-- A character is read from its text, unless it is the single quote. -/
theorem readChar_ofCode {code : Nat} (hcode : Text.isScalar code = true) :
    readChar (Text.ofCode code) = if code = 39 then .error (.charQuotation "'") else .ok (.ofCode code) := by
  split
  next hquote =>
    subst hquote
    rfl
  next hquote =>
    have hbare : (Text.ofCode code).startsWith "'" = false := by
      rw [startsWith_ofCode hcode]
      exact decide_eq_false hquote
    have hpieces : (Text.ofCode code).pieces = [.scalar code] := by
      change Text.piecesFrom 0 (Text.encodeScalar (if Text.isScalar code then code else Text.replacement)) = _
      rw [if_pos hcode, Text.pieces_encodeScalar hcode]
    have hsingle : singleCode? (Text.ofCode code) = some code := by rw [singleCode?, hpieces]
    simp only [readChar, hbare, Bool.false_eq_true, if_false, bind, Except.bind, hsingle]
    rfl

/-- A text is read as itself exactly if it does not begin with a double quote. -/
theorem readString_eq_iff {t : Text} (hutf8 : t.isUtf8 = true) :
    readString t = .ok (.ofText t) ↔ t.startsWith "\"" = false := by
  rw [readString]
  cases hquote : t.startsWith "\"" with
  | false => simp
  | true =>
    simp only [if_true, Bool.true_eq_false, iff_false]
    cases hunquote : t.unquote? with
    | none => nofun
    | some u =>
      intro heq
      have hsame : u = t := congrArg Literal.str (Except.ok.inj heq)
      have hshorter := Text.size_unquote?_lt hquote hutf8 hunquote
      rw [hsame] at hshorter
      exact Nat.lt_irrefl _ hshorter

/-! ## Built literals -/

/-- What a literal can be built from. -/
inductive Constant where
  | int (n : Int)
  | float (x : Float)
  | bool (b : Bool)
  | char (code : Nat)
  | text (t : Text)

namespace Constant

/-- The node that is built from a constant. -/
def tree : Constant → Tree
  | .int n => Tree.int n
  | .float x => Tree.float x
  | .bool b => Tree.bool b
  | .char code => Tree.char code
  | .text t => Tree.str t

/-- The literal that a constant is. -/
def literal : Constant → Literal
  | .int n => ofInt n
  | .float x => ofFloat x
  | .bool b => ofBool b
  | .char code => ofCode code
  | .text t => ofText t

/-- What a constant of the language has to be: integers have 32 bits, characters are scalar values, and texts are made of
characters. -/
def IsProper : Constant → Prop
  | .int n => -0x80000000 ≤ n ∧ n < 0x80000000
  | .char code => Text.isScalar code = true
  | .text t => t.isUtf8 = true
  | _ => True

/-- A constant whose text cannot be taken for a quoted one: a character is not the single quote, and a text does not
begin with a double quote. -/
def IsBare : Constant → Prop
  | .char code => code ≠ 39
  | .text t => t.startsWith "\"" = false
  | _ => True

end Constant

/-- A literal denotes the constant that it is built from exactly if the constant is bare: all integers, doubles and truth
values do. -/
theorem denotes_iff_isBare (c : Constant) (hc : c.IsProper) : Denotes c.tree c.literal ↔ c.IsBare := by
  cases c with
  | int n =>
    obtain ⟨hlow, hhigh⟩ := hc
    exact iff_of_true ((denotes_literal rfl _).mpr (readInt_ofInt hlow hhigh)) trivial
  | float x => exact iff_of_true ((denotes_literal rfl _).mpr (readFloat_general x)) trivial
  | bool b => exact iff_of_true ((denotes_literal rfl _).mpr rfl) trivial
  | char code =>
    have hread : read (Tree.char code) = readChar (Text.ofCode code) := rfl
    rw [Constant.tree, Tree.char, denotes_literal rfl, ← Tree.char, hread, readChar_ofCode hc]
    split
    next hquote => exact ⟨nofun, fun hne => absurd hquote hne⟩
    next hquote => exact ⟨fun _ => hquote, fun _ => rfl⟩
  | text t =>
    have hread : read (Tree.str t) = readString t := rfl
    rw [Constant.tree, Tree.str, denotes_literal rfl, ← Tree.str, hread]
    exact readString_eq_iff hc

/-- The least integer, the least positive double and the greatest one, the last character, and a text with quotes in it. -/
theorem denotes_iff_isBare_extremes :
    Denotes (Tree.int (-0x80000000)) (ofInt (-0x80000000)) ∧ Denotes (Tree.float (Float.ofBits 1)) (ofFloat (Float.ofBits 1)) ∧
      Denotes (Tree.float (Float.ofBits 0x7fefffffffffffff)) (ofFloat (Float.ofBits 0x7fefffffffffffff)) ∧
        Denotes (Tree.char 0x10ffff) (ofCode 0x10ffff) ∧ Denotes (Tree.str "a \"b\"") (ofText "a \"b\"") := by
  refine ⟨?_, ?_, ?_, ?_, ?_⟩
  · exact (denotes_iff_isBare (.int (-0x80000000)) ⟨by decide, by decide⟩).mpr trivial
  · exact (denotes_iff_isBare (.float (Float.ofBits 1)) trivial).mpr trivial
  · exact (denotes_iff_isBare (.float (Float.ofBits 0x7fefffffffffffff)) trivial).mpr trivial
  · exact (denotes_iff_isBare (.char 0x10ffff) rfl).mpr (by decide : 0x10ffff ≠ 39)
  · exact (denotes_iff_isBare (.text "a \"b\"") rfl).mpr rfl

/-- Not every literal denotes the constant that it is built from: a single quote is no literal, and neither is a double
quote, and a text in double quotes denotes what is between them. -/
theorem quotes_misread :
    (¬∀ c : Constant, c.IsProper → Denotes c.tree c.literal) ∧
      read (Tree.char 39) = .error (.charQuotation "'") ∧ read (Tree.str "\"") = .error (.stringQuotation "\"") ∧
        Denotes (Tree.str "\"a\"") (ofText "a") := by
  refine ⟨fun h => ?_, rfl, rfl, (denotes_literal rfl _).mpr rfl⟩
  have hread := (denotes_literal rfl _).mp (h (.char 39) rfl)
  cases hread

end Literal

end Tenure
