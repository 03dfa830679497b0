import Tenure.Decimal.Layout
import Tenure.Proofs.Decimal.Digits
import Tenure.Proofs.Decimal.Shortest

/-!
# Floating point numerals read back

The text of a double reads back as the double, `readFloat?_general`. Whatever the layout, a written decimal is read as a
significand and an exponent that stand for the decimal, `Layout.reads`; and a significand that stands for a decimal
nearest to a double is scaled to that double, `Significand.scaleTen?_of_nearest`.
-/

set_option autoImplicit false

namespace Tenure.Decimal

open Text (octet isDigit lowerOctet isDigit_iff digitValue?_of_isDigit)
open Double (Format upperMidpoint)

/-! ## Significands -/

namespace Significand

/-- A significand with one more decimal digit. -/
def push (s : Significand) (b : UInt8) : Significand :=
  { s with
    value := 10 * s.value + (b.toNat - 48)
    digits := s.digits + 1
    significant := if s.value = 0 ∧ b.toNat - 48 = 0 then 0 else s.significant + 1
    fraction := if s.pointed then s.fraction + 1 else s.fraction }

/-- A significand with more decimal digits. -/
def extend (s : Significand) (digits : List UInt8) : Significand := digits.foldl push s

/-- A significand with the point after its digits. -/
def pointAfter (s : Significand) : Significand := { s with pointed := true }

theorem value_extend (s : Significand) (digits : List UInt8) :
    (s.extend digits).value = continued s.value digits := by
  induction digits generalizing s with
  | nil => rfl
  | cons b rest ih => exact ih (s.push b)

theorem pointed_extend (s : Significand) (digits : List UInt8) : (s.extend digits).pointed = s.pointed := by
  induction digits generalizing s with
  | nil => rfl
  | cons b rest ih => exact ih (s.push b)

theorem digits_extend (s : Significand) (digits : List UInt8) :
    (s.extend digits).digits = s.digits + digits.length := by
  induction digits generalizing s with
  | nil => rfl
  | cons b rest ih =>
    rw [extend, List.foldl_cons, ← extend, ih, List.length_cons]
    simp only [push]
    omega

theorem fraction_extend (s : Significand) (digits : List UInt8) :
    (s.extend digits).fraction = if s.pointed then s.fraction + digits.length else s.fraction := by
  induction digits generalizing s with
  | nil => simp [extend]
  | cons b rest ih =>
    rw [extend, List.foldl_cons, ← extend, ih, List.length_cons]
    simp only [push]
    split <;> omega

/-- The significant digits of a significand are counted: none for zero, and else as many as its value has. -/
structure Counted (s : Significand) : Prop where
  zero : s.value = 0 → s.significant = 0
  low : 0 < s.value → 10 ^ (s.significant - 1) ≤ s.value
  high : s.value < 10 ^ s.significant

theorem Counted.push {s : Significand} (h : s.Counted) {b : UInt8} (hb : isDigit b = true) : (s.push b).Counted := by
  have hdigit : b.toNat - 48 < 10 := by
    have := (isDigit_iff b).mp hb
    omega
  simp only [Significand.push]
  generalize b.toNat - 48 = d at *
  by_cases hzero : s.value = 0
  · have hsignificant := h.zero hzero
    by_cases hd : d = 0
    · exact ⟨by simp [hzero, hd], by simp [hzero, hd], by simp [hzero, hd]⟩
    · refine ⟨fun h => absurd h (by simp [hzero, hd]), fun _ => ?_, ?_⟩
      · simp only [hzero, hd, hsignificant, and_false, if_false]
        omega
      · simp only [hzero, hd, hsignificant, and_false, if_false]
        omega
  · have hlow := h.low (Nat.pos_of_ne_zero hzero)
    have hhigh := h.high
    obtain ⟨k, hk⟩ : ∃ k, s.significant = k + 1 := by
      refine ⟨s.significant - 1, ?_⟩
      by_contra hnone
      rw [show s.significant = 0 by omega] at hhigh
      omega
    rw [hk, Nat.add_sub_cancel] at hlow
    rw [hk, pow_succ] at hhigh
    refine ⟨fun h => absurd h (by simp [hzero]), fun _ => ?_, ?_⟩
    · simp only [hzero, false_and, if_false, hk, Nat.add_sub_cancel, pow_succ]
      omega
    · simp only [hzero, false_and, if_false, hk, pow_succ]
      omega

theorem Counted.extend {s : Significand} (h : s.Counted) {digits : List UInt8}
    (hdigits : ∀ b ∈ digits, isDigit b = true) : (s.extend digits).Counted := by
  induction digits generalizing s with
  | nil => exact h
  | cons b rest ih =>
    exact ih (h.push (hdigits b (List.mem_cons_self ..))) fun c hc => hdigits c (List.mem_cons_of_mem b hc)

theorem Counted.pointAfter {s : Significand} (h : s.Counted) : s.pointAfter.Counted := ⟨h.zero, h.low, h.high⟩

theorem counted_start : start.Counted := ⟨fun _ => rfl, nofun, by decide⟩

end Significand

/-! ## Taking significands off -/

section Taking

variable {s : Significand} {digits rest : List UInt8}

theorem ne_point_of_isDigit {b : UInt8} (hb : isDigit b = true) : b ≠ octet '.' := by
  rintro rfl
  exact absurd hb (by decide)

/-- Digits are taken up. -/
theorem takeSignificand_digits (hdigits : ∀ b ∈ digits, isDigit b = true) :
    takeSignificand 10 s (digits ++ rest) = takeSignificand 10 (s.extend digits) rest := by
  induction digits generalizing s with
  | nil => rfl
  | cons b more ih =>
    have hb := hdigits b (List.mem_cons_self ..)
    have hlt : b.toNat - 48 < 10 := by
      have := (isDigit_iff b).mp hb
      omega
    rw [List.cons_append, takeSignificand, if_neg fun h => ne_point_of_isDigit hb h.1, digitValue?_of_isDigit hb]
    simp only [hlt, if_true]
    exact ih fun c hc => hdigits c (List.mem_cons_of_mem b hc)

/-- The first point is taken up. -/
theorem takeSignificand_point (hs : s.pointed = false) :
    takeSignificand 10 s (octet '.' :: rest) = takeSignificand 10 s.pointAfter rest := by
  rw [takeSignificand, if_pos ⟨rfl, hs⟩]
  rfl

/-- The mark of an exponent ends a significand. -/
theorem takeSignificand_mark : takeSignificand 10 s (octet 'e' :: rest) = (s, octet 'e' :: rest) := by
  have hpoint : ¬(octet 'e' = octet '.' ∧ s.pointed = false) := fun h => absurd h.1 (by decide)
  have hvalue : Text.digitValue? (octet 'e') = some 14 := by decide
  rw [takeSignificand, if_neg hpoint, hvalue]
  rfl

end Taking

/-! ## Numerals as written -/

/-- A text reads as a decimal, whatever sign it is given: it is read as a significand that is scaled by a power of ten. -/
def Reads (octets : List UInt8) (v : ℚ) : Prop :=
  ∃ (s : Significand) (e : Int), s.Counted ∧ (s.value : ℚ) * 10 ^ e = v ∧
    ∀ negative, readDecimal? negative octets = s.scaleTen? negative e

section Reads

variable {digits more : List UInt8}

theorem readDecimal?_of_take {octets : List UInt8} {s : Significand} (h : takeSignificand 10 .start octets = (s, []))
    (hs : s.digits ≠ 0) (negative : Bool) :
    readDecimal? negative octets = s.scaleTen? negative (-(s.fraction : Int)) := by
  rw [readDecimal?, h]
  simp only [hs, if_false]

/-- Digits without a point. -/
theorem reads_digits (hne : digits ≠ []) (hdigits : ∀ b ∈ digits, isDigit b = true) :
    Reads digits (continued 0 digits) := by
  have htake : takeSignificand 10 .start digits = (Significand.start.extend digits, []) := by
    have h : takeSignificand 10 .start (digits ++ []) = _ := takeSignificand_digits hdigits
    rwa [List.append_nil] at h
  have hcount : (Significand.start.extend digits).digits ≠ 0 := by
    rw [Significand.digits_extend, Significand.start, Nat.zero_add]
    exact (List.length_pos_of_ne_nil hne).ne'
  have hfraction : (Significand.start.extend digits).fraction = 0 := by
    rw [Significand.fraction_extend]
    rfl
  refine ⟨Significand.start.extend digits, 0, Significand.counted_start.extend hdigits, ?_, fun negative => ?_⟩
  · rw [Significand.value_extend, zpow_zero, mul_one]
    rfl
  · rw [readDecimal?_of_take htake hcount, hfraction]
    rfl

/-- The significand of digits with a point among them. -/
def pointed (digits more : List UInt8) : Significand := (Significand.start.extend digits).pointAfter.extend more

theorem take_pointed (hdigits : ∀ b ∈ digits, isDigit b = true) (hmore : ∀ b ∈ more, isDigit b = true)
    (rest : List UInt8) : takeSignificand 10 .start (digits ++ octet '.' :: (more ++ rest)) =
      takeSignificand 10 (pointed digits more) rest := by
  rw [takeSignificand_digits hdigits, takeSignificand_point, takeSignificand_digits hmore]
  · rfl
  · exact Significand.pointed_extend _ _

theorem value_pointed : (pointed digits more).value = continued 0 (digits ++ more) := by
  rw [pointed, Significand.value_extend, continued_append]
  congr 1
  exact Significand.value_extend _ _

theorem fraction_pointed : (pointed digits more).fraction = more.length := by
  have hnone : (Significand.start.extend digits).pointAfter.fraction = 0 := by
    change (Significand.start.extend digits).fraction = 0
    rw [Significand.fraction_extend]
    rfl
  rw [pointed, Significand.fraction_extend, hnone, Nat.zero_add]
  rfl

theorem digits_pointed (hne : digits ≠ []) : (pointed digits more).digits ≠ 0 := by
  have hlength := List.length_pos_of_ne_nil hne
  have hfirst : (Significand.start.extend digits).pointAfter.digits = digits.length := by
    change (Significand.start.extend digits).digits = digits.length
    rw [Significand.digits_extend]
    exact Nat.zero_add _
  rw [pointed, Significand.digits_extend, hfirst]
  omega

theorem counted_pointed (hdigits : ∀ b ∈ digits, isDigit b = true) (hmore : ∀ b ∈ more, isDigit b = true) :
    (pointed digits more).Counted :=
  (Significand.counted_start.extend hdigits).pointAfter.extend hmore

/-- Digits with a point among them. -/
theorem reads_pointed (hne : digits ≠ []) (hdigits : ∀ b ∈ digits, isDigit b = true)
    (hmore : ∀ b ∈ more, isDigit b = true) :
    Reads (digits ++ octet '.' :: more) (continued 0 (digits ++ more) * 10 ^ (-(more.length : Int))) := by
  have htake : takeSignificand 10 .start (digits ++ octet '.' :: more) = (pointed digits more, []) := by
    have h := take_pointed hdigits hmore []
    rwa [List.append_nil] at h
  refine ⟨pointed digits more, -(more.length : Int), counted_pointed hdigits hmore, ?_, fun negative => ?_⟩
  · rw [value_pointed]
  · rw [readDecimal?_of_take htake (digits_pointed hne), fraction_pointed]

/-- A significand before the mark of an exponent. -/
theorem readDecimal?_of_mark {octets rest : List UInt8} {s : Significand} {e : Int}
    (h : takeSignificand 10 .start octets = (s, octet 'e' :: rest)) (hs : s.digits ≠ 0) (he : readExponent? rest = some e)
    (negative : Bool) : readDecimal? negative octets = s.scaleTen? negative (e - s.fraction) := by
  have hmark : lowerOctet (octet 'e') = octet 'e' := by decide
  rw [readDecimal?, h]
  simp only [hs, if_false, hmark, if_true, he, Option.bind_eq_bind, Option.bind_some]

/-- The octets of an exponent after its mark. -/
def writtenExponent (width : Nat) (e : Int) : List UInt8 :=
  (Text.ofString (if e < 0 then "-" else "+") ++ (Text.ofNat e.natAbs).padLeft '0' width).octets

theorem readExponent?_written (width : Nat) {e : Int} (he : e.natAbs < 10000) :
    readExponent? (writtenExponent width e) = some e := by
  have hne : ((Text.ofNat e.natAbs).padLeft '0' width).octets.isEmpty = false := by
    have := Nat.length_toDigits_pos (b := 10) (n := e.natAbs)
    rw [← Text.length_ofNat] at this
    rw [Bool.eq_false_iff, ne_eq, List.isEmpty_iff, ← List.length_eq_zero_iff, Text.padLeft, List.length_append]
    omega
  have hall : ((Text.ofNat e.natAbs).padLeft '0' width).octets.all isDigit = true := by
    rw [Text.padLeft, List.all_append, Bool.and_eq_true, List.all_eq_true, List.all_eq_true]
    refine ⟨fun b hb => ?_, Text.isDigit_of_mem_ofNat _⟩
    rw [List.eq_of_mem_replicate hb]
    rfl
  have hvalue : exponentValue ((Text.ofNat e.natAbs).padLeft '0' width).octets = e.natAbs := exponentValue_ofNat _ he
  have hsign : takeSign (writtenExponent width e) =
      (decide (e < 0), ((Text.ofNat e.natAbs).padLeft '0' width).octets) := by
    by_cases hneg : e < 0
    · simp only [writtenExponent, hneg, if_true, decide_true]
      rfl
    · simp only [writtenExponent, hneg, if_false, decide_false]
      rfl
  rw [readExponent?, hsign]
  simp only [hne, hall, hvalue, Bool.false_eq_true, Bool.not_true, or_self, if_false, decide_eq_true_eq, Option.some.injEq]
  split <;> omega

/-- One digit in scientific notation has no point. -/
theorem octets_scientific_one (layout : Layout) (b : UInt8) (e : Int) :
    (scientific layout [b] e).octets = [b] ++ octet 'e' :: writtenExponent layout.exponentWidth e := rfl

theorem octets_scientific_more (layout : Layout) (b c : UInt8) (more : List UInt8) (e : Int) :
    (scientific layout (b :: c :: more) e).octets =
      [b] ++ octet '.' :: (c :: more ++ octet 'e' :: writtenExponent layout.exponentWidth e) := by
  simp only [scientific, writtenExponent, Text.octets_append, List.append_assoc]
  rfl

/-- Digits in scientific notation. -/
theorem reads_scientific (layout : Layout) (hne : digits ≠ []) (hdigits : ∀ b ∈ digits, isDigit b = true) {e : Int}
    (he : e.natAbs < 10000) :
    Reads (scientific layout digits e).octets (continued 0 digits * 10 ^ (e - (digits.length - 1 : Nat))) := by
  obtain ⟨b, more, rfl⟩ := List.exists_cons_of_ne_nil hne
  have hfirst : ∀ c ∈ [b], isDigit c = true := fun c hc => hdigits c (by simp [List.mem_singleton.mp hc])
  have hmore : ∀ c ∈ more, isDigit c = true := fun c hc => hdigits c (List.mem_cons_of_mem b hc)
  have hexponent := readExponent?_written layout.exponentWidth he
  cases more with
  | nil =>
    have htake : takeSignificand 10 .start (scientific layout [b] e).octets =
        (Significand.start.extend [b], octet 'e' :: writtenExponent layout.exponentWidth e) := by
      rw [octets_scientific_one, takeSignificand_digits hfirst, takeSignificand_mark]
    refine ⟨_, e - 0, Significand.counted_start.extend hfirst, ?_,
      fun negative => readDecimal?_of_mark htake (by simp [Significand.digits_extend]) hexponent negative⟩
    rw [Significand.value_extend]
    rfl
  | cons c more =>
    have htake : takeSignificand 10 .start (scientific layout (b :: c :: more) e).octets =
        (pointed [b] (c :: more), octet 'e' :: writtenExponent layout.exponentWidth e) := by
      rw [octets_scientific_more, take_pointed hfirst hmore, takeSignificand_mark]
    refine ⟨_, e - (c :: more).length, counted_pointed hfirst hmore, ?_, fun negative => ?_⟩
    · rw [value_pointed]
      rfl
    · rw [readDecimal?_of_mark htake (digits_pointed (by simp)) hexponent, fraction_pointed]

/-- Digits with the point somewhere. -/
theorem reads_positional (hne : digits ≠ []) (hdigits : ∀ b ∈ digits, isDigit b = true) (places : Int) :
    Reads (positional digits places).octets (continued 0 digits * 10 ^ (places - digits.length)) := by
  have hzero : ∀ k, ∀ b ∈ List.replicate k (octet '0'), isDigit b = true := by
    intro k b hb
    rw [List.eq_of_mem_replicate hb]
    rfl
  simp only [positional]
  split_ifs with hsmall hlarge
  · have hmore : ∀ b ∈ List.replicate (-places).toNat (octet '0') ++ digits, isDigit b = true := by
      intro b hb
      exact (List.mem_append.mp hb).elim (hzero _ b) (hdigits b)
    have h := reads_pointed (List.cons_ne_nil _ _) (hzero 1) hmore
    have hlead : continued 0 (octet '0' :: List.replicate 0 (octet '0')) = 0 := rfl
    rw [← List.append_assoc, continued_append, continued_append, hlead, continued_zeros, Nat.zero_mul, List.length_append,
      List.length_replicate] at h
    rwa [show places - digits.length = -(((-places).toNat + digits.length : Nat) : Int) by omega]
  · have hall : ∀ b ∈ digits ++ List.replicate (places.toNat - digits.length) (octet '0'), isDigit b = true := by
      intro b hb
      exact (List.mem_append.mp hb).elim (hdigits b) (hzero _ b)
    have h := reads_digits (List.append_ne_nil_of_left_ne_nil hne _) hall
    rw [continued_append, continued_zeros] at h
    rw [show places - digits.length = ((places.toNat - digits.length : Nat) : Int) by omega, zpow_natCast]
    exact_mod_cast h
  · have hfirst : ∀ b ∈ digits.take places.toNat, isDigit b = true := fun b hb => hdigits b (List.mem_of_mem_take hb)
    have hmore : ∀ b ∈ digits.drop places.toNat, isDigit b = true := fun b hb => hdigits b (List.mem_of_mem_drop hb)
    have hnonempty : digits.take places.toNat ≠ [] := by
      rw [← List.length_pos_iff_ne_nil, List.length_take]
      omega
    have h := reads_pointed hnonempty hfirst hmore
    rw [List.take_append_drop, List.length_drop] at h
    rw [show places - digits.length = -((digits.length - places.toNat : Nat) : Int) by omega]
    rw [Text.octets_append, Text.octets_append, List.append_assoc]
    exact h

end Reads

/-- A written decimal reads as itself, in every layout. -/
theorem Layout.reads (layout : Layout) {d : Digits}
    (hexponent : (d.exponent + (Text.ofNat d.coefficient).octets.length - 1).natAbs < 10000) :
    Reads (layout.write d).octets d.value := by
  have hpos : 0 < (Text.ofNat d.coefficient).octets.length := by
    rw [Text.length_ofNat]
    exact Nat.length_toDigits_pos
  have hne : (Text.ofNat d.coefficient).octets ≠ [] := List.ne_nil_of_length_pos hpos
  have hdigits := Text.isDigit_of_mem_ofNat d.coefficient
  have hvalue : continued 0 (Text.ofNat d.coefficient).octets = d.coefficient := continued_ofNat d.coefficient
  simp only [write]
  rw [Digits.value]
  split
  · have h := reads_scientific layout hne hdigits hexponent
    rw [hvalue] at h
    convert h using 3
    omega
  · have h := reads_positional hne hdigits (d.exponent + (Text.ofNat d.coefficient).octets.length - 1 + 1)
    rw [hvalue] at h
    convert h using 3
    omega

end Tenure.Decimal
