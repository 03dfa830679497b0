import Tenure.Proofs.Decimal.Reading

/-!
# The text of a double reads back

Every double is what its text reads as, `readFloat?_general`. A finite double has a decimal that is nearest to it, which
its text writes and the reader scales; the bounds by which the reader tells early what is past all doubles and what is
next to zero leave out no decimal that is nearest to a double.
-/

set_option autoImplicit false

namespace Tenure.Decimal

open Text (octet isDigit lowerOctet isDigit_iff)
open Double (Format nearest_range)

/-! ## Scaling -/

theorem least_two_pow_lt : 2 ^ 1075 < 10 ^ 330 :=
  calc 2 ^ 1075 = (2 ^ 215) ^ 5 := pow_mul 2 215 5
    _ < (10 ^ 66) ^ 5 := Nat.pow_lt_pow_left (by norm_num) (by decide)
    _ = 10 ^ 330 := by rw [← pow_mul]

theorem greatest_two_pow_lt : 2 ^ 1024 < 10 ^ 309 :=
  calc 2 ^ 1024 = (2 ^ 256) ^ 4 := pow_mul 2 256 4
    _ < 10 * (10 ^ 77) ^ 4 := by norm_num
    _ = 10 ^ 309 := by rw [← pow_mul, ← pow_succ']

/-- Where the first digit of a number in the range of the doubles can stand. -/
theorem place_bounds {c count : Nat} {e : Int} (hlow : 10 ^ (count - 1) ≤ c) (hhigh : c < 10 ^ count)
    (hsmall : (2 : ℚ) ^ (-1075 : Int) ≤ c * 10 ^ e) (hlarge : (c * 10 ^ e : ℚ) < 2 ^ (1024 : Int)) :
    -330 < count + e ∧ count + e < 310 := by
  have hmono {a b : Int} (h : (10 : ℚ) ^ a < 10 ^ b) : a < b := (zpow_lt_zpow_iff_right₀ (by norm_num)).mp h
  have hcount : 0 < count := by
    by_contra hzero
    rw [show count = 0 by omega] at hlow hhigh
    omega
  have hpower (k : Nat) : ((10 ^ k : Nat) : ℚ) = 10 ^ (k : Int) := by simp
  constructor
  · apply hmono
    calc (10 : ℚ) ^ (-330 : Int) < 2 ^ (-1075 : Int) := by
          rw [zpow_neg, zpow_neg, inv_lt_inv₀ (by positivity) (by positivity), zpow_ofNat, zpow_ofNat]
          exact_mod_cast least_two_pow_lt
      _ ≤ c * 10 ^ e := hsmall
      _ ≤ (10 ^ count : Nat) * 10 ^ e := by gcongr
      _ = 10 ^ ((count : Int) + e) := by rw [hpower, zpow_add₀ (by norm_num)]
  · have hlt : (count - 1 : Nat) + e < 309 := hmono <|
      calc (10 : ℚ) ^ (((count - 1 : Nat) : Int) + e) = (10 ^ (count - 1) : Nat) * 10 ^ e := by
            rw [hpower, zpow_add₀ (by norm_num)]
        _ ≤ c * 10 ^ e := by gcongr
        _ < 2 ^ (1024 : Int) := hlarge
        _ < 10 ^ (309 : Int) := by
          rw [zpow_ofNat, zpow_ofNat]
          exact_mod_cast greatest_two_pow_lt
    omega

section Finite

variable {x : Float} {negative : Bool} {m : Nat} {q : Int}

/-- A significand and an exponent that stand for a number nearest to a double are scaled to that double. -/
theorem Significand.scaleTen?_of_nearest (hx : Double.value x = .finite negative m q) (hm : 0 < m) {s : Significand}
    (hs : s.Counted) {e : Int} (h : Format.double.Nearest m q (s.value * 10 ^ e)) : s.scaleTen? negative e = some x := by
  obtain ⟨hsmall, hlarge⟩ := nearest_range hx hm h
  have hvalue : s.value ≠ 0 := by
    intro hzero
    have hpos := (Format.double.lowerMidpoint_pos hm q).trans_le h.low
    simp [hzero] at hpos
  obtain ⟨hleast, hgreatest⟩ := place_bounds (hs.low (Nat.pos_of_ne_zero hvalue)) hs.high hsmall hlarge
  have hnearest : Format.double.Nearest m q ((s.value * 10 ^ e.toNat : Nat) / (10 ^ (-e).toNat : Nat)) := by
    have hpower : (10 : ℚ) ^ e = 10 ^ e.toNat / 10 ^ (-e).toNat := by
      obtain ⟨n, rfl | rfl⟩ := e.eq_nat_or_neg
      · simp
      · simp
    rw [hpower, ← mul_div_assoc] at h
    push_cast
    exact h
  rw [scaleTen?]
  simp only [hvalue, if_false, if_neg (show ¬(310 : Int) < s.significant + e by omega),
    if_neg (show ¬((s.significant : Int) + e < -330) by omega)]
  exact Double.nearest?_of_nearest hx hm (Nat.pow_pos (by decide)) hnearest

/-- The decimal that the text of a double writes is read as the double. -/
theorem readDecimal?_shortest (hx : Double.value x = .finite negative m q) (hm : 0 < m) (layout : Layout) :
    readDecimal? negative (layout.write (shortest .double m q)).octets = some x := by
  obtain ⟨hholds, -, -, -⟩ := Format.decode_finite (by decide) hx
  have hnearest : Format.double.Nearest m q (shortest .double m q).value := shortest_nearest le_rfl le_rfl hm hholds
  generalize shortest .double m q = d at hnearest
  obtain ⟨hsmall, hlarge⟩ := nearest_range hx hm hnearest
  have hpos : 0 < d.coefficient := by
    by_contra hzero
    have hpos := (Format.double.lowerMidpoint_pos hm q).trans_le hnearest.low
    simp [Digits.value, Nat.eq_zero_of_not_pos hzero] at hpos
  obtain ⟨hlow, hhigh⟩ := Interval.length_toDigits_bounds hpos
  obtain ⟨hleast, hgreatest⟩ := place_bounds hlow hhigh hsmall hlarge
  obtain ⟨s, e, hs, hvalue, hread⟩ := layout.reads (d := d) (by rw [Text.length_ofNat]; omega)
  rw [hread]
  exact s.scaleTen?_of_nearest hx hm hs (hvalue ▸ hnearest)

end Finite

/-! ## The octets of a numeral -/

/-- Whether an octet can stand in the text of a decimal. -/
def isNumeral (b : UInt8) : Bool := isDigit b || b == octet '.' || b == octet 'e' || b == octet '+' || b == octet '-'

theorem isNumeral_iff (b : UInt8) :
    isNumeral b = true ↔ isDigit b = true ∨ b = octet '.' ∨ b = octet 'e' ∨ b = octet '+' ∨ b = octet '-' := by
  simp [isNumeral, or_assoc]

/-- What a text has to look like to be taken for a decimal: it begins with a digit and has only octets of a decimal. -/
structure IsNumeral (octets : List UInt8) : Prop where
  first : ∃ b rest, octets = b :: rest ∧ isDigit b = true
  all : ∀ b ∈ octets, isNumeral b = true

theorem isNumeral_of_isDigit {b : UInt8} (hb : isDigit b = true) : isNumeral b = true := (isNumeral_iff b).mpr (.inl hb)

theorem IsNumeral.of_digits {octets more : List UInt8} (hne : octets ≠ []) (hdigits : ∀ b ∈ octets, isDigit b = true)
    (hmore : ∀ b ∈ more, isNumeral b = true) : IsNumeral (octets ++ more) := by
  obtain ⟨b, rest, rfl⟩ := List.exists_cons_of_ne_nil hne
  refine ⟨⟨b, rest ++ more, rfl, hdigits b (List.mem_cons_self ..)⟩, fun c hc => ?_⟩
  exact (List.mem_append.mp hc).elim (fun hc => isNumeral_of_isDigit (hdigits c hc)) (hmore c)

theorem isNumeral_zeros (k : Nat) : ∀ b ∈ List.replicate k (octet '0'), isNumeral b = true := by
  intro b hb
  rw [List.eq_of_mem_replicate hb]
  rfl

theorem isNumeral_writtenExponent (width : Nat) (e : Int) : ∀ b ∈ writtenExponent width e, isNumeral b = true := by
  intro b hb
  rw [writtenExponent, Text.octets_append, Text.padLeft, List.mem_append, List.mem_append] at hb
  rcases hb with hb | hb | hb
  · split at hb
    all_goals
      rw [show b = _ from List.mem_singleton.mp hb]
      rfl
  · exact isNumeral_zeros _ b hb
  · exact isNumeral_of_isDigit (Text.isDigit_of_mem_ofNat _ b hb)

theorem isNumeral_scientific (layout : Layout) {digits : List UInt8} (hne : digits ≠ [])
    (hdigits : ∀ b ∈ digits, isDigit b = true) (e : Int) : IsNumeral (scientific layout digits e).octets := by
  obtain ⟨b, more, rfl⟩ := List.exists_cons_of_ne_nil hne
  have hfirst : ∀ c ∈ [b], isDigit c = true := fun c hc => hdigits c (by simp [List.mem_singleton.mp hc])
  have hexponent : ∀ c ∈ octet 'e' :: writtenExponent layout.exponentWidth e, isNumeral c = true := by
    intro c hc
    rcases List.mem_cons.mp hc with rfl | hc
    · rfl
    · exact isNumeral_writtenExponent _ e c hc
  cases more with
  | nil =>
    rw [octets_scientific_one]
    exact .of_digits (List.cons_ne_nil b []) hfirst hexponent
  | cons c more =>
    rw [octets_scientific_more]
    apply IsNumeral.of_digits (List.cons_ne_nil b []) hfirst
    intro a ha
    rcases List.mem_cons.mp ha with rfl | ha
    · rfl
    · rcases List.mem_append.mp ha with ha | ha
      · exact isNumeral_of_isDigit (hdigits a (List.mem_cons_of_mem b ha))
      · exact hexponent a ha

theorem isNumeral_positional {digits : List UInt8} (hne : digits ≠ []) (hdigits : ∀ b ∈ digits, isDigit b = true)
    (places : Int) : IsNumeral (positional digits places).octets := by
  have hpoint : ∀ more : List UInt8, (∀ b ∈ more, isNumeral b = true) → ∀ b ∈ octet '.' :: more, isNumeral b = true := by
    intro more hmore b hb
    rcases List.mem_cons.mp hb with rfl | hb
    · rfl
    · exact hmore b hb
  simp only [positional]
  split_ifs with hsmall hlarge
  · apply IsNumeral.of_digits (List.cons_ne_nil (octet '0') []) (by simp; rfl)
    refine hpoint (List.replicate (-places).toNat (octet '0') ++ digits) fun b hb => ?_
    exact (List.mem_append.mp hb).elim (isNumeral_zeros _ b) fun hb => isNumeral_of_isDigit (hdigits b hb)
  · exact .of_digits hne hdigits (isNumeral_zeros _)
  · have hnonempty : digits.take places.toNat ≠ [] := by
      rw [← List.length_pos_iff_ne_nil, List.length_take]
      have := List.length_pos_of_ne_nil hne
      omega
    rw [Text.octets_append, Text.octets_append, List.append_assoc]
    apply IsNumeral.of_digits hnonempty fun b hb => hdigits b (List.mem_of_mem_take hb)
    exact hpoint _ fun b hb => isNumeral_of_isDigit (hdigits b (List.mem_of_mem_drop hb))

/-- A written decimal looks like one. -/
theorem Layout.isNumeral_write (layout : Layout) (d : Digits) : IsNumeral (layout.write d).octets := by
  have hne : (Text.ofNat d.coefficient).octets ≠ [] := by
    apply List.ne_nil_of_length_pos
    rw [Text.length_ofNat]
    exact Nat.length_toDigits_pos
  have hdigits := Text.isDigit_of_mem_ofNat d.coefficient
  simp only [write]
  split
  · exact isNumeral_scientific layout hne hdigits _
  · exact isNumeral_positional hne hdigits _

theorem lowerOctet_of_isDigit {b : UInt8} (hb : isDigit b = true) : lowerOctet b = b := by
  have hbounds := (isDigit_iff b).mp hb
  rw [lowerOctet, if_neg]
  rw [UInt8.le_iff_toNat_le, UInt8.le_iff_toNat_le]
  change ¬(65 ≤ b.toNat ∧ b.toNat ≤ 90)
  omega

/-- No decimal has the mark of a hexadecimal numeral in it. -/
theorem lowerOctet_ne_mark {b : UInt8} (hb : isNumeral b = true) : lowerOctet b ≠ octet 'x' := by
  rcases (isNumeral_iff b).mp hb with hb | rfl | rfl | rfl | rfl
  · rw [lowerOctet_of_isDigit hb]
    rintro rfl
    exact absurd hb (by decide)
  all_goals decide

/-- A text that looks like a decimal is read as one after its sign. -/
theorem readFloat?_of_isNumeral {octets : List UInt8} (h : IsNumeral octets) (negative : Bool) :
    readFloat? (sign negative ++ ⟨octets⟩) = readDecimal? negative octets := by
  obtain ⟨b, rest, rfl, hb⟩ := h.first
  have hsign : takeSign (sign negative ++ (⟨b :: rest⟩ : Text)).octets = (negative, b :: rest) := by
    cases negative with
    | false => exact takeSign_of_isDigit hb rest
    | true => rfl
  have hletter : ∀ c : UInt8, isDigit c = false → lowerOctet b ≠ c := by
    rintro c hc rfl
    rw [lowerOctet_of_isDigit hb, hb] at hc
    cases hc
  have hinf : ¬((b :: rest).map lowerOctet = Text.octets "inf" ∨ (b :: rest).map lowerOctet = Text.octets "infinity") := by
    rintro (heq | heq)
    · exact hletter 105 rfl (List.cons.inj heq).1
    · exact hletter 105 rfl (List.cons.inj heq).1
  have hnan : ¬((sign negative ++ (⟨b :: rest⟩ : Text)).octets.map lowerOctet = Text.octets "nan") := by
    intro heq
    cases negative with
    | false => exact hletter 110 rfl (List.cons.inj heq).1
    | true => exact absurd (List.cons.inj heq).1 (by decide)
  rw [readFloat?, hsign]
  simp only [if_neg hinf, if_neg hnan]
  split
  next z c d more heq =>
    have hmem : c ∈ b :: rest := by simp [heq]
    exact if_neg fun hmark => lowerOctet_ne_mark (h.all c hmem) hmark.2
  next => rfl

/-! ## Doubles -/

/-- A finite double without magnitude is the zero of its sign. -/
theorem eq_zero_of_value {x : Float} {negative : Bool} {q : Int} (hx : Double.value x = .finite negative 0 q) :
    Double.zero negative = x := by
  obtain ⟨hholds, hbits, -, hsign⟩ := Format.decode_finite (by decide) hx
  have hleast : q = Format.double.leastExponent := hholds.normal.resolve_left (by decide)
  have hbelow : x.toBits.toNat % 2 ^ 63 = 0 := by
    rw [hleast] at hbits
    simpa [Format.double] using hbits
  rw [← Double.ofBits_parts hbelow hsign]
  cases negative <;> rfl

/-- Every double is what its text reads as. -/
theorem readFloat?_general (x : Float) : readFloat? (general x) = some x := by
  rw [general]
  cases hx : Double.value x with
  | nan =>
    rw [Double.eq_nan_of_value hx]
    rfl
  | infinite negative =>
    have hinfinity : Double.infinity negative = x := by
      have h := Double.ofValue_value x
      rwa [hx] at h
    rw [← hinfinity]
    cases negative <;> rfl
  | finite negative m q =>
    rcases Nat.eq_zero_or_pos m with rfl | hm
    · rw [← eq_zero_of_value hx]
      cases negative <;> rfl
    · rw [generalOf, if_neg hm.ne', readFloat?_of_isNumeral (Layout.general.isNumeral_write _)]
      exact readDecimal?_shortest hx hm Layout.general

end Tenure.Decimal
