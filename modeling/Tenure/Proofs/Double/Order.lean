import Tenure.Proofs.Double.Encoding

/-!
# Comparing doubles

Two finite doubles compare as the numbers that they stand for: `lt_iff`, `le_iff` and `beq_iff`. The comparison looks at
exponents first and at significands second, which is the order of the numbers because a significand is short only at the
least exponent, `Format.Holds.lt_iff`. An integer of at most 53 bits is a double, `value_ofInt`, so such integers compare
alike whether or not they are kept as doubles.
-/

set_option autoImplicit false

namespace Tenure.Double

open Float.Model.UnpackedFloat

/-! ## Order of magnitudes -/

/-- Numbers of one format are in the order of their exponents, and for one exponent in that of their significands. -/
theorem Format.Holds.lt_iff {f : Format} {m n : Nat} {e g : Int} (hp : 0 < f.precision) (hm : f.Holds m e)
    (hn : f.Holds n g) : (m * 2 ^ e : ℚ) < n * 2 ^ g ↔ e < g ∨ e = g ∧ m < n := by
  have hbelow : ∀ {m n : Nat} {e g : Int}, f.Holds m e → f.Holds n g → e < g → (m * 2 ^ e : ℚ) < n * 2 ^ g := by
    intro m n e g hm hn hlt
    have hnormal : 2 ^ (f.precision - 1) ≤ n := by
      have := hm.least
      exact hn.normal.resolve_right (by omega)
    have hshort : (m : ℚ) < 2 ^ f.precision := by exact_mod_cast hm.short
    have hlong : (2 : ℚ) ^ (f.precision - 1) ≤ n := by exact_mod_cast hnormal
    calc (m * 2 ^ e : ℚ) < 2 ^ f.precision * 2 ^ e := by gcongr
      _ = 2 ^ (f.precision - 1) * 2 ^ (e + 1) := by
        rw [zpow_add_one₀ two_ne_zero, mul_comm ((2 : ℚ) ^ e), ← mul_assoc, ← pow_succ, Nat.sub_add_cancel hp]
      _ ≤ 2 ^ (f.precision - 1) * 2 ^ g := by
        gcongr
        · norm_num
        · omega
      _ ≤ n * 2 ^ g := by gcongr
  constructor
  · intro hlt
    rcases lt_trichotomy e g with h | rfl | h
    · exact .inl h
    · have hpos : (0 : ℚ) < 2 ^ e := by positivity
      exact .inr ⟨rfl, by exact_mod_cast (mul_lt_mul_iff_left₀ hpos).mp hlt⟩
    · exact absurd hlt (hbelow hn hm h).not_gt
  · rintro (h | ⟨rfl, h⟩)
    · exact hbelow hm hn h
    · gcongr

/-- The comparison of exponents and significands is that of the numbers. -/
theorem Format.Holds.compare_eq {f : Format} {m n : Nat} {e g : Int} (hp : 0 < f.precision) (hm : f.Holds m e)
    (hn : f.Holds n g) : (compare e g).then (compare m n) = compare (m * 2 ^ e : ℚ) (n * 2 ^ g) := by
  rcases lt_trichotomy e g with h | rfl | h
  · rw [compare_lt_iff_lt.mpr h, compare_lt_iff_lt.mpr ((hm.lt_iff hp hn).mpr (.inl h))]
    rfl
  · rw [compare_eq_iff_eq.mpr (rfl : e = e)]
    change compare m n = _
    rcases lt_trichotomy m n with h | rfl | h
    · rw [compare_lt_iff_lt.mpr h, compare_lt_iff_lt.mpr ((hm.lt_iff hp hn).mpr (.inr ⟨rfl, h⟩))]
    · rw [compare_eq_iff_eq.mpr (rfl : m = m), compare_eq_iff_eq.mpr rfl]
    · rw [compare_gt_iff_gt.mpr h, compare_gt_iff_gt.mpr ((hn.lt_iff hp hm).mpr (.inr ⟨rfl, h⟩))]
  · rw [compare_gt_iff_gt.mpr h, compare_gt_iff_gt.mpr ((hn.lt_iff hp hm).mpr (.inl h))]
    rfl

/-! ## Order of doubles -/

/-- The sign of an unpacked number. -/
def signOf (negative : Bool) : Sign := if negative then .negative else .positive

/-- The number that a sign, a significand and an exponent stand for. -/
def ratio (negative : Bool) (m : Nat) (e : Int) : ℚ := if negative then -(m * 2 ^ e) else m * 2 ^ e

theorem ofBitVec_unpackSign (b : BitVec 64) :
    Sign.ofBitVec (@unpackSign .binary64 b) = signOf (decide (b.toNat / 2 ^ 63 = 1)) := by
  have hsign : (@unpackSign .binary64 b).toNat = b.toNat / 2 ^ 63 := by
    have := b.isLt
    simp [unpackSign, BitVec.extractLsb, Nat.shiftRight_eq_div_pow]
    omega
  have hlt := b.isLt
  have hzero : @unpackSign .binary64 b = 0#1 ↔ b.toNat / 2 ^ 63 = 0 := by
    rw [← hsign, ← BitVec.toNat_inj]
    rfl
  by_cases hone : b.toNat / 2 ^ 63 = 1
  · rw [Sign.ofBitVec, if_neg (mt hzero.mp (by omega)), decide_eq_true hone]
    rfl
  · rw [Sign.ofBitVec, if_pos (hzero.mpr (by omega)), decide_eq_false hone]
    rfl

section Finite

variable {x y : Float} {sx sy : Bool} {m n : Nat} {e g : Int}

/-- What a comparison sees of a finite double: a zero, or its sign, significand and exponent. -/
theorem unpack_of_value (h : value x = .finite sx m e) :
    m = 0 ∧ x.toModel.unpack = .zero (signOf sx) ∨ ∃ hm, x.toModel.unpack = .finite (signOf sx) m e hm := by
  change Format.decode .double 11 x.toBits.toBitVec.toNat = _ at h
  change m = 0 ∧ unpack .binary64 x.toBits.toBitVec = _ ∨ ∃ hm, unpack .binary64 x.toBits.toBitVec = _
  generalize x.toBits.toBitVec = b at h ⊢
  have hexponent := toNat_unpackExponent b
  have hmantissa := toNat_unpackMantissa b
  have hones : @unpackExponent .binary64 b = -1#11 ↔ b.toNat / 2 ^ 52 % 2 ^ 11 = 2 ^ 11 - 1 := by
    rw [← hexponent, ← BitVec.toNat_inj]
    rfl
  have hzero : @unpackExponent .binary64 b = 0#11 ↔ b.toNat / 2 ^ 52 % 2 ^ 11 = 0 := by
    rw [← hexponent, ← BitVec.toNat_inj]
    rfl
  have hnone : @unpackMantissa .binary64 b = 0#52 ↔ b.toNat % 2 ^ 52 = 0 := by
    rw [← hmantissa, ← BitVec.toNat_inj]
    rfl
  have hbias : (Float.Model.Format.binary64.exponentBias : Int) = 1023 := rfl
  simp only [Format.decode, Format.double, Nat.pow_eq, show 53 - 1 = 52 from rfl, show 52 + 11 = 63 from rfl] at h
  rw [unpack]
  simp only [ofBitVec_unpackSign]
  split at h
  · split at h <;> cases h
  next hfinite =>
    rw [if_neg (mt hones.mp hfinite)]
    split at h
    next hsubnormal =>
      obtain ⟨rfl, rfl, rfl⟩ := Value.finite.inj h
      rw [if_pos (hzero.mpr hsubnormal)]
      by_cases hm : @unpackMantissa .binary64 b = 0#52
      · exact .inl ⟨hnone.mp hm, dif_pos hm⟩
      · refine .inr ⟨Nat.pos_of_ne_zero (mt hnone.mpr hm), ?_⟩
        rw [dif_neg hm, finite.injEq]
        exact ⟨rfl, hmantissa, by rw [hexponent, hsubnormal, hbias]; rfl⟩
    next hnormal =>
      obtain ⟨rfl, rfl, rfl⟩ := Value.finite.inj h
      rw [if_neg (mt hzero.mp hnormal)]
      refine .inr ⟨by omega, ?_⟩
      rw [finite.injEq]
      refine ⟨rfl, ?_, by rw [hexponent, hbias]; omega⟩
      rw [BitVec.toNat_append, hmantissa, ← Nat.shiftLeft_add_eq_or_of_lt (Nat.mod_lt _ (by decide)), Nat.add_comm]
      rfl

/-- Finite doubles compare as the numbers that they stand for. -/
theorem compare_unpack (hx : value x = .finite sx m e) (hy : value y = .finite sy n g) :
    x.toModel.unpack.compare y.toModel.unpack = some (compare (ratio sx m e) (ratio sy n g)) := by
  have hcompare := (Format.decode_finite (by decide) hx).1.compare_eq (by decide) (Format.decode_finite (by decide) hy).1
  have hpos : ∀ {m : Nat} (e : Int), 0 < m → (0 : ℚ) < m * 2 ^ e := fun e hm => by
    have : (0 : ℚ) < _ := Nat.cast_pos.mpr hm
    positivity
  have hzero : ∀ s e, ratio s 0 e = 0 := fun s e => by cases s <;> simp [ratio]
  have hneg : ∀ a b : ℚ, compare (-a) (-b) = (compare a b).swap := fun a b => by
    rcases lt_trichotomy a b with h | rfl | h
    · rw [compare_lt_iff_lt.mpr h, compare_gt_iff_gt.mpr (neg_lt_neg h)]
      rfl
    · rw [compare_eq_iff_eq.mpr rfl, compare_eq_iff_eq.mpr rfl]
      rfl
    · rw [compare_gt_iff_gt.mpr h, compare_lt_iff_lt.mpr (neg_lt_neg h)]
      rfl
  rcases unpack_of_value hx with ⟨rfl, hux⟩ | ⟨hm, hux⟩ <;> rcases unpack_of_value hy with ⟨rfl, huy⟩ | ⟨hn, huy⟩ <;>
    rw [hux, huy]
  · rw [hzero, hzero, compare_eq_iff_eq.mpr rfl]
    rfl
  · rw [hzero]
    cases sy
    · exact congrArg some (compare_lt_iff_lt.mpr (hpos g hn)).symm
    · exact congrArg some (compare_gt_iff_gt.mpr (neg_neg_of_pos (hpos g hn))).symm
  · rw [hzero]
    cases sx
    · exact congrArg some (compare_gt_iff_gt.mpr (hpos e hm)).symm
    · exact congrArg some (compare_lt_iff_lt.mpr (neg_neg_of_pos (hpos e hm))).symm
  · cases sx <;> cases sy
    · exact congrArg some hcompare
    · exact congrArg some (compare_gt_iff_gt.mpr ((neg_neg_of_pos (hpos g hn)).trans (hpos e hm))).symm
    · exact congrArg some (compare_lt_iff_lt.mpr ((neg_neg_of_pos (hpos e hm)).trans (hpos g hn))).symm
    · exact congrArg some ((congrArg Ordering.swap hcompare).trans (hneg _ _).symm)

theorem lt_iff (hx : value x = .finite sx m e) (hy : value y = .finite sy n g) :
    x < y ↔ ratio sx m e < ratio sy n g := by
  change decide (x.toModel.unpack.lt y.toModel.unpack = true) = true ↔ _
  rw [Float.Model.UnpackedFloat.lt, compare_unpack hx hy, ← compare_lt_iff_lt]
  simp

theorem le_iff (hx : value x = .finite sx m e) (hy : value y = .finite sy n g) :
    x ≤ y ↔ ratio sx m e ≤ ratio sy n g := by
  change decide (x.toModel.unpack.le y.toModel.unpack = true) = true ↔ _
  rw [Float.Model.UnpackedFloat.le, compare_unpack hx hy, ← compare_le_iff_le, decide_eq_true_iff, Option.any_some,
    Ordering.isLE_iff_ne_gt]

theorem beq_iff (hx : value x = .finite sx m e) (hy : value y = .finite sy n g) :
    (x == y) = true ↔ ratio sx m e = ratio sy n g := by
  change x.toModel.unpack.beq y.toModel.unpack = true ↔ _
  rw [Float.Model.UnpackedFloat.beq, compare_unpack hx hy, ← compare_eq_iff_eq]
  simp

end Finite

/-! ## Integers -/

/-- The encoding of a significand and an exponent that a format holds stands for them. -/
theorem Format.decode_encoded {f : Format} {k m : Nat} {e : Int} (hp : 0 < f.precision) (hf : f.Holds m e)
    (hfinite : (e - f.leastExponent).toNat + 2 < 2 ^ k) :
    f.decode k ((e - f.leastExponent).toNat * 2 ^ (f.precision - 1) + m) = .finite false m e := by
  obtain ⟨hshort, hleast, hnormal⟩ := hf
  have hprecision : 2 ^ f.precision = 2 ^ (f.precision - 1) * 2 := by rw [← pow_succ, Nat.sub_add_cancel hp]
  have hpos : 0 < 2 ^ (f.precision - 1) := Nat.two_pow_pos _
  rw [hprecision] at hshort
  generalize hq : (e - f.leastExponent).toNat = q at hfinite ⊢
  simp only [decode, Nat.pow_eq, pow_add]
  generalize 2 ^ (f.precision - 1) = unit at hshort hnormal hpos ⊢
  by_cases hlong : unit ≤ m
  · obtain ⟨r, rfl⟩ := Nat.exists_eq_add_of_le hlong
    have hbits : q * unit + (unit + r) = r + unit * (q + 1) := by ring
    have hdiv : (r + unit * (q + 1)) / unit = q + 1 := by
      rw [Nat.add_mul_div_left _ _ hpos, Nat.div_eq_of_lt (by omega), Nat.zero_add]
    rw [hbits, ← Nat.div_div_eq_div_mul, hdiv, Nat.add_mul_mod_self_left, Nat.mod_eq_of_lt (show r < unit by omega),
      Nat.mod_eq_of_lt (show q + 1 < 2 ^ k by omega), Nat.div_eq_of_lt (show q + 1 < 2 ^ k by omega), if_neg (by omega),
      if_neg (by omega), Nat.add_comm r, show f.leastExponent + ((q + 1 : Nat) : Int) - 1 = e by omega]
    rfl
  · have he := hnormal.resolve_left hlong
    have hq0 : q = 0 := by omega
    have hdiv : m / unit = 0 := Nat.div_eq_of_lt (by omega)
    rw [hq0, Nat.zero_mul, Nat.zero_add, ← Nat.div_div_eq_div_mul, hdiv, Nat.mod_eq_of_lt (show m < unit by omega),
      Nat.zero_mod, Nat.zero_div, if_neg (by omega), if_pos rfl, he]
    rfl

/-- The double of an encoding has the value of the encoding. -/
theorem value_ofBits {b m : Nat} {e : Int} {negative : Bool} (hb : b < 2 ^ 64)
    (h : Format.double.decode 11 b = .finite negative m e) : value (Float.ofBits b.toUInt64) = .finite negative m e := by
  have hnat : b.toUInt64.toBitVec.toNat = b := Nat.mod_eq_of_lt hb
  have hvalid : Float.Model.Format.binary64.Valid b.toUInt64.toBitVec := by
    refine ⟨fun hones => ?_⟩
    have hexponent := toNat_unpackExponent b.toUInt64.toBitVec
    rw [hones, hnat] at hexponent
    have hbelow : b % 2 ^ 63 < 2047 * 2 ^ 52 := (Format.decode_finite (by decide) h).2.2.1
    have hall : b / 2 ^ 52 % 2 ^ 11 = 2047 := hexponent.symm
    omega
  have hbits : (Float.ofBits b.toUInt64).toBits = b.toUInt64 := UInt64.toBitVec_inj.mp (pack_unpack_of_valid hvalid)
  rw [value, hbits]
  exact (congrArg _ hnat).trans h

/-- A number of at most 53 bits has a significand and an exponent in the format of doubles. -/
theorem holds_nat {k : Nat} (hk : k < 2 ^ 53) :
    ∃ m e, Format.double.Holds m e ∧ e ≤ 0 ∧ k * (powerOfTwo e).2 = m * (powerOfTwo e).1 := by
  rcases Nat.eq_zero_or_pos k with rfl | hpos
  · exact ⟨0, -1074, ⟨by decide, by decide, .inr rfl⟩, by decide, by simp⟩
  · have hlog : k.log2 < 53 := (Nat.log2_lt hpos.ne').mpr hk
    have hshift : 0 < 2 ^ (52 - k.log2) := Nat.two_pow_pos _
    refine ⟨k * 2 ^ (52 - k.log2), k.log2 - 52, ⟨?_, ?_, .inl ?_⟩, by omega, ?_⟩
    · calc k * 2 ^ (52 - k.log2) < 2 ^ (k.log2 + 1) * 2 ^ (52 - k.log2) :=
            (Nat.mul_lt_mul_right hshift).mpr Nat.lt_log2_self
        _ = 2 ^ 53 := by rw [← pow_add, show k.log2 + 1 + (52 - k.log2) = 53 by omega]
    · change -1074 ≤ (k.log2 : Int) - 52
      omega
    · calc 2 ^ 52 = 2 ^ k.log2 * 2 ^ (52 - k.log2) := by rw [← pow_add, show k.log2 + (52 - k.log2) = 52 by omega]
        _ ≤ k * 2 ^ (52 - k.log2) := Nat.mul_le_mul_right _ (Nat.log2_self_le hpos.ne')
    · simp only [powerOfTwo, Nat.pow_eq, show ((k.log2 : Int) - 52).toNat = 0 by omega,
        show (-((k.log2 : Int) - 52)).toNat = 52 - k.log2 by omega, pow_zero, mul_one]

/-- An integer of at most 53 bits is a double. -/
theorem value_ofInt {n : Int} (hn : n.natAbs < 2 ^ 53) :
    ∃ m e, value (ofInt n) = .finite (decide (n < 0)) m e ∧
      n.natAbs * (powerOfTwo e).2 = m * (powerOfTwo e).1 := by
  obtain ⟨m, e, hholds, hle, heq⟩ := holds_nat hn
  have hleast : -1074 ≤ e := hholds.least
  have hencode := encodeNearest_exact (by decide) Nat.one_pos hholds (heq.trans (mul_one _).symm)
  have hdecode : Format.double.decode 11 (encodeNearest .double n.natAbs 1) = .finite false m e := by
    rw [hencode]
    refine Format.decode_encoded (by decide) hholds ?_
    change (e - -1074).toNat + 2 < 2048
    omega
  have hbits : encodeNearest .double n.natAbs 1 < infinityBits := by
    have hshort : m < 2 ^ 53 := hholds.short
    rw [hencode]
    change (e - -1074).toNat * 2 ^ 52 + m < 2047 * 2 ^ 52
    omega
  refine ⟨m, e, ?_, heq⟩
  rw [ofInt, nearest?, if_pos hbits]
  refine value_ofBits ?_ (Format.decode_withSign (by decide) hdecode ?_ (decide (n < 0)))
  · simp only [infinityBits] at hbits
    split <;> omega
  · exact hbits.trans (by decide)

/-- A significand and an exponent stand for a natural number that is their quotient. -/
theorem magnitude_eq {k m : Nat} {e : Int} (h : k * (powerOfTwo e).2 = m * (powerOfTwo e).1) : (m * 2 ^ e : ℚ) = k := by
  have hpos : (0 : ℚ) < (powerOfTwo e).2 := by exact_mod_cast (powerOfTwo_pos e).2
  have hcast : (k : ℚ) * (powerOfTwo e).2 = m * (powerOfTwo e).1 := by exact_mod_cast h
  rw [powerOfTwo_ratio, ← mul_assoc] at hcast
  exact (mul_right_cancel₀ hpos.ne' hcast).symm

/-- The double that is an integer stands for it. -/
theorem ratio_ofInt {n : Int} {m : Nat} {e : Int} (h : n.natAbs * (powerOfTwo e).2 = m * (powerOfTwo e).1) :
    ratio (decide (n < 0)) m e = n := by
  have hmagnitude : (m * 2 ^ e : ℚ) = ((n.natAbs : Int) : ℚ) := by rw [Int.cast_natCast, magnitude_eq h]
  by_cases hneg : n < 0
  · simp only [ratio, hneg, decide_true, if_true, hmagnitude]
    rw [show (n.natAbs : Int) = -n by omega, Int.cast_neg, neg_neg]
  · simp only [ratio, hneg, decide_false, Bool.false_eq_true, if_false, hmagnitude]
    rw [show (n.natAbs : Int) = n by omega]

/-- The integer can be had back from the double. -/
theorem integer?_ofInt {n : Int} (hn : n.natAbs < 2 ^ 53) : integer? (ofInt n) = some n := by
  obtain ⟨m, e, hvalue, heq⟩ := value_ofInt hn
  have hpos := (powerOfTwo_pos e).2
  simp only [integer?, hvalue]
  rw [← heq, Nat.mul_mod_left, if_pos rfl, Nat.mul_div_cancel _ hpos]
  by_cases hneg : n < 0
  · simp only [hneg, decide_true, if_true, Option.some.injEq]
    omega
  · simp only [hneg, decide_false, Bool.false_eq_true, if_false, Option.some.injEq]
    omega

/-- No rounding is needed to make a double of the integer. -/
theorem roundInt_eq {n : Int} (hn : n.natAbs < 2 ^ 53) : roundInt n = n := by
  have hexponent : roundingExponent .double n.natAbs 1 ≤ 0 := by
    rcases Nat.eq_zero_or_pos n.natAbs with hzero | hpos
    · rw [hzero]
      decide
    · obtain ⟨m, e, hholds, hle, heq⟩ := holds_nat hn
      rw [roundingExponent_exact (by decide) hpos Nat.one_pos hholds (by rw [magnitude_eq heq, Nat.cast_one, div_one])]
      exact hle
  rw [roundInt]
  exact if_pos hexponent

section Integers

variable {a b : Int}

theorem ofInt_lt_iff (ha : a.natAbs < 2 ^ 53) (hb : b.natAbs < 2 ^ 53) : ofInt a < ofInt b ↔ a < b := by
  obtain ⟨m, e, hx, hm⟩ := value_ofInt ha
  obtain ⟨n, g, hy, hn⟩ := value_ofInt hb
  rw [lt_iff hx hy, ratio_ofInt hm, ratio_ofInt hn, Int.cast_lt]

theorem ofInt_le_iff (ha : a.natAbs < 2 ^ 53) (hb : b.natAbs < 2 ^ 53) : ofInt a ≤ ofInt b ↔ a ≤ b := by
  obtain ⟨m, e, hx, hm⟩ := value_ofInt ha
  obtain ⟨n, g, hy, hn⟩ := value_ofInt hb
  rw [le_iff hx hy, ratio_ofInt hm, ratio_ofInt hn, Int.cast_le]

theorem ofInt_beq_iff (ha : a.natAbs < 2 ^ 53) (hb : b.natAbs < 2 ^ 53) : (ofInt a == ofInt b) = true ↔ a = b := by
  obtain ⟨m, e, hx, hm⟩ := value_ofInt ha
  obtain ⟨n, g, hy, hn⟩ := value_ofInt hb
  rw [beq_iff hx hy, ratio_ofInt hm, ratio_ofInt hn, Int.cast_inj]

end Integers

end Tenure.Double
