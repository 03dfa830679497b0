import Mathlib
import Tenure.Proofs.Double.Rounding

/-!
# Encodings of floating point numbers

What an encoding says about the number it stands for, for every format: `Format.decode_finite`. A double is determined
by its encoding, so a double is what its value stands for (`ofValue_value`), and a finite double can be had back from
any encoding of the same number in another format (`ofValue_of_eq`). Only the zeros compare equal to zero.
-/

set_option autoImplicit false

namespace Tenure.Double

/-! ## Parts of an encoding -/

namespace Format

variable {f : Format} {k bits m : Nat} {e : Int} {negative : Bool}

/-- What an encoding of a finite number says: a number that the format holds, encoded by its significand and exponent
below the sign, and not past the largest finite number. -/
theorem decode_finite (hp : 0 < f.precision) (h : f.decode k bits = .finite negative m e) :
    f.Holds m e ∧ bits % 2 ^ (f.precision - 1 + k) = (e - f.leastExponent).toNat * 2 ^ (f.precision - 1) + m ∧
      bits % 2 ^ (f.precision - 1 + k) < (2 ^ k - 1) * 2 ^ (f.precision - 1) ∧
      negative = decide (bits / 2 ^ (f.precision - 1 + k) = 1) := by
  have hprecision : 2 ^ f.precision = 2 ^ (f.precision - 1) * 2 := by
    rw [← pow_succ, Nat.sub_add_cancel hp]
  have hpos : 0 < 2 ^ (f.precision - 1) := Nat.two_pow_pos _
  have hfraction : bits % 2 ^ (f.precision - 1) < 2 ^ (f.precision - 1) := Nat.mod_lt _ hpos
  have hexponent : bits / 2 ^ (f.precision - 1) % 2 ^ k < 2 ^ k := Nat.mod_lt _ (Nat.two_pow_pos k)
  have hbits : bits % 2 ^ (f.precision - 1 + k) =
      bits / 2 ^ (f.precision - 1) % 2 ^ k * 2 ^ (f.precision - 1) + bits % 2 ^ (f.precision - 1) := by
    rw [pow_add, Nat.mod_mul, mul_comm, add_comm]
  simp only [decode, Nat.pow_eq] at h
  generalize bits % 2 ^ (f.precision - 1) = fraction at *
  generalize bits / 2 ^ (f.precision - 1) % 2 ^ k = exponent at *
  have hfinite (hlt : exponent + 1 < 2 ^ k) :
      exponent * 2 ^ (f.precision - 1) + fraction < (2 ^ k - 1) * 2 ^ (f.precision - 1) :=
    calc exponent * 2 ^ (f.precision - 1) + fraction < (exponent + 1) * 2 ^ (f.precision - 1) := by
          rw [Nat.add_mul]
          omega
      _ ≤ (2 ^ k - 1) * 2 ^ (f.precision - 1) := Nat.mul_le_mul_right _ (by omega)
  split at h
  next => split at h <;> cases h
  next hones =>
    rw [hbits]
    split at h
    next hzero =>
      cases h
      subst hzero
      exact ⟨⟨by omega, le_rfl, .inr rfl⟩, by simp, hfinite (by omega), rfl⟩
    next hzero =>
      cases h
      refine ⟨⟨by omega, by omega, .inl (by omega)⟩, ?_, hfinite (by omega), rfl⟩
      obtain ⟨n, rfl⟩ : ∃ n, exponent = n + 1 := ⟨exponent - 1, by omega⟩
      rw [show (f.leastExponent + ((n + 1 : Nat) : Int) - 1 - f.leastExponent).toNat = n by omega, Nat.add_mul]
      omega

/-- What an encoding of an infinity says. -/
theorem decode_infinite (h : f.decode k bits = .infinite negative) :
    bits % 2 ^ (f.precision - 1 + k) = (2 ^ k - 1) * 2 ^ (f.precision - 1) ∧
      negative = decide (bits / 2 ^ (f.precision - 1 + k) = 1) := by
  simp only [decode, Nat.pow_eq] at h
  split at h
  next hones =>
    split at h
    next hzero =>
      cases h
      exact ⟨by rw [pow_add, Nat.mod_mul, hones, hzero, Nat.zero_add, mul_comm], rfl⟩
    next => cases h
  next => split at h <;> cases h

/-- What an encoding of no number says. -/
theorem decode_nan (h : f.decode k bits = .nan) :
    bits / 2 ^ (f.precision - 1) % 2 ^ k = 2 ^ k - 1 ∧ bits % 2 ^ (f.precision - 1) ≠ 0 := by
  simp only [decode, Nat.pow_eq] at h
  split at h
  next hones =>
    split at h
    · cases h
    next hfraction => exact ⟨hones, hfraction⟩
  next => split at h <;> cases h

/-- Setting the sign of an encoding of a finite number changes its sign only. -/
theorem decode_withSign (hp : 0 < f.precision) (h : f.decode k bits = .finite negative m e)
    (hbits : bits < 2 ^ (f.precision - 1 + k)) (sign : Bool) :
    f.decode k (bits + if sign then 2 ^ (f.precision - 1 + k) else 0) = .finite sign m e := by
  cases sign with
  | false =>
    obtain ⟨-, -, -, rfl⟩ := decode_finite hp h
    simpa [Nat.div_eq_of_lt hbits] using h
  | true =>
    have hfraction : (bits + 2 ^ (f.precision - 1 + k)) % 2 ^ (f.precision - 1) = bits % 2 ^ (f.precision - 1) := by
      rw [pow_add, Nat.add_mul_mod_self_left]
    have hexponent : (bits + 2 ^ (f.precision - 1 + k)) / 2 ^ (f.precision - 1) % 2 ^ k =
        bits / 2 ^ (f.precision - 1) % 2 ^ k := by
      rw [pow_add, Nat.add_mul_div_left _ _ (Nat.two_pow_pos _), Nat.add_mod_right]
    have hsign : (bits + 2 ^ (f.precision - 1 + k)) / 2 ^ (f.precision - 1 + k) = 1 := by
      rw [Nat.add_div_right _ (Nat.two_pow_pos _), Nat.div_eq_of_lt hbits]
    simp only [decode, Nat.pow_eq, if_true, hfraction, hexponent, hsign] at h ⊢
    split at h
    next => split at h <;> cases h
    next hones =>
      rw [if_neg hones]
      split at h
      all_goals
        next hzero =>
          cases h
          simp [hzero]

/-- The encoding of a number in a narrower format, if there is one, stands for that number. -/
theorem decode_of_exact {num : Nat} {g : Int} (hp : 0 < f.precision) (h : f.exact? k negative num g = some bits) :
    bits < 2 * 2 ^ (f.precision - 1 + k) ∧ ∃ m e, f.decode k bits = .finite negative m e ∧
      num * (powerOfTwo g).1 * (powerOfTwo e).2 = m * (powerOfTwo e).1 * (powerOfTwo g).2 := by
  unfold Format.exact? at h
  simp only at h
  split at h
  next sign m e hdecode =>
    split at h
    next heq =>
      obtain rfl := Option.some.inj h
      obtain ⟨hholds, hmod, -, -⟩ := decode_finite hp hdecode
      have hexact := encodeNearest_exact hp (powerOfTwo_pos g).2 hholds heq
      have hbits : encodeNearest f (num * (powerOfTwo g).1) (powerOfTwo g).2 < 2 ^ (f.precision - 1 + k) := by
        rw [hexact, ← hmod]
        exact Nat.mod_lt _ (Nat.two_pow_pos _)
      refine ⟨?_, m, e, decode_withSign hp hdecode hbits negative, heq⟩
      simp only [Nat.pow_eq]
      split <;> omega
    next => cases h
  next => cases h

end Format

/-! ## Encodings of doubles -/

section Bits

open Float.Model.UnpackedFloat

/-- The exponent of an encoding as a number. -/
theorem toNat_unpackExponent (b : BitVec 64) : (@unpackExponent .binary64 b).toNat = b.toNat / 2 ^ 52 % 2 ^ 11 := by
  simp [unpackExponent, BitVec.extractLsb, Nat.shiftRight_eq_div_pow]

/-- The fraction of an encoding as a number. -/
theorem toNat_unpackMantissa (b : BitVec 64) : (@unpackMantissa .binary64 b).toNat = b.toNat % 2 ^ 52 := by
  simp [unpackMantissa, BitVec.extractLsb]

/-- There is one double that is not a number. -/
theorem eq_nan_of_value {x : Float} (h : value x = .nan) : x = nan := by
  have hvalid := x.toModel.valid
  obtain ⟨hones, hfraction⟩ := Format.decode_nan h
  have hbits : x.toBits.toBitVec = packedNaN .binary64 := by
    refine hvalid.eq_packedNaN (BitVec.eq_of_toNat_eq ?_) fun hzero => ?_
    · rw [toNat_unpackExponent]
      exact hones
    · have htoNat := toNat_unpackMantissa x.toBits.toBitVec
      rw [show @unpackMantissa .binary64 x.toBits.toBitVec = 0#52 from hzero] at htoNat
      exact hfraction htoNat.symm
  rw [← Float.ofBits_toBits x, nan]
  congr 1
  exact UInt64.toBitVec_inj.mp hbits

/-- The zero that a literal writes is the positive one. -/
theorem zero_eq : (0 : Float) = zero false := by decide

/-- Only the zeros compare equal to zero. -/
theorem beq_zero_iff (x : Float) : (x == 0) = true ↔ x = zero false ∨ x = zero true := by
  have hnegative : (-0 : Float) = zero true := by decide
  rw [Float.beq_iff_ne_nan_and_eq, hnegative, zero_eq]
  constructor
  · rintro ⟨-, -, hx | ⟨hx, -⟩ | ⟨hx, -⟩⟩
    · exact .inl hx
    · exact .inl hx
    · exact .inr hx
  · rintro (rfl | rfl)
    · exact ⟨by decide, by decide, .inl rfl⟩
    · exact ⟨by decide, by decide, .inr (.inr ⟨rfl, rfl⟩)⟩

end Bits

/-! ## Doubles and their values -/

/-- The encoding of a double from its sign and what is below it. -/
theorem ofBits_parts {x : Float} {below : Nat} {negative : Bool} (hbelow : x.toBits.toNat % 2 ^ 63 = below)
    (hsign : negative = decide (x.toBits.toNat / 2 ^ 63 = 1)) :
    Float.ofBits (below + if negative then 0x8000000000000000 else 0).toUInt64 = x := by
  have hlt : x.toBits.toNat < 2 ^ 64 := x.toBits.toNat_lt
  have hbits : (below + if negative then 0x8000000000000000 else 0) = x.toBits.toNat := by
    by_cases hone : x.toBits.toNat / 2 ^ 63 = 1
    · simp only [hsign, hone, decide_true, if_true]
      omega
    · simp only [hsign, hone, decide_false, Bool.false_eq_true, if_false]
      omega
  rw [hbits, Nat.toUInt64_eq, UInt64.ofNat_toNat, Float.ofBits_toBits]

/-- A quotient that is encoded by the significand and exponent of a double rounds to that double. -/
theorem nearest?_of_encoded {x : Float} {negative : Bool} {num den m : Nat} {e : Int} (h : value x = .finite negative m e)
    (hencoded : encodeNearest .double num den = (e - Format.double.leastExponent).toNat * 2 ^ 52 + m) :
    nearest? negative num den = some x := by
  obtain ⟨-, hbits, hfinite, hsign⟩ := Format.decode_finite (by decide) h
  have hlt : encodeNearest .double num den < infinityBits := by
    rw [hencoded]
    exact hbits ▸ hfinite
  simp only [nearest?, hlt, if_true]
  exact congrArg some (ofBits_parts (hbits.trans hencoded.symm) hsign)

/-- A double is what any encoding of the same finite number stands for. -/
theorem ofValue_of_eq {x : Float} {negative : Bool} {m n : Nat} {e g : Int} (h : value x = .finite negative m e)
    (heq : m * (powerOfTwo e).1 * (powerOfTwo g).2 = n * (powerOfTwo g).1 * (powerOfTwo e).2) :
    ofValue (.finite negative n g) = x := by
  obtain ⟨hholds, -, -, -⟩ := Format.decode_finite (by decide) h
  have hexact := encodeNearest_exact (f := .double) (by decide) (powerOfTwo_pos g).2 hholds heq.symm
  simp only [ofValue, nearest?_of_encoded h hexact]

/-- A double is what its value stands for. -/
theorem ofValue_value (x : Float) : ofValue (value x) = x := by
  cases h : value x with
  | nan => exact (eq_nan_of_value h).symm
  | infinite negative =>
    obtain ⟨hbits, hsign⟩ := Format.decode_infinite h
    exact ofBits_parts hbits hsign
  | finite negative m e => exact ofValue_of_eq h rfl

/-! ## Doubles that a quotient is nearest to -/

/-- A quotient that is nearest to a double of its sign rounds to that double. -/
theorem nearest?_of_nearest {x : Float} {negative : Bool} {num den m : Nat} {q : Int} (hx : value x = .finite negative m q) (hm : 0 < m)
    (hden : 0 < den) (h : Format.double.Nearest m q (num / den)) : nearest? negative num den = some x := by
  obtain ⟨hholds, -, -, -⟩ := Format.decode_finite (by decide) hx
  exact nearest?_of_encoded hx (encodeNearest_of_nearest (by decide) hden hm hholds h)

/-- What is nearest to a positive double lies in the range of the doubles, with half a unit to spare at the lower end. -/
theorem nearest_range {x : Float} {negative : Bool} {m : Nat} {q : Int} (hx : value x = .finite negative m q) (hm : 0 < m) {v : ℚ}
    (h : Format.double.Nearest m q v) : (2 : ℚ) ^ (-1075 : Int) ≤ v ∧ v < 2 ^ (1024 : Int) := by
  obtain ⟨hholds, hbits, hfinite, -⟩ := Format.decode_finite (by decide) hx
  have hone : (1 : ℚ) ≤ m := by exact_mod_cast hm
  have hshort : (m + 1 : ℚ) ≤ 2 ^ (53 : Int) := by exact_mod_cast hholds.short
  have hleast : -1074 ≤ q := hholds.least
  have hgreatest : q ≤ 971 := by
    rw [hbits] at hfinite
    simp only [Format.double] at hfinite
    have hnormal : 2 ^ 52 ≤ m ∨ q = -1074 := hholds.normal
    omega
  constructor
  · calc (2 : ℚ) ^ (-1075 : Int) = (1 - 1 / 2) * 2 ^ (-1074 : Int) := by
          rw [show (-1075 : Int) = -1074 - 1 by norm_num, zpow_sub_one₀ two_ne_zero]
          ring
      _ ≤ (m - 1 / 2) * 2 ^ q := by
        gcongr
        · linarith
        · norm_num
      _ ≤ Format.double.lowerMidpoint m q := Format.half_le_lowerMidpoint ..
      _ ≤ v := h.low
  · calc v ≤ (m + 1 / 2) * 2 ^ q := h.high
      _ < (m + 1) * 2 ^ q := by
        gcongr
        norm_num
      _ ≤ 2 ^ (53 : Int) * 2 ^ (971 : Int) := by
        gcongr
        norm_num
      _ = 2 ^ (1024 : Int) := by rw [← zpow_add₀ two_ne_zero]; norm_num

end Tenure.Double
