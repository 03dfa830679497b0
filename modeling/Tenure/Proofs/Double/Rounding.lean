import Mathlib.Algebra.Order.Field.Basic
import Mathlib.Algebra.Order.Field.Power
import Mathlib.Algebra.Order.Field.Rat
import Mathlib.Tactic.Linarith
import Mathlib.Tactic.Ring
import Tenure.Double.Basic

/-!
# Rounding to the nearest number of a format

A format holds a number exactly if its significand fits the precision and is short only at the least exponent. Such a
number is what every quotient between its two midpoints rounds to, `encodeNearest_of_nearest`; a midpoint itself belongs
to the neighbour with the even significand. So a quotient that needs no rounding is encoded as itself,
`encodeNearest_exact`.

The exponent at which a quotient is rounded is pinned down by two powers of two around the quotient, so the argument is
about rational numbers. The midpoint below a power of two lies at a quarter of the spacing above it, since the spacing is
halved there. A quotient next to it can be rounded at the next smaller exponent, and what then comes out is a significand
one too large for the precision, whose encoding is that of the power of two.
-/

set_option autoImplicit false

namespace Tenure.Double

/-- The quotient that stands for a power of two has its value. -/
theorem powerOfTwo_ratio (e : Int) : ((powerOfTwo e).1 : ℚ) = (2 : ℚ) ^ e * (powerOfTwo e).2 := by
  obtain ⟨n, rfl | rfl⟩ := e.eq_nat_or_neg
  · simp [powerOfTwo]
  · simp [powerOfTwo]

theorem powerOfTwo_pos (e : Int) : 0 < (powerOfTwo e).1 ∧ 0 < (powerOfTwo e).2 :=
  ⟨Nat.two_pow_pos _, Nat.two_pow_pos _⟩

/-- A quotient cut to whole units of a power of two is below a bound exactly if the quotient is. -/
theorem quotient_lt_iff {num den bound : Nat} (hden : 0 < den) (e : Int) :
    num * (powerOfTwo e).2 / (den * (powerOfTwo e).1) < bound ↔ (num / den : ℚ) < bound * (2 : ℚ) ^ e := by
  obtain ⟨hup, hdown⟩ := powerOfTwo_pos e
  have hden' : (0 : ℚ) < den := by exact_mod_cast hden
  have hdown' : (0 : ℚ) < (powerOfTwo e).2 := by exact_mod_cast hdown
  rw [Nat.div_lt_iff_lt_mul (Nat.mul_pos hden hup), div_lt_iff₀ hden', ← Nat.cast_lt (α := ℚ)]
  push_cast
  rw [powerOfTwo_ratio, show (bound : ℚ) * (den * ((2 : ℚ) ^ e * (powerOfTwo e).2)) =
    bound * (2 : ℚ) ^ e * den * (powerOfTwo e).2 by ring]
  exact mul_lt_mul_iff_left₀ hdown'

/-- A quotient of positive numbers lies between the powers of two that their lengths give. -/
theorem quotient_bounds {num den : Nat} (hnum : 0 < num) (hden : 0 < den) :
    (2 : ℚ) ^ ((num.log2 : Int) - den.log2 - 1) < num / den ∧
      (num / den : ℚ) < 2 ^ ((num.log2 : Int) - den.log2 + 1) := by
  have hden' : (0 : ℚ) < den := by exact_mod_cast hden
  have hnumlow : (2 : ℚ) ^ (num.log2 : Int) ≤ num := by exact_mod_cast Nat.log2_self_le hnum.ne'
  have hnumhigh : (num : ℚ) < 2 ^ ((num.log2 : Int) + 1) := by exact_mod_cast Nat.lt_log2_self
  have hdenlow : (2 : ℚ) ^ (den.log2 : Int) ≤ den := by exact_mod_cast Nat.log2_self_le hden.ne'
  have hdenhigh : (den : ℚ) < 2 ^ ((den.log2 : Int) + 1) := by exact_mod_cast Nat.lt_log2_self
  constructor
  · rw [lt_div_iff₀ hden']
    calc (2 : ℚ) ^ ((num.log2 : Int) - den.log2 - 1) * den
        < 2 ^ ((num.log2 : Int) - den.log2 - 1) * 2 ^ ((den.log2 : Int) + 1) := by gcongr
      _ = 2 ^ (num.log2 : Int) := by rw [← zpow_add₀ two_ne_zero]; congr 1; ring
      _ ≤ num := hnumlow
  · rw [div_lt_iff₀ hden']
    calc (num : ℚ) < 2 ^ ((num.log2 : Int) + 1) := hnumhigh
      _ = 2 ^ ((num.log2 : Int) - den.log2 + 1) * 2 ^ (den.log2 : Int) := by
        rw [← zpow_add₀ two_ne_zero]; congr 1; ring
      _ ≤ 2 ^ ((num.log2 : Int) - den.log2 + 1) * den := by gcongr

/-- A positive quotient is rounded at the exponent that gives its significand the full precision, or at the least one
of the format. -/
theorem roundingExponent_eq (f : Format) {num den : Nat} (hnum : 0 < num) (hden : 0 < den) :
    ∃ k : Int, roundingExponent f num den = max k f.leastExponent ∧
      (2 : ℚ) ^ (k + f.precision - 1) ≤ num / den ∧ (num / den : ℚ) < 2 ^ (k + f.precision) := by
  obtain ⟨hlow, hhigh⟩ := quotient_bounds hnum hden
  simp only [roundingExponent]
  set guess : Int := (num.log2 : Int) - den.log2 - f.precision with hguess
  have hiff : num * (powerOfTwo guess).2 / (den * (powerOfTwo guess).1) < Nat.pow 2 f.precision ↔ _ :=
    quotient_lt_iff hden guess
  have hbound : ((Nat.pow 2 f.precision : Nat) : ℚ) * 2 ^ guess = 2 ^ (guess + f.precision) := by
    rw [zpow_add₀ two_ne_zero, mul_comm]
    simp
  rw [hbound] at hiff
  split
  next hlt =>
    refine ⟨guess, rfl, ?_, hiff.mp hlt⟩
    rw [show guess + f.precision - 1 = (num.log2 : Int) - den.log2 - 1 by omega]
    exact hlow.le
  next hle =>
    refine ⟨guess + 1, rfl, ?_, ?_⟩
    · rw [show guess + 1 + f.precision - 1 = guess + f.precision by ring]
      exact not_lt.mp (mt hiff.mpr hle)
    · rw [show guess + 1 + f.precision = (num.log2 : Int) - den.log2 + 1 by omega]
      exact hhigh

/-- What a format holds exactly: significands inside the precision, which are short only at the least exponent. -/
structure Format.Holds (f : Format) (m : Nat) (e : Int) : Prop where
  short : m < 2 ^ f.precision
  least : f.leastExponent ≤ e
  normal : 2 ^ (f.precision - 1) ≤ m ∨ e = f.leastExponent

variable {f : Format} {num den m : Nat} {q : Int}

/-! ## Quotients -/

/-- A quotient within a half of a natural number rounds to it; a half rounds to the even number. -/
theorem roundQuotient_eq (hden : 0 < den) (hlow : (m : ℚ) - 1 / 2 ≤ num / den) (hhigh : (num / den : ℚ) ≤ m + 1 / 2)
    (htie : (num / den : ℚ) = m - 1 / 2 ∨ (num / den : ℚ) = m + 1 / 2 → m % 2 = 0) : roundQuotient num den = m := by
  have hden' : (0 : ℚ) < den := by exact_mod_cast hden
  have hlow' : 2 * (m * den) ≤ 2 * num + den := by
    rw [le_div_iff₀ hden'] at hlow
    have hcast : (2 * (m * den) : ℚ) ≤ 2 * num + den := by linarith
    exact_mod_cast hcast
  have hhigh' : 2 * num ≤ 2 * (m * den) + den := by
    rw [div_le_iff₀ hden'] at hhigh
    have hcast : (2 * num : ℚ) ≤ 2 * (m * den) + den := by linarith
    exact_mod_cast hcast
  have htie' : 2 * (m * den) = 2 * num + den ∨ 2 * num = 2 * (m * den) + den → m % 2 = 0 := by
    intro h
    apply htie
    rw [div_eq_iff hden'.ne', div_eq_iff hden'.ne']
    refine h.imp (fun h => ?_) fun h => ?_
    all_goals
      have hcast := congrArg (Nat.cast (R := ℚ)) h
      push_cast at hcast
      linarith
  have hnum := Nat.div_add_mod num den
  have hrest := Nat.mod_lt num hden
  rw [mul_comm] at hnum
  simp only [roundQuotient]
  generalize num / den = a at *
  generalize num % den = r at *
  have hle : a ≤ m := by
    by_contra hlt
    have hmul : (m + 1) * den ≤ a * den := Nat.mul_le_mul_right den (by omega)
    rw [Nat.add_mul] at hmul
    omega
  have hge : m ≤ a + 1 := by
    by_contra hlt
    have hmul : (a + 2) * den ≤ m * den := Nat.mul_le_mul_right den (by omega)
    rw [Nat.add_mul] at hmul
    omega
  rcases Nat.eq_or_lt_of_le hle with rfl | hlt
  · -- the quotient is not below the number, so no more than a half is cut off
    have heven : 2 * r = den → a % 2 = 0 := fun h => htie' (.inr (by omega))
    split_ifs with h₁ h₂ <;> omega
  · obtain rfl : m = a + 1 := by omega
    rw [Nat.add_mul] at hlow' htie'
    have heven : 2 * r = den → (a + 1) % 2 = 0 := fun h => htie' (.inl (by omega))
    split_ifs with h₁ h₂ <;> omega

/-- A quotient rounds to one of its two neighbours. -/
theorem roundQuotient_cases (num den : Nat) :
    roundQuotient num den = num / den ∨ roundQuotient num den = num / den + 1 := by
  simp only [roundQuotient]
  split_ifs <;> omega

/-- A quotient in units of a number that is itself a quotient. -/
theorem ratio_scaled {up down : Nat} {unit : ℚ} (hdown : 0 < down) (hup : (up : ℚ) = unit * down) (num den : Nat) :
    ((num * down : Nat) / (den * up : Nat) : ℚ) = num / den / unit := by
  have hdown' : (down : ℚ) ≠ 0 := by exact_mod_cast hdown.ne'
  push_cast
  rw [hup, ← mul_assoc, mul_div_mul_right _ _ hdown', div_div]

theorem ratio_units (num den : Nat) (e : Int) :
    ((num * (powerOfTwo e).2 : Nat) / (den * (powerOfTwo e).1 : Nat) : ℚ) = num / den / 2 ^ e :=
  ratio_scaled (powerOfTwo_pos e).2 (powerOfTwo_ratio e) num den

/-! ## Midpoints -/

/-- The midpoint of a number of a format and the next smaller one. -/
def Format.lowerMidpoint (f : Format) (m : Nat) (q : Int) : ℚ :=
  if m = 2 ^ (f.precision - 1) ∧ f.leastExponent < q then (m - 1 / 4) * 2 ^ q else (m - 1 / 2) * 2 ^ q

/-- The midpoint of a number and the next larger one. -/
def upperMidpoint (m : Nat) (q : Int) : ℚ := (m + 1 / 2) * 2 ^ q

/-- A rational number is nearest to a number of a format: it lies between the two midpoints, and on one only if the
significand is even. -/
structure Format.Nearest (f : Format) (m : Nat) (q : Int) (x : ℚ) : Prop where
  low : f.lowerMidpoint m q ≤ x
  high : x ≤ upperMidpoint m q
  tie : x = f.lowerMidpoint m q ∨ x = upperMidpoint m q → m % 2 = 0

namespace Format

/-- What lies strictly between the two midpoints is nearest. -/
theorem Nearest.of_between {x : ℚ} (hlow : f.lowerMidpoint m q < x) (hhigh : x < upperMidpoint m q) :
    f.Nearest m q x :=
  ⟨hlow.le, hhigh.le, fun h => (h.elim hlow.ne' hhigh.ne).elim⟩

theorem half_le_lowerMidpoint (f : Format) (m : Nat) (q : Int) : ((m : ℚ) - 1 / 2) * 2 ^ q ≤ f.lowerMidpoint m q := by
  rw [lowerMidpoint]
  split
  · gcongr
    norm_num
  · exact le_rfl

theorem lowerMidpoint_pos (f : Format) (hm : 0 < m) (q : Int) : 0 < f.lowerMidpoint m q := by
  have hpos : (0 : ℚ) < 2 ^ q := by positivity
  have hone : (1 : ℚ) ≤ m := by exact_mod_cast hm
  calc (0 : ℚ) < (m - 1 / 2) * 2 ^ q := mul_pos (by linarith) hpos
    _ ≤ f.lowerMidpoint m q := f.half_le_lowerMidpoint m q

/-- In units of its own exponent, what is nearest to a number is within a half of its significand. -/
theorem Nearest.units {x : ℚ} (h : f.Nearest m q x) :
    (m : ℚ) - 1 / 2 ≤ x / 2 ^ q ∧ x / 2 ^ q ≤ m + 1 / 2 ∧
      (x / 2 ^ q = m - 1 / 2 ∨ x / 2 ^ q = m + 1 / 2 → m % 2 = 0) := by
  have hpos : (0 : ℚ) < 2 ^ q := by positivity
  have hlow := (f.half_le_lowerMidpoint m q).trans h.low
  rw [le_div_iff₀ hpos, div_le_iff₀ hpos, div_eq_iff hpos.ne', div_eq_iff hpos.ne']
  refine ⟨hlow, h.high, ?_⟩
  rintro (htie | htie)
  · exact h.tie (.inl (le_antisymm (htie ▸ f.half_le_lowerMidpoint m q) h.low))
  · exact h.tie (.inr htie)

/-- What is nearest to a number is rounded at the exponent of the number, or it lies below a power of two and is rounded
at the next smaller exponent. -/
theorem Nearest.roundingExponent_cases (hp : 0 < f.precision) (hnum : 0 < num) (hden : 0 < den) (hf : f.Holds m q)
    (h : f.Nearest m q (num / den)) :
    roundingExponent f num den = q ∨
      roundingExponent f num den = q - 1 ∧ f.leastExponent < q ∧ m = 2 ^ (f.precision - 1) ∧
        (num / den : ℚ) < 2 ^ (q - 1 + f.precision) := by
  obtain ⟨k, hk, hlow, hhigh⟩ := roundingExponent_eq f hnum hden
  have hmono {a b : Int} (h : (2 : ℚ) ^ a < 2 ^ b) : a < b := (zpow_lt_zpow_iff_right₀ one_lt_two).mp h
  have hpower : ((2 ^ (f.precision - 1) : Nat) : ℚ) = 2 ^ ((f.precision : Int) - 1) := by
    rw [show (f.precision : Int) - 1 = ((f.precision - 1 : Nat) : Int) by omega]
    simp
  have hle : k ≤ q := by
    have hshort : (m + 1 : ℚ) ≤ 2 ^ (f.precision : Int) := by exact_mod_cast hf.short
    have hlt := hmono <|
      calc (2 : ℚ) ^ (k + f.precision - 1) ≤ num / den := hlow
        _ ≤ (m + 1 / 2) * 2 ^ q := h.high
        _ < (m + 1) * 2 ^ q := by gcongr; norm_num
        _ ≤ 2 ^ (f.precision : Int) * 2 ^ q := by gcongr
        _ = 2 ^ (q + f.precision) := by rw [← zpow_add₀ two_ne_zero, add_comm]
    omega
  by_cases heq : max k f.leastExponent = q
  · exact .inl (hk.trans heq)
  have hleast := hf.least
  have hlong : 2 ^ (f.precision - 1) ≤ m := hf.normal.resolve_right (by omega)
  have hm : m = 2 ^ (f.precision - 1) := by
    by_contra hne
    -- a larger significand leaves no room for a smaller exponent
    have hmore : (2 : ℚ) ^ ((f.precision : Int) - 1) ≤ m - 1 / 2 := by
      have hcast : ((2 ^ (f.precision - 1) + 1 : Nat) : ℚ) ≤ m := by
        exact_mod_cast Nat.lt_of_le_of_ne hlong (Ne.symm hne)
      rw [Nat.cast_add_one, hpower] at hcast
      linarith
    have hlt := hmono <|
      calc (2 : ℚ) ^ ((f.precision : Int) - 1 + q) = 2 ^ ((f.precision : Int) - 1) * 2 ^ q := zpow_add₀ two_ne_zero _ _
        _ ≤ (m - 1 / 2) * 2 ^ q := by gcongr
        _ ≤ num / den := (f.half_le_lowerMidpoint m q).trans h.low
        _ < 2 ^ (k + f.precision) := hhigh
    omega
  have hlt := hmono <|
    calc (2 : ℚ) ^ ((f.precision : Int) - 1 + (q - 1)) = m * 2 ^ (q - 1) := by
          rw [hm, hpower, zpow_add₀ two_ne_zero]
      _ = m / 2 * 2 ^ q := by rw [zpow_sub_one₀ two_ne_zero]; ring
      _ ≤ (m - 1 / 2) * 2 ^ q := by
        have hone : (1 : ℚ) ≤ m := by exact_mod_cast (Nat.two_pow_pos _).trans_le hlong
        gcongr
        linarith
      _ ≤ num / den := (f.half_le_lowerMidpoint m q).trans h.low
      _ < 2 ^ (k + f.precision) := hhigh
  obtain rfl : k = q - 1 := by omega
  exact .inr ⟨hk.trans (by omega), by omega, hm, hhigh⟩

end Format

/-- A quotient that is nearest to a positive number of a format is encoded as that number. -/
theorem encodeNearest_of_nearest (hp : 0 < f.precision) (hden : 0 < den) (hm : 0 < m) (hf : f.Holds m q)
    (h : f.Nearest m q (num / den)) :
    encodeNearest f num den = (q - f.leastExponent).toNat * 2 ^ (f.precision - 1) + m := by
  have hden' : (0 : ℚ) < den := by exact_mod_cast hden
  have hnum : 0 < num := by
    have hpos : (0 : ℚ) < num / den := (f.lowerMidpoint_pos hm q).trans_le h.low
    exact_mod_cast (div_pos_iff_of_pos_right hden').mp hpos
  have hunits (e : Int) : 0 < den * (powerOfTwo e).1 := Nat.mul_pos hden (powerOfTwo_pos e).1
  simp only [encodeNearest, hnum.ne', if_false, Nat.pow_eq]
  rcases h.roundingExponent_cases hp hnum hden hf with he | ⟨he, hleast, hpower, hbelow⟩
  · obtain ⟨hlow, hhigh, htie⟩ := h.units
    have hquotient : roundQuotient (num * (powerOfTwo q).2) (den * (powerOfTwo q).1) = m := by
      apply roundQuotient_eq (hunits q)
      all_goals rwa [ratio_units]
    rw [he, hquotient]
  · have hpos : (0 : ℚ) < 2 ^ (q - 1) := by positivity
    have htwo : (2 : ℚ) ^ q = 2 ^ (q - 1) * 2 := by rw [← zpow_add_one₀ two_ne_zero, sub_add_cancel]
    have hlow : ((2 * m : Nat) : ℚ) - 1 / 2 ≤ num / den / 2 ^ (q - 1) := by
      have hmidpoint := h.low
      rw [Format.lowerMidpoint, if_pos ⟨hpower, hleast⟩, htwo] at hmidpoint
      rw [le_div_iff₀ hpos]
      push_cast
      linarith
    have hhigh : (num / den / 2 ^ (q - 1) : ℚ) < (2 * m : Nat) := by
      have hdouble : ((2 * m : Nat) : ℚ) * 2 ^ (q - 1) = 2 ^ (q - 1 + f.precision) := by
        rw [hpower, ← pow_succ', Nat.sub_add_cancel hp, zpow_add₀ two_ne_zero, mul_comm]
        simp
      rwa [div_lt_iff₀ hpos, hdouble]
    have hquotient : roundQuotient (num * (powerOfTwo (q - 1)).2) (den * (powerOfTwo (q - 1)).1) = 2 * m := by
      apply roundQuotient_eq (hunits (q - 1))
      · rwa [ratio_units]
      · rw [ratio_units]
        linarith
      · intro _
        omega
    have hexponent : (q - f.leastExponent).toNat = (q - 1 - f.leastExponent).toNat + 1 := by omega
    rw [he, hquotient, hexponent, Nat.add_mul, ← hpower]
    omega

/-! ## Exact quotients -/

/-- A number of a format is nearest to itself. -/
theorem Format.Nearest.refl (f : Format) (m : Nat) (q : Int) : f.Nearest m q (m * 2 ^ q) := by
  have hpos : (0 : ℚ) < 2 ^ q := by positivity
  apply Format.Nearest.of_between
  · rw [Format.lowerMidpoint]
    split_ifs <;> linarith
  · rw [upperMidpoint]
    linarith

/-- A number that a format holds is rounded at its own exponent. -/
theorem roundingExponent_exact (hp : 0 < f.precision) (hnum : 0 < num) (hden : 0 < den) (hf : f.Holds m q)
    (hvalue : (num / den : ℚ) = m * 2 ^ q) : roundingExponent f num den = q := by
  have hnearest : f.Nearest m q (num / den) := by
    rw [hvalue]
    exact .refl f m q
  rcases hnearest.roundingExponent_cases hp hnum hden hf with hexponent | ⟨-, -, hpower, hbelow⟩
  · exact hexponent
  · -- a power of two is not below itself
    have hself : (num / den : ℚ) = 2 ^ (q - 1 + f.precision) := by
      rw [hvalue, hpower, show q - 1 + f.precision = ((f.precision - 1 : Nat) : Int) + q by omega,
        zpow_add₀ two_ne_zero]
      simp
    exact absurd hbelow hself.not_lt

/-- A quotient that a format holds is encoded by its significand and exponent. -/
theorem encodeNearest_exact {f : Format} {num den m : Nat} {e : Int} (hp : 0 < f.precision) (hden : 0 < den)
    (hf : f.Holds m e) (heq : num * (powerOfTwo e).2 = m * (powerOfTwo e).1 * den) :
    encodeNearest f num den = (e - f.leastExponent).toNat * 2 ^ (f.precision - 1) + m := by
  obtain ⟨-, hdown⟩ := powerOfTwo_pos e
  rcases Nat.eq_zero_or_pos m with rfl | hm
  · have hnum : num = 0 := by
      rw [Nat.zero_mul, Nat.zero_mul] at heq
      exact (Nat.mul_eq_zero.mp heq).resolve_right hdown.ne'
    have he : e = f.leastExponent := hf.normal.resolve_left (by simp)
    simp [encodeNearest, hnum, he]
  · have hden' : (den : ℚ) ≠ 0 := by exact_mod_cast hden.ne'
    have hdown' : ((powerOfTwo e).2 : ℚ) ≠ 0 := by exact_mod_cast hdown.ne'
    have hvalue : (num / den : ℚ) = m * 2 ^ e := by
      have heq' : (num * (powerOfTwo e).2 : ℚ) = m * (powerOfTwo e).1 * den := by exact_mod_cast heq
      rw [powerOfTwo_ratio] at heq'
      rw [div_eq_iff hden']
      exact mul_right_cancel₀ hdown' (by linarith)
    apply encodeNearest_of_nearest hp hden hm hf
    rw [hvalue]
    exact .refl f m e

end Tenure.Double
