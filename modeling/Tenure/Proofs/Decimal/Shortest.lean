import Tenure.Decimal.Shortest
import Tenure.Proofs.Double.Encoding

/-!
# Shortest decimals are near enough

The decimal that is chosen for a positive number of a format is nearest to that number, `shortest_nearest`, so it reads
back. Every candidate is tested before it is chosen, so what there is to show is that one of the candidates passes. With
seventeen digits one does: the decimals next to the number are then so dense that one of the two is nearer to it than
either of its midpoints is.
-/

set_option autoImplicit false

namespace Tenure.Decimal

open Tenure.Double (Format powerOfTwo_ratio powerOfTwo_pos ratio_scaled roundQuotient_cases upperMidpoint)

/-! ## Decimals as rational numbers -/

/-- The number that a decimal stands for. -/
def Digits.value (d : Digits) : ℚ := d.coefficient * 10 ^ d.exponent

/-- The quotient that stands for a power of ten has its value. -/
theorem powerOfTen_ratio (e : Int) : ((powerOfTen e).1 : ℚ) = (10 : ℚ) ^ e * (powerOfTen e).2 := by
  obtain ⟨n, rfl | rfl⟩ := e.eq_nat_or_neg
  · simp [powerOfTen]
  · simp [powerOfTen]

theorem powerOfTen_pos (e : Int) : 0 < (powerOfTen e).1 ∧ 0 < (powerOfTen e).2 :=
  ⟨Nat.pow_pos (by decide), Nat.pow_pos (by decide)⟩

/-- Moving zeros into the exponent does not change the number. -/
theorem Digits.value_strip (fuel : Nat) (d : Digits) : (d.strip fuel).value = d.value := by
  induction fuel generalizing d with
  | zero => rfl
  | succ fuel ih =>
    rw [strip]
    split
    next h =>
      have hten : (d.coefficient : ℚ) = (d.coefficient / 10 : Nat) * 10 := by
        exact_mod_cast (Nat.div_mul_cancel (Nat.dvd_of_mod_eq_zero h.2)).symm
      rw [ih, value, value, zpow_add_one₀ (by norm_num), hten]
      ring
    next => rfl

/-! ## Intervals of reals that round to a number -/

section Interval

variable {f : Format} {m : Nat} {q : Int}

/-- The ends of a rounding interval are the midpoints around the number in its middle. -/
theorem roundingInterval_eq (hm : 0 < m) :
    let i := roundingInterval f m q
    (i.low : ℚ) = f.lowerMidpoint m q * i.denominator ∧ (i.middle : ℚ) = m * 2 ^ q * i.denominator ∧
      (i.high : ℚ) = upperMidpoint m q * i.denominator := by
  have hfour : (2 : ℚ) ^ q = 2 ^ (q - 2) * 4 := by
    rw [show (4 : ℚ) = 2 ^ (2 : Int) by norm_num, ← zpow_add₀ two_ne_zero, sub_add_cancel]
  simp only [roundingInterval, Nat.pow_eq]
  refine ⟨?_, ?_, ?_⟩
  · rw [Format.lowerMidpoint, hfour]
    split_ifs
    all_goals
      rw [Nat.cast_mul, Nat.cast_sub (by omega), powerOfTwo_ratio]
      push_cast
      ring
  · rw [hfour]
    push_cast
    rw [powerOfTwo_ratio]
    ring
  · rw [upperMidpoint, hfour]
    push_cast
    rw [powerOfTwo_ratio]
    ring

theorem denominator_pos (f : Format) (m : Nat) (q : Int) : (0 : ℚ) < (roundingInterval f m q).denominator := by
  exact_mod_cast (powerOfTwo_pos (q - 2)).2

/-- The interval around a number holds the decimals that are nearest to the number. -/
theorem holds_iff (hm : 0 < m) (d : Digits) : (roundingInterval f m q).holds d = true ↔ f.Nearest m q d.value := by
  obtain ⟨hlow, -, hhigh⟩ := roundingInterval_eq (f := f) (q := q) hm
  have hdown : (0 : ℚ) < (powerOfTen d.exponent).2 := by exact_mod_cast (powerOfTen_pos d.exponent).2
  have hscale := mul_pos (denominator_pos f m q) hdown
  have hclosed : (roundingInterval f m q).closed = decide (m % 2 = 0) := rfl
  simp only [Interval.holds, hclosed]
  generalize (roundingInterval f m q).denominator = den at *
  generalize (roundingInterval f m q).low = low at *
  generalize (roundingInterval f m q).high = high at *
  have hpoint : ((d.coefficient * (powerOfTen d.exponent).1 * den : Nat) : ℚ) =
      d.value * (den * (powerOfTen d.exponent).2) := by
    push_cast
    rw [powerOfTen_ratio, Digits.value]
    ring
  have hlow' : ((low * (powerOfTen d.exponent).2 : Nat) : ℚ) =
      f.lowerMidpoint m q * (den * (powerOfTen d.exponent).2) := by
    push_cast
    rw [hlow]
    ring
  have hhigh' : ((high * (powerOfTen d.exponent).2 : Nat) : ℚ) =
      upperMidpoint m q * (den * (powerOfTen d.exponent).2) := by
    push_cast
    rw [hhigh]
    ring
  generalize d.coefficient * (powerOfTen d.exponent).1 * den = point at *
  have hle : (low * (powerOfTen d.exponent).2 ≤ point ↔ f.lowerMidpoint m q ≤ d.value) ∧
      (point ≤ high * (powerOfTen d.exponent).2 ↔ d.value ≤ upperMidpoint m q) := by
    rw [← Nat.cast_le (α := ℚ), ← Nat.cast_le (α := ℚ), hpoint, hlow', hhigh']
    exact ⟨mul_le_mul_iff_left₀ hscale, mul_le_mul_iff_left₀ hscale⟩
  have hlt : (low * (powerOfTen d.exponent).2 < point ↔ f.lowerMidpoint m q < d.value) ∧
      (point < high * (powerOfTen d.exponent).2 ↔ d.value < upperMidpoint m q) := by
    rw [← Nat.cast_lt (α := ℚ), ← Nat.cast_lt (α := ℚ), hpoint, hlow', hhigh']
    exact ⟨mul_lt_mul_iff_left₀ hscale, mul_lt_mul_iff_left₀ hscale⟩
  by_cases heven : m % 2 = 0
  · simp only [heven, decide_true, if_true, Bool.and_eq_true, decide_eq_true_eq, hle.1, hle.2]
    exact ⟨fun h => ⟨h.1, h.2, fun _ => heven⟩, fun h => ⟨h.low, h.high⟩⟩
  · simp only [heven, decide_false, Bool.false_eq_true, if_false, Bool.and_eq_true, decide_eq_true_eq, hlt.1, hlt.2]
    constructor
    · rintro ⟨hlow, hhigh⟩
      exact .of_between hlow hhigh
    · intro h
      exact ⟨lt_of_le_of_ne h.low fun heq => heven (h.tie (.inl heq.symm)),
        lt_of_le_of_ne h.high fun heq => heven (h.tie (.inr heq))⟩

end Interval

/-! ## Candidates -/

namespace Interval

/-- A candidate lies in the interval. -/
theorem holds_of_candidate? {i : Interval} {count : Nat} {d : Digits} (h : i.candidate? count = some d) :
    i.holds d = true := by
  simp only [candidate?] at h
  split_ifs at h with hbelow habove habove
  · obtain rfl := Option.some.inj h
    rcases roundQuotient_cases (i.middle * (powerOfTen (i.magnitude - count + 1)).2)
      (i.denominator * (powerOfTen (i.magnitude - count + 1)).1) with heq | heq
    · rwa [heq]
    · rwa [heq]
  · obtain rfl := Option.some.inj h
    exact hbelow
  · obtain rfl := Option.some.inj h
    exact habove

/-- There is a candidate if one of the two decimals around the middle lies in the interval. -/
theorem candidate?_ne_none {i : Interval} {count : Nat} {e : Int} (he : e = i.magnitude - count + 1) {c : Nat}
    (hc : c = i.middle * (powerOfTen e).2 / (i.denominator * (powerOfTen e).1))
    (h : i.holds ⟨c, e⟩ = true ∨ i.holds ⟨c + 1, e⟩ = true) : i.candidate? count ≠ none := by
  subst he hc
  simp only [candidate?]
  split_ifs with hbelow habove habove
  · nofun
  · nofun
  · nofun
  · exact (h.elim hbelow habove).elim

/-- A positive number has as many digits as its magnitude says. -/
theorem length_toDigits_bounds {n : Nat} (hn : 0 < n) :
    10 ^ ((Nat.toDigits 10 n).length - 1) ≤ n ∧ n < 10 ^ (Nat.toDigits 10 n).length := by
  have hlength : 0 < (Nat.toDigits 10 n).length := Nat.length_toDigits_pos
  refine ⟨?_, (Nat.length_toDigits_le_iff (by decide) hlength).mp le_rfl⟩
  rcases Nat.eq_zero_or_pos ((Nat.toDigits 10 n).length - 1) with hzero | hmore
  · rw [hzero]
    exact hn
  · by_contra hlt
    have := (Nat.length_toDigits_le_iff (by decide) hmore).mpr (not_le.mp hlt)
    omega

/-- A quotient cut to whole units of a fraction. -/
theorem cut_bounds {num den : Nat} {v : ℚ} (hden : (0 : ℚ) < den) (hv : (num : ℚ) = v * den) (scale : Nat) :
    ((num * scale / den : Nat) : ℚ) ≤ v * scale ∧ v * scale < (num * scale / den : Nat) + 1 := by
  have hratio : v * scale = ((num * scale : Nat) : ℚ) / den := by
    rw [Nat.cast_mul, hv, mul_right_comm, mul_div_cancel_right₀ _ hden.ne']
  refine ⟨hratio ▸ Nat.cast_div_le, ?_⟩
  rw [hratio, div_lt_iff₀ hden]
  exact_mod_cast Nat.lt_mul_of_div_lt (Nat.lt_succ_self _) (by exact_mod_cast hden)

/-- The magnitude of an interval counts the places of its middle, if that is not too small. -/
theorem magnitude_bounds {i : Interval} {v : ℚ} (hden : (0 : ℚ) < i.denominator) (hv : (i.middle : ℚ) = v * i.denominator)
    (hlarge : 1 ≤ v * 10 ^ 340) : (10 : ℚ) ^ i.magnitude ≤ v ∧ v < 10 ^ (i.magnitude + 1) := by
  obtain ⟨hlow, hhigh⟩ := cut_bounds hden hv (10 ^ 340)
  rw [show ((10 ^ 340 : Nat) : ℚ) = 10 ^ 340 from Nat.cast_pow 10 340] at hlow hhigh
  set n := i.middle * 10 ^ 340 / i.denominator with hn
  have hpos : 0 < n := by
    have hone : (1 : ℚ) < n + 1 := hlarge.trans_lt hhigh
    exact_mod_cast (by linarith only [hone] : (0 : ℚ) < n)
  obtain ⟨habove, hbelow⟩ := length_toDigits_bounds hpos
  have hlength : 0 < (Nat.toDigits 10 n).length := Nat.length_toDigits_pos
  have hmagnitude : i.magnitude = ((Nat.toDigits 10 n).length : Int) - 341 := by
    rw [magnitude, hn]
    generalize 340 = places
    rfl
  have hscale : (0 : ℚ) < 10 ^ (340 : Int) := by positivity
  have hpower : (10 : ℚ) ^ (340 : Int) = 10 ^ 340 := zpow_ofNat 10 340
  rw [← mul_le_mul_iff_left₀ hscale, ← mul_lt_mul_iff_left₀ hscale, ← zpow_add₀ (by norm_num), ← zpow_add₀ (by norm_num),
    hmagnitude, hpower]
  constructor
  · calc (10 : ℚ) ^ (((Nat.toDigits 10 n).length : Int) - 341 + 340)
        = ((10 ^ ((Nat.toDigits 10 n).length - 1) : Nat) : ℚ) := by
          rw [show ((Nat.toDigits 10 n).length : Int) - 341 + 340 = ((Nat.toDigits 10 n).length - 1 : Nat) by omega]
          simp
      _ ≤ n := by exact_mod_cast habove
      _ ≤ v * 10 ^ 340 := hlow
  · calc v * 10 ^ 340 < n + 1 := hhigh
      _ ≤ ((10 ^ (Nat.toDigits 10 n).length : Nat) : ℚ) := by exact_mod_cast hbelow
      _ = 10 ^ (((Nat.toDigits 10 n).length : Int) - 341 + 1 + 340) := by
        rw [show ((Nat.toDigits 10 n).length : Int) - 341 + 1 + 340 = (Nat.toDigits 10 n).length by omega]
        simp

end Interval

/-! ## The shortest decimal -/

section Shortest

variable {f : Format} {m : Nat} {q : Int}

/-- Decimals that are dense enough have one next to a number that is nearest to it: what is within half a step of the
number is, if there are `10 ^ 16` steps up to the number. -/
theorem nearest_of_dense {x step : ℚ} (hp : f.precision ≤ 53) (hf : f.Holds m q) (hdense : step * 10 ^ 16 ≤ m * 2 ^ q)
    (hx : |x - m * 2 ^ q| ≤ step / 2) : f.Nearest m q x := by
  have hpos : (0 : ℚ) < 2 ^ q := by positivity
  obtain ⟨hleft, hright⟩ := abs_le.mp hx
  have hshort : (m : ℚ) ≤ 2 ^ 53 := by exact_mod_cast hf.short.le.trans (Nat.pow_le_pow_right (by decide) hp)
  have hstep : step * 10 ^ 16 ≤ 2 ^ 53 * 2 ^ q := hdense.trans (by gcongr)
  apply Format.Nearest.of_between
  · rw [Format.lowerMidpoint]
    split_ifs with hpower
    · have hsmall : (m : ℚ) ≤ 2 ^ 52 := by
        rw [hpower.1]
        exact_mod_cast Nat.pow_le_pow_right (by decide) (by omega : f.precision - 1 ≤ 52)
      have hstep' : step * 10 ^ 16 ≤ 2 ^ 52 * 2 ^ q := hdense.trans (by gcongr)
      linarith
    · linarith
  · rw [upperMidpoint]
    linarith

theorem two_pow_le_ten_pow : 2 ^ 1074 ≤ 10 ^ 340 :=
  calc 2 ^ 1074 = (2 ^ 179) ^ 6 := pow_mul 2 179 6
    _ ≤ 10 ^ 4 * (10 ^ 56) ^ 6 := by norm_num
    _ = 10 ^ 340 := by rw [← pow_mul, ← pow_add]

/-- One of the two decimals of seventeen digits around a number reads back. -/
theorem candidate?_seventeen (hp : f.precision ≤ 53) (hleast : -1074 ≤ f.leastExponent) (hm : 0 < m) (hf : f.Holds m q) :
    (roundingInterval f m q).candidate? 17 ≠ none := by
  obtain ⟨-, hmiddle, -⟩ := roundingInterval_eq (f := f) (q := q) hm
  have hden := denominator_pos f m q
  have hone : (1 : ℚ) ≤ m := by exact_mod_cast hm
  have hlarge : 1 ≤ (m * 2 ^ q : ℚ) * 10 ^ 340 := by
    calc (1 : ℚ) ≤ 2 ^ (-1074 : Int) * 10 ^ 340 := by
          rw [zpow_neg, ← div_eq_inv_mul, one_le_div (by positivity)]
          exact_mod_cast two_pow_le_ten_pow
      _ ≤ m * 2 ^ q * 10 ^ 340 := by
        gcongr
        calc (2 : ℚ) ^ (-1074 : Int) ≤ 2 ^ q := zpow_le_zpow_right₀ (by norm_num) (hleast.trans hf.least)
          _ ≤ m * 2 ^ q := le_mul_of_one_le_left (by positivity) hone
  obtain ⟨hlow, -⟩ := Interval.magnitude_bounds hden hmiddle hlarge
  generalize hi : roundingInterval f m q = i at *
  set e : Int := i.magnitude - (17 : Nat) + 1 with he
  set c := i.middle * (powerOfTen e).2 / (i.denominator * (powerOfTen e).1) with hc
  have hten : (0 : ℚ) < 10 ^ e := by positivity
  have hdense : (10 : ℚ) ^ e * 10 ^ 16 ≤ m * 2 ^ q := by
    have hpower : (10 : ℚ) ^ e * 10 ^ (16 : Int) = 10 ^ i.magnitude := by
      rw [← zpow_add₀ (by norm_num)]
      congr 1
      omega
    exact_mod_cast hpower.trans_le hlow
  -- the number lies between the two decimals
  have hratio : ((i.middle * (powerOfTen e).2 : Nat) / (i.denominator * (powerOfTen e).1 : Nat) : ℚ) =
      m * 2 ^ q / 10 ^ e := by
    rw [ratio_scaled (powerOfTen_pos e).2 (powerOfTen_ratio e), hmiddle, mul_div_cancel_right₀ _ hden.ne']
  have hunits : 0 < i.denominator * (powerOfTen e).1 :=
    Nat.mul_pos (by exact_mod_cast hden) (powerOfTen_pos e).1
  have hbelow : (c : ℚ) ≤ m * 2 ^ q / 10 ^ e := hratio ▸ Nat.cast_div_le
  have habove : (m * 2 ^ q / 10 ^ e : ℚ) < c + 1 := by
    rw [← hratio, div_lt_iff₀ (by exact_mod_cast hunits)]
    exact_mod_cast Nat.lt_mul_of_div_lt (Nat.lt_succ_self c) hunits
  rw [le_div_iff₀ hten] at hbelow
  rw [div_lt_iff₀ hten] at habove
  apply Interval.candidate?_ne_none he hc
  rw [← hi, holds_iff hm, holds_iff hm]
  rcases le_total (m * 2 ^ q - c * 10 ^ e : ℚ) (10 ^ e / 2) with hhalf | hhalf
  · left
    apply nearest_of_dense hp hf hdense
    rw [Digits.value, abs_le]
    constructor <;> linarith
  · right
    apply nearest_of_dense hp hf hdense
    rw [Digits.value, abs_le]
    push_cast
    constructor <;> linarith

/-- The shortest decimal for a positive number of a format is nearest to the number. -/
theorem shortest_nearest (hp : f.precision ≤ 53) (hleast : -1074 ≤ f.leastExponent) (hm : 0 < m) (hf : f.Holds m q) :
    f.Nearest m q (shortest f m q).value := by
  simp only [shortest]
  split
  next d hd =>
    obtain ⟨k, -, hcandidate⟩ := List.exists_of_findSome?_eq_some hd
    rw [Digits.value_strip]
    exact (holds_iff hm d).mp (Interval.holds_of_candidate? hcandidate)
  next hnone =>
    have h := List.findSome?_eq_none_iff.mp hnone 16 (by simp)
    exact absurd h (candidate?_seventeen hp hleast hm hf)

end Shortest

end Tenure.Decimal
