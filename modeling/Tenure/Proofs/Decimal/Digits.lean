import Mathlib.Algebra.Order.Ring.Nat
import Mathlib.Tactic.IntervalCases
import Mathlib.Tactic.Ring
import Tenure.Decimal.Reader

/-!
# Decimal digits read back

The text of a natural number consists of digits, of which the first is zero only for zero, and the digits write the
number. A text of digits grows at its end as the number does, so all of this is by induction on the number with its last
digit taken off, `Text.octets_ofNat`. An integer of 64 bits reads back from its text, `readInt?_ofInt`.
-/

set_option autoImplicit false

namespace Tenure

namespace Text

/-- The octet of a decimal digit. -/
def digitOctet (d : Nat) : UInt8 := octet d.digitChar

theorem toNat_digitOctet {d : Nat} (hd : d < 10) : (digitOctet d).toNat = 48 + d := by
  interval_cases d <;> rfl

theorem isDigit_iff (b : UInt8) : isDigit b = true ↔ 48 ≤ b.toNat ∧ b.toNat ≤ 57 := by
  simp [isDigit, UInt8.le_iff_toNat_le]

theorem isDigit_digitOctet {d : Nat} (hd : d < 10) : isDigit (digitOctet d) = true := by
  rw [isDigit_iff, toNat_digitOctet hd]
  omega

theorem digitValue?_of_isDigit {b : UInt8} (hb : isDigit b = true) : digitValue? b = some (b.toNat - 48) := by
  rw [digitValue?, if_pos hb]

/-- The text of a number is that of the number without its last digit, and the last digit. -/
theorem octets_ofNat (n : Nat) :
    (ofNat n).octets = if n < 10 then [digitOctet n] else (ofNat (n / 10)).octets ++ [digitOctet (n % 10)] := by
  rw [ofNat, Nat.toDigits_eq_if (by decide)]
  split
  · rfl
  · simp [ofNat, digitOctet]

/-- What holds of the text of a digit and goes on when a digit is added holds of the text of every number. -/
theorem ofNat_induction {motive : Nat → List UInt8 → Prop} (digit : ∀ d < 10, motive d [digitOctet d])
    (more : ∀ n d octets, 0 < n → d < 10 → motive n octets → motive (10 * n + d) (octets ++ [digitOctet d])) (n : Nat) :
    motive n (ofNat n).octets := by
  induction n using Nat.strong_induction_on with
  | _ n ih =>
    rw [octets_ofNat]
    split
    next hn => exact digit n hn
    next hn =>
      have h := more (n / 10) (n % 10) _ (by omega) (Nat.mod_lt n (by decide)) (ih (n / 10) (by omega))
      rwa [Nat.div_add_mod] at h

theorem isDigit_of_mem_ofNat (n : Nat) : ∀ b ∈ (ofNat n).octets, isDigit b = true := by
  refine ofNat_induction (motive := fun _ octets => ∀ b ∈ octets, isDigit b = true) (fun d hd => ?_) ?_ n
  · simpa using isDigit_digitOctet hd
  · intro n d octets _ hd ih b hb
    rcases List.mem_append.mp hb with hb | hb
    · exact ih b hb
    · rw [List.mem_singleton.mp hb]
      exact isDigit_digitOctet hd

/-- The text of a positive number begins with a digit that is not zero. -/
theorem ofNat_eq_cons {n : Nat} (hn : 0 < n) :
    ∃ b rest, (ofNat n).octets = b :: rest ∧ isDigit b = true ∧ b ≠ octet '0' := by
  refine ofNat_induction (motive := fun n octets => 0 < n → ∃ b rest, octets = b :: rest ∧ isDigit b = true ∧
    b ≠ octet '0') (fun d hd hpos => ?_) ?_ n hn
  · refine ⟨digitOctet d, [], rfl, isDigit_digitOctet hd, fun hzero => ?_⟩
    have htoNat := toNat_digitOctet hd
    rw [hzero] at htoNat
    exact absurd htoNat (by change 48 ≠ 48 + d; omega)
  · intro n d octets hn _ ih _
    obtain ⟨b, rest, rfl, hb, hzero⟩ := ih hn
    exact ⟨b, rest ++ [digitOctet d], rfl, hb, hzero⟩

theorem length_ofNat (n : Nat) : (ofNat n).octets.length = (Nat.toDigits 10 n).length := by
  simp [ofNat]

end Text

namespace Decimal

open Text

/-- The number that digits write after those of another number. -/
def continued (n : Nat) (digits : List UInt8) : Nat := digits.foldl (fun n b => 10 * n + (b.toNat - 48)) n

theorem continued_append (n : Nat) (digits more : List UInt8) :
    continued n (digits ++ more) = continued (continued n digits) more := List.foldl_append

/-- The text of a number writes that number. -/
theorem continued_ofNat (n : Nat) : continued 0 (ofNat n).octets = n := by
  refine ofNat_induction (motive := fun n octets => continued 0 octets = n) (fun d hd => ?_) ?_ n
  · simp [continued, toNat_digitOctet hd]
  · intro n d octets _ hd ih
    rw [continued_append, ih]
    simp [continued, toNat_digitOctet hd]

/-- Zeros after a number multiply it by ten. -/
theorem continued_zeros (n k : Nat) : continued n (List.replicate k (octet '0')) = n * 10 ^ k := by
  induction k generalizing n with
  | zero => simp [continued]
  | succ k ih =>
    have hzero : (octet '0').toNat = 48 := rfl
    rw [List.replicate_succ, continued, List.foldl_cons, ← continued, ih, hzero, pow_succ]
    ring

/-- Digits of base ten have the value that they write. -/
theorem digitsValue?_of_isDigit {digits : List UInt8} (hdigits : ∀ b ∈ digits, isDigit b = true) :
    digitsValue? 10 digits = some (continued 0 digits) := by
  rw [digitsValue?, continued]
  generalize (0 : Nat) = n
  induction digits generalizing n with
  | nil => rfl
  | cons b rest ih =>
    have hb := hdigits b (List.mem_cons_self ..)
    have hlt : b.toNat - 48 < 10 := by
      have := (isDigit_iff b).mp hb
      omega
    rw [List.foldl_cons, List.foldl_cons, ← ih fun c hc => hdigits c (List.mem_cons_of_mem b hc)]
    simp [digitValue?_of_isDigit hb, hlt]

/-! ## Integers -/

/-- A digit is no sign. -/
theorem takeSign_of_isDigit {b : UInt8} (hb : isDigit b = true) (rest : List UInt8) :
    takeSign (b :: rest) = (false, b :: rest) := by
  have hbounds := (isDigit_iff b).mp hb
  have hminus : b ≠ octet '-' := by
    rintro rfl
    exact absurd hbounds.1 (by decide)
  have hplus : b ≠ octet '+' := by
    rintro rfl
    exact absurd hbounds.1 (by decide)
  rw [takeSign, if_neg hminus, if_neg hplus]

/-- The digits of a number are read as that number. -/
theorem magnitude?_ofNat (n : Nat) : magnitude? (ofNat n).octets = some n := by
  rcases Nat.eq_zero_or_pos n with rfl | hn
  · rfl
  · obtain ⟨b, rest, hcons, -, hzero⟩ := ofNat_eq_cons hn
    have hmagnitude : magnitude? (b :: rest) = digitsValue? 10 (b :: rest) := if_neg hzero
    rw [hcons, hmagnitude, ← hcons, digitsValue?_of_isDigit (isDigit_of_mem_ofNat n), continued_ofNat]

theorem takeSign_ofNat (n : Nat) : takeSign (ofNat n).octets = (false, (ofNat n).octets) := by
  cases hcons : (ofNat n).octets with
  | nil => rfl
  | cons b rest => exact takeSign_of_isDigit (isDigit_of_mem_ofNat n b (by simp [hcons])) rest

/-- An integer of 64 bits reads back from its text. -/
theorem readInt?_ofInt {n : Int} (hlow : -0x8000000000000000 ≤ n) (hhigh : n < 0x8000000000000000) :
    readInt? (ofInt n) = some n := by
  cases n with
  | ofNat n =>
    have hlt : n < 0x8000000000000000 := by
      rw [Int.ofNat_eq_natCast] at hhigh
      omega
    rw [ofInt, readInt?, takeSign_ofNat]
    simp [magnitude?_ofNat, hlt]
  | negSucc n =>
    have hle : n + 1 ≤ 0x8000000000000000 := by
      rw [Int.negSucc_eq] at hlow
      omega
    have hsign : takeSign (ofInt (.negSucc n)).octets = (true, (ofNat (n + 1)).octets) := rfl
    rw [readInt?, hsign]
    simp only [magnitude?_ofNat, Option.bind_eq_bind, Option.bind_some, if_true, if_pos hle]
    rfl

/-! ## Exponents -/

/-- The digits of an exponent below ten thousand are read as that exponent, whatever zeros stand in front. -/
theorem exponentValue_ofNat (k : Nat) {n : Nat} (hn : n < 10000) :
    exponentValue (List.replicate k (octet '0') ++ (ofNat n).octets) = n := by
  have hzeros : exponentValue (List.replicate k (octet '0')) = 0 := by
    induction k with
    | zero => rfl
    | succ k ih =>
      rw [List.replicate_succ]
      exact ih
  rw [exponentValue, List.foldl_append, ← exponentValue, hzeros]
  refine ofNat_induction (motive := fun n octets => n < 10000 →
    octets.foldl (fun n (b : UInt8) => if n < 10000 then 10 * n + (b.toNat - 48) else n) 0 = n) (fun d hd _ => ?_) ?_ n hn
  · simp [toNat_digitOctet hd]
  · intro n d octets _ hd ih hlt
    have hn : n < 10000 := by omega
    rw [List.foldl_append, ih hn]
    simp [hn, toNat_digitOctet hd]

end Decimal

end Tenure
