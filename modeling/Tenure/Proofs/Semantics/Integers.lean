import Tenure.Proofs.Double.Order
import Tenure.Proofs.Semantics.Operators

/-!
# Arithmetic on 32-bit integers

`Integer.Operator.apply` says what each operator makes of two integers, as arithmetic on the integers themselves that
wraps around at 32 bits, and without words, doubles or a heap. The operators of the machine do the same with integers of
32 bits, `Operand.binary_integers`, and so do the signs, the complement and the builtins.

The heap keeps integers as doubles. An integer of 32 bits is one, and two of them compare as doubles just as they
compare as integers: `Number.exact`.
-/

set_option autoImplicit false

namespace Tenure

namespace Integer

/-- The integer has 32 bits. -/
def Fits (n : Int) : Prop := -0x80000000 ≤ n ∧ n < 0x80000000

instance (n : Int) : Decidable (Fits n) := inferInstanceAs (Decidable (_ ∧ _))

/-- The integer of 32 bits that differs by a multiple of 2³². -/
def wrap (n : Int) : Int := n.bmod 0x100000000

/-- The lowest 32 bits of an integer in two's complement, as a natural number. -/
def bits (n : Int) : Nat := (n % 0x100000000).toNat

/-- The operators that take two integers. -/
inductive Operator where
  | add
  | subtract
  | multiply
  | divide
  | remainder
  | and
  | or
  | xor
  | shiftLeft
  | shiftRight
  | equal
  | unequal
  | less
  | atMost
  | more
  | atLeast
deriving DecidableEq, Repr

/-- What comes out of an operator on integers. -/
inductive Result where
  | truth (b : Bool)
  | integer (n : Int)
  | divisionByZero
deriving DecidableEq, Repr

namespace Operator

/-- The symbol that instructions carry for an operator. -/
def symbol : Operator → Text
  | .add => "+"
  | .subtract => "-"
  | .multiply => "*"
  | .divide => "/"
  | .remainder => "%"
  | .and => "&"
  | .or => "|"
  | .xor => "^"
  | .shiftLeft => "<<"
  | .shiftRight => ">>"
  | .equal => "=="
  | .unequal => "!="
  | .less => "<"
  | .atMost => "<="
  | .more => ">"
  | .atLeast => ">="

/-- What an operator makes of two integers. Quotients are cut toward zero, remainders have the sign of the dividend, and
only the lowest five bits of a shift count. -/
def apply : Operator → Int → Int → Result
  | .add, a, b => .integer (wrap (a + b))
  | .subtract, a, b => .integer (wrap (a - b))
  | .multiply, a, b => .integer (wrap (a * b))
  | .divide, a, b => if b = 0 then .divisionByZero else .integer (wrap (a.tdiv b))
  | .remainder, a, b => if b = 0 then .divisionByZero else .integer (a.tmod b)
  | .and, a, b => .integer (wrap (bits a &&& bits b : Nat))
  | .or, a, b => .integer (wrap (bits a ||| bits b : Nat))
  | .xor, a, b => .integer (wrap (bits a ^^^ bits b : Nat))
  | .shiftLeft, a, b => .integer (wrap (a * 2 ^ (b % 32).toNat))
  | .shiftRight, a, b => .integer (a / 2 ^ (b % 32).toNat)
  | .equal, a, b => .truth (a = b)
  | .unequal, a, b => .truth (a ≠ b)
  | .less, a, b => .truth (a < b)
  | .atMost, a, b => .truth (a ≤ b)
  | .more, a, b => .truth (b < a)
  | .atLeast, a, b => .truth (b ≤ a)

end Operator

/-- Division by zero is the only way in which an operator on integers fails. -/
theorem Operator.apply_divisionByZero (o : Operator) (a b : Int) :
    o.apply a b = .divisionByZero ↔ (o = .divide ∨ o = .remainder) ∧ b = 0 := by
  cases o <;> simp [apply]

/-- The result of an operator as the machine's operators give it. -/
def Result.outcome : Result → Except StepError (Bool ⊕ Number)
  | .truth b => .ok (.inl b)
  | .integer n => .ok (.inr (.int n))
  | .divisionByZero => .error .divisionByZero

/-- The sign of an integer changed. -/
def negate (n : Int) : Int := wrap (-n)

/-- The bits of an integer turned over. -/
def complement (n : Int) : Int := -n - 1

/-- The absolute value of an integer, which only the least one does not have. -/
def magnitude (n : Int) : Int := wrap n.natAbs

/-! ## Words -/

theorem fits_toInt (w : Int32) : Fits w.toInt := ⟨w.le_toInt, w.toInt_lt⟩

theorem toInt_eq_bmod (w : Int32) : w.toInt = (w.toBitVec.toNat : Int).bmod (2 ^ 32) := by
  rw [← Int32.toInt_toBitVec, BitVec.toInt_eq_toNat_bmod]

theorem toNat_toBitVec (w : Int32) : w.toBitVec.toNat = bits w.toInt := by
  have := w.toBitVec.isLt
  rw [bits, toInt_eq_bmod, Int.bmod_def]
  omega

/-- The number of places by which a word is shifted. -/
theorem shift_count (w : Int32) : ((w &&& 31).toBitVec.smod 32).toNat = (w.toInt % 32).toNat := by
  have hmask : (w &&& 31).toBitVec.toNat = w.toBitVec.toNat % 32 := by
    rw [Int32.toBitVec_and, BitVec.toNat_and]
    exact Nat.and_two_pow_sub_one_eq_mod w.toBitVec.toNat 5
  have hlt : (w &&& 31).toBitVec.toNat < 32 := hmask ▸ Nat.mod_lt _ (by decide)
  have hcount : ((w &&& 31).toBitVec.smod 32).toInt = (w &&& 31).toBitVec.toNat := by
    have h32 : (32 : BitVec 32).toInt = 32 := rfl
    rw [BitVec.toInt_smod, h32, BitVec.toInt_eq_toNat_of_lt (by omega), Int.fmod_eq_emod_of_nonneg _ (by decide)]
    omega
  rw [BitVec.toInt_eq_toNat_bmod, Int.bmod_def] at hcount
  have := ((w &&& 31).toBitVec.smod 32).isLt
  have hmod : w.toInt % 32 = (w.toBitVec.toNat % 32 : Nat) := by
    rw [toInt_eq_bmod, Int.bmod_def]
    omega
  omega

theorem toInt_shiftLeft (u w : Int32) : (u <<< (w &&& 31)).toInt = wrap (u.toInt * 2 ^ (w.toInt % 32).toNat) := by
  rw [← Int32.toInt_toBitVec, Int32.toBitVec_shiftLeft, BitVec.shiftLeft_eq', BitVec.toInt_shiftLeft, shift_count,
    toInt_eq_bmod u, wrap, show (0x100000000 : Nat) = 2 ^ 32 from rfl, Int.bmod_mul_bmod, Nat.shiftLeft_eq]
  push_cast
  rfl

theorem toInt_shiftRight (u w : Int32) : (u >>> (w &&& 31)).toInt = u.toInt / 2 ^ (w.toInt % 32).toNat := by
  rw [← Int32.toInt_toBitVec, Int32.toBitVec_shiftRight, BitVec.sshiftRight', BitVec.toInt_sshiftRight, shift_count,
    Int.shiftRight_eq_div_pow, Int32.toInt_toBitVec]
  push_cast
  rfl

section Words

variable {a b : Int}

theorem Fits.wrap_eq (ha : Fits a) : wrap a = a := by
  obtain ⟨hlow, hhigh⟩ := ha
  rw [wrap, Int.bmod_def]
  omega

theorem Fits.toInt_wordOf (ha : Fits a) : (wordOf a).toInt = a := by
  rw [wordOf, if_pos (show -0x80000000 ≤ a ∧ a < 0x80000000 from ha), Int32.toInt_ofInt]
  exact ha.wrap_eq

theorem Fits.wordOf_eq_zero (ha : Fits a) : wordOf a = 0 ↔ a = 0 := by
  rw [← Int32.toInt_inj, ha.toInt_wordOf]
  rfl

/-- The operators on words compute what the operators on integers say. -/
theorem wordOperator_eq (ha : Fits a) (hb : Fits b) (o : Operator) (hvalue : ∀ t, o.apply a b ≠ .truth t) :
    (wordOperator o.symbol (wordOf a) (wordOf b)).map (fun r => Sum.inr (.int r.toInt)) = (o.apply a b).outcome := by
  have hbits : ∀ {n : Int}, Fits n → (wordOf n).toBitVec.toNat = bits n := fun hn => by
    rw [toNat_toBitVec, hn.toInt_wordOf]
  -- an outcome of a word is that of its integer
  have hword : ∀ {r : Int32} {n : Int}, r.toInt = n →
      (Except.ok r : Except StepError Int32).map (fun r => (Sum.inr (.int r.toInt) : Bool ⊕ Number)) =
        (Result.integer n).outcome := by
    rintro r n rfl
    rfl
  cases o with
  | add => exact hword (by rw [Int32.toInt_add, ha.toInt_wordOf, hb.toInt_wordOf]; rfl)
  | subtract => exact hword (by rw [Int32.toInt_sub, ha.toInt_wordOf, hb.toInt_wordOf]; rfl)
  | multiply => exact hword (by rw [Int32.toInt_mul, ha.toInt_wordOf, hb.toInt_wordOf]; rfl)
  | divide =>
    change Except.map _ (if wordOf b = 0 then _ else _) = Result.outcome (if b = 0 then _ else _)
    by_cases hzero : b = 0
    · rw [if_pos hzero, if_pos (hb.wordOf_eq_zero.mpr hzero)]
      rfl
    · rw [if_neg hzero, if_neg (mt hb.wordOf_eq_zero.mp hzero)]
      exact hword (by rw [Int32.toInt_div, ha.toInt_wordOf, hb.toInt_wordOf]; rfl)
  | remainder =>
    change Except.map _ (if wordOf b = 0 then _ else _) = Result.outcome (if b = 0 then _ else _)
    by_cases hzero : b = 0
    · rw [if_pos hzero, if_pos (hb.wordOf_eq_zero.mpr hzero)]
      rfl
    · rw [if_neg hzero, if_neg (mt hb.wordOf_eq_zero.mp hzero)]
      exact hword (by rw [Int32.toInt_mod, ha.toInt_wordOf, hb.toInt_wordOf])
  | and =>
    refine hword ?_
    rw [toInt_eq_bmod, Int32.toBitVec_and, BitVec.toNat_and, hbits ha, hbits hb]
    rfl
  | or =>
    refine hword ?_
    rw [toInt_eq_bmod, Int32.toBitVec_or, BitVec.toNat_or, hbits ha, hbits hb]
    rfl
  | xor =>
    refine hword ?_
    rw [toInt_eq_bmod, Int32.toBitVec_xor, BitVec.toNat_xor, hbits ha, hbits hb]
    rfl
  | shiftLeft => exact hword (by rw [toInt_shiftLeft, ha.toInt_wordOf, hb.toInt_wordOf])
  | shiftRight => exact hword (by rw [toInt_shiftRight, ha.toInt_wordOf, hb.toInt_wordOf])
  | equal | unequal | less | atMost | more | atLeast => exact absurd rfl (hvalue _)

theorem toInt_negate (ha : Fits a) : (-(wordOf a)).toInt = negate a := by
  rw [Int32.toInt_neg, ha.toInt_wordOf]
  rfl

theorem toInt_complement (ha : Fits a) : (~~~(wordOf a)).toInt = complement a := by
  rw [Int32.toInt_not, ha.toInt_wordOf, complement]
  obtain ⟨hlow, hhigh⟩ := ha
  rw [Int.bmod_def]
  omega

theorem toInt_magnitude (ha : Fits a) : (if wordOf a < 0 then -(wordOf a) else wordOf a).toInt = magnitude a := by
  have hneg : wordOf a < 0 ↔ a < 0 := by
    rw [Int32.lt_iff_toInt_lt, ha.toInt_wordOf]
    rfl
  by_cases h : a < 0
  · rw [if_pos (hneg.mpr h), Int32.toInt_neg, ha.toInt_wordOf, magnitude, Int.ofNat_natAbs_of_nonpos h.le]
    rfl
  · rw [if_neg (mt hneg.mp h), ha.toInt_wordOf, magnitude, Int.natAbs_of_nonneg (Int.not_lt.mp h), ha.wrap_eq]

end Words

end Integer

/-! ## Operators on values -/

section Operators

open Integer

variable {a b : Int}

/-- A binary operator on integers of 32 bits. Both operands may be the very same value. -/
theorem Operand.binary_integers (ha : Fits a) (hb : Fits b) (o : Operator) {same : Bool} (hsame : same = true → a = b) :
    Operand.binary o.symbol same (.number (.int a)) (.number (.int b)) = (o.apply a b).outcome := by
  have hequal : (same || decide (a = b)) = decide (a = b) := by
    cases same with
    | false => rfl
    | true => rw [decide_eq_true (hsame rfl), Bool.or_self]
  have hword := wordOperator_eq ha hb o
  have hoperate : ((Number.int a).operate o.symbol (.int b)).map Sum.inr =
      (wordOperator o.symbol (wordOf a) (wordOf b)).map fun r => (Sum.inr (.int r.toInt) : Bool ⊕ Number) := by
    change ((wordOperator o.symbol (wordOf a) (wordOf b)).map fun r => Number.int r.toInt).map Sum.inr = _
    generalize wordOperator o.symbol (wordOf a) (wordOf b) = r
    cases r <;> rfl
  cases o with
  | equal => exact congrArg (fun t => Except.ok (Sum.inl t)) hequal
  | unequal =>
    refine congrArg (fun t => Except.ok (Sum.inl t)) ?_
    change (!(same || decide (a = b))) = decide (a ≠ b)
    rw [hequal, decide_not]
  | less | atMost | more | atLeast => rfl
  | divide | remainder =>
    refine hoperate.trans (hword fun t => ?_)
    by_cases hzero : b = 0 <;> simp [Operator.apply, hzero]
  | _ => exact hoperate.trans (hword fun t => Result.noConfusion)

theorem Operand.negate_integer (ha : Fits a) :
    Operand.unary "-" (.number (.int a)) = .ok (.inr (.int (negate a))) := by
  rw [← toInt_negate ha]
  rfl

theorem Operand.complement_integer (ha : Fits a) :
    Operand.unary "!" (.number (.int a)) = .ok (.inr (.int (complement a))) := by
  rw [← toInt_complement ha]
  rfl

theorem Operand.abs_integer (ha : Fits a) :
    Operand.builtin .abs [.number (.int a)] = .ok (.inr (.int (magnitude a))) := by
  rw [← toInt_magnitude ha]
  rfl

end Operators

/-! ## Integers as doubles -/

namespace Number

/-- Doubles keep two integers: each can be had back from its double, and the doubles compare as the integers do. -/
structure Exact (a b : Int) : Prop where
  back : Double.integer? (toFloat (.int a)) = some a
  equal : (toFloat (.int a) == toFloat (.int b)) = (Number.int a).equal (.int b)
  less : decide (toFloat (.int a) < toFloat (.int b)) = (Number.int a).less (.int b)
  atMost : decide (toFloat (.int a) ≤ toFloat (.int b)) = (Number.int a).atMost (.int b)

theorem exact {a b : Int} (ha : Integer.Fits a) (hb : Integer.Fits b) : Exact a b := by
  have hlt : ∀ {n : Int}, Integer.Fits n → n.natAbs < 2 ^ 53 := by
    rintro n ⟨hlow, hhigh⟩
    omega
  refine ⟨Double.integer?_ofInt (hlt ha), ?_, ?_, ?_⟩
  · exact Bool.eq_iff_iff.mpr ((Double.ofInt_beq_iff (hlt ha) (hlt hb)).trans decide_eq_true_iff.symm)
  · exact decide_eq_decide.mpr (Double.ofInt_lt_iff (hlt ha) (hlt hb))
  · exact decide_eq_decide.mpr (Double.ofInt_le_iff (hlt ha) (hlt hb))

theorem ofInt_eq {n : Int} (hn : Integer.Fits n) : ofInt n = .int n := by
  obtain ⟨hlow, hhigh⟩ := hn
  rw [ofInt, Double.roundInt_eq (by omega)]

end Number

end Tenure
