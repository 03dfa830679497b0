import Mathlib.Tactic.SplitIfs
import Tenure.Text.Utf8

/-!
# Characters read back

The octets of a scalar value are one piece of a text, that scalar value: `pieces_encodeScalar`. The other way round, a
piece that is a scalar value takes up as many octets as that value has, `of_firstPiece`.
-/

set_option autoImplicit false

namespace Tenure.Text

/-! ## Octets by their numbers -/

theorem toNat_toUInt8 {n : Nat} (hn : n < 256) : n.toUInt8.toNat = n := by
  simp only [Nat.toUInt8_eq, UInt8.toNat_ofNat', Nat.mod_eq_of_lt hn]

theorem isContinuation_iff (b : UInt8) : isContinuation b = true ↔ 128 ≤ b.toNat ∧ b.toNat < 192 := by
  simp [isContinuation, UInt8.le_iff_toNat_le, UInt8.lt_iff_toNat_lt]

theorem lt_of_isScalar {code : Nat} (h : isScalar code = true) : code < 0x110000 := by
  simp only [isScalar, Bool.or_eq_true, Bool.and_eq_true, decide_eq_true_eq] at h
  omega

/-! ## Sequences of each length -/

section Sequences

variable {b b₁ b₂ b₃ : UInt8} {code : Nat}

theorem firstPiece_one (rest : List UInt8) (hb : b.toNat = code) (hcode : code < 0x80) :
    firstPiece b rest = (.scalar code, 0) := by
  have hlead : b < 0x80 := UInt8.lt_iff_toNat_lt.mpr (hb ▸ hcode)
  unfold firstPiece
  rw [if_pos hlead, hb]

theorem firstPiece_two (rest : List UInt8) (hb : b.toNat = 0xc0 + code / 64) (hb₁ : b₁.toNat = 0x80 + code % 64)
    (hlow : 0x80 ≤ code) (hhigh : code < 0x800) : firstPiece b (b₁ :: rest) = (.scalar code, 1) := by
  have hlead : ¬b < 0x80 ∧ 0xc2 ≤ b ∧ b < 0xe0 := by
    simp only [UInt8.le_iff_toNat_le, UInt8.lt_iff_toNat_lt, UInt8.reduceToNat]
    omega
  have h₁ : isContinuation b₁ = true := (isContinuation_iff b₁).mpr (by omega)
  have hcode : b.toNat % 32 * 64 + payload b₁ = code := by
    rw [payload]
    omega
  unfold firstPiece
  rw [if_neg hlead.1]
  simp only [if_pos hlead.2, h₁, if_true, hcode]

theorem firstPiece_three (rest : List UInt8) (hb : b.toNat = 0xe0 + code / 4096) (hb₁ : b₁.toNat = 0x80 + code / 64 % 64)
    (hb₂ : b₂.toNat = 0x80 + code % 64) (hlow : 0x800 ≤ code) (hhigh : code < 0x10000) (hscalar : isScalar code = true) :
    firstPiece b (b₁ :: b₂ :: rest) = (.scalar code, 2) := by
  have hlead : ¬b < 0x80 ∧ ¬(0xc2 ≤ b ∧ b < 0xe0) ∧ 0xe0 ≤ b ∧ b < 0xf0 := by
    simp only [UInt8.le_iff_toNat_le, UInt8.lt_iff_toNat_lt, UInt8.reduceToNat]
    omega
  have h₁ : isContinuation b₁ = true := (isContinuation_iff b₁).mpr (by omega)
  have h₂ : isContinuation b₂ = true := (isContinuation_iff b₂).mpr (by omega)
  have hcode : b.toNat % 16 * 4096 + payload b₁ * 64 + payload b₂ = code := by
    rw [payload, payload]
    omega
  unfold firstPiece
  rw [if_neg hlead.1]
  simp only [if_neg hlead.2.1, if_pos hlead.2.2, hcode]
  rw [if_pos ⟨h₁, h₂, hlow, hscalar⟩]

theorem firstPiece_four (rest : List UInt8) (hb : b.toNat = 0xf0 + code / 262144)
    (hb₁ : b₁.toNat = 0x80 + code / 4096 % 64) (hb₂ : b₂.toNat = 0x80 + code / 64 % 64)
    (hb₃ : b₃.toNat = 0x80 + code % 64) (hlow : 0x10000 ≤ code) (hscalar : isScalar code = true) :
    firstPiece b (b₁ :: b₂ :: b₃ :: rest) = (.scalar code, 3) := by
  have hhigh := lt_of_isScalar hscalar
  have hlead : ¬b < 0x80 ∧ ¬(0xc2 ≤ b ∧ b < 0xe0) ∧ ¬(0xe0 ≤ b ∧ b < 0xf0) ∧ 0xf0 ≤ b ∧ b < 0xf5 := by
    simp only [UInt8.le_iff_toNat_le, UInt8.lt_iff_toNat_lt, UInt8.reduceToNat]
    omega
  have h₁ : isContinuation b₁ = true := (isContinuation_iff b₁).mpr (by omega)
  have h₂ : isContinuation b₂ = true := (isContinuation_iff b₂).mpr (by omega)
  have h₃ : isContinuation b₃ = true := (isContinuation_iff b₃).mpr (by omega)
  have hcode : b.toNat % 8 * 262144 + payload b₁ * 4096 + payload b₂ * 64 + payload b₃ = code := by
    rw [payload, payload, payload]
    omega
  unfold firstPiece
  rw [if_neg hlead.1]
  simp only [if_neg hlead.2.1, if_neg hlead.2.2.1, hcode]
  rw [if_pos ⟨hlead.2.2.2.1, hlead.2.2.2.2, h₁, h₂, h₃, hlow, hscalar⟩]

end Sequences

/-- A scalar value in UTF-8 form is one piece. -/
theorem pieces_encodeScalar {code : Nat} (h : isScalar code = true) :
    piecesFrom 0 (encodeScalar code) = [.scalar code] := by
  have hcode := lt_of_isScalar h
  simp only [encodeScalar]
  split_ifs with h₁ h₂ h₃
  · rw [piecesFrom, firstPiece_one [] (toNat_toUInt8 (by omega)) h₁]
    rfl
  · rw [piecesFrom, firstPiece_two [] (toNat_toUInt8 (by omega)) (toNat_toUInt8 (by omega)) (by omega) h₂]
    rfl
  · rw [piecesFrom, firstPiece_three [] (toNat_toUInt8 (by omega)) (toNat_toUInt8 (by omega)) (toNat_toUInt8 (by omega))
      (by omega) h₃ h]
    rfl
  · rw [piecesFrom, firstPiece_four [] (toNat_toUInt8 (by omega)) (toNat_toUInt8 (by omega)) (toNat_toUInt8 (by omega))
      (toNat_toUInt8 (by omega)) (by omega) h]
    rfl

/-! ## Pieces -/

theorem length_encodeScalar (code : Nat) :
    (encodeScalar code).length = if code < 0x80 then 1 else if code < 0x800 then 2 else if code < 0x10000 then 3 else 4 := by
  simp only [encodeScalar]
  split_ifs <;> rfl

/-- A piece that is a scalar value is in range and takes up the octets of that value, which the text has. -/
theorem of_firstPiece {b : UInt8} {rest : List UInt8} {code more : Nat} (h : firstPiece b rest = (.scalar code, more)) :
    code < 0x110000 ∧ more ≤ rest.length ∧ (encodeScalar code).length = more + 1 := by
  have hpayload : ∀ c : UInt8, payload c < 64 := fun c => Nat.mod_lt _ (by decide)
  rw [length_encodeScalar]
  unfold firstPiece at h
  split at h
  next hlead =>
    cases h
    have hlt : b.toNat < 0x80 := UInt8.lt_iff_toNat_lt.mp hlead
    exact ⟨by omega, Nat.zero_le _, by simp [hlt]⟩
  split at h
  next b₁ tail =>
    have h₁ := hpayload b₁
    split at h
    next hlead =>
      rw [UInt8.le_iff_toNat_le, UInt8.lt_iff_toNat_lt] at hlead
      simp only [UInt8.reduceToNat] at hlead
      split at h
      next =>
        cases h
        refine ⟨by omega, by simp, ?_⟩
        split_ifs <;> omega
      next => cases h
    split at h
    next b₂ tail =>
      have h₂ := hpayload b₂
      split at h
      · simp only at h
        split at h
        next hcode =>
          cases h
          refine ⟨lt_of_isScalar hcode.2.2.2, by simp, ?_⟩
          split_ifs <;> omega
        next => cases h
      split at h
      next b₃ tail =>
        simp only at h
        split at h
        next hcode =>
          cases h
          refine ⟨lt_of_isScalar hcode.2.2.2.2.2.2, by simp, ?_⟩
          split_ifs <;> omega
        next => cases h
      next => cases h
    next => cases h
  next => cases h

end Tenure.Text
