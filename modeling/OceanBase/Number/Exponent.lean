import OceanBase.Number.ObNumber

/-!
# The exponent field

An exponent is stored in seven bits, shifted by 64 and complemented for a negative number. The field
cannot tell exponents that differ by 128: `exp_check_` and `get_decode_exp` see the remainder.

## Main results

* `checked_of_range`: in the range of the check, the exponent is kept
-/

namespace OceanBase.Number

open ObNumber BitVec

theorem calcExp_false_toNat (e : ℤ) : ((calcExp false e).toNat : ℤ) = (64 + e) % 128 := by
  have hpow : ((2 ^ 7 : ℕ) : ℤ) = 128 := rfl
  rw [calcExp, if_neg (by decide), toNat_ofInt, hpow, expZero]
  omega

theorem calcExp_true_toNat (e : ℤ) : ((calcExp true e).toNat : ℤ) = (64 - e) % 128 := by
  have hfield := calcExp_false_toNat e
  rw [calcExp, if_neg (by decide)] at hfield
  rw [calcExp, if_pos rfl]
  generalize BitVec.ofInt 7 (expZero + e) = field at hfield
  have hneg : (~~~field + 1).toNat = (128 - field.toNat) % 128 := by
    rw [BitVec.toNat_add, BitVec.toNat_not]
    have := field.isLt
    change (128 - 1 - field.toNat + 1) % 128 = _
    omega
  rw [hneg]
  have := field.isLt
  omega

/-- Counting the field up, or down for a negative number, adds one to the exponent, and wraps as it
does. -/
theorem calcExp_succ (negative : Bool) (e : ℤ) :
    (if negative then calcExp negative e - 1 else calcExp negative e + 1) =
    calcExp negative (e + 1) := by
  have hone : (1 : BitVec 7).toNat = 1 := rfl
  cases negative with
  | false =>
    have h := calcExp_false_toNat e
    have h' := calcExp_false_toNat (e + 1)
    rw [if_neg (by decide)]
    apply eq_of_toNat_eq
    rw [toNat_add, hone]
    omega
  | true =>
    have h := calcExp_true_toNat e
    have h' := calcExp_true_toNat (e + 1)
    rw [if_pos rfl]
    apply eq_of_toNat_eq
    rw [toNat_sub, hone]
    omega

section

variable {negative : Bool} {e : ℤ} (m : List ℕ)

/-! What the check sees of an exponent, by its remainder. -/

theorem isGe1_iff : (mk negative (calcExp negative e) m).isGe1
    ↔ e % 128 ≤ 63 ∨ negative = true ∧ e % 128 = 64 := by
  simp only [isGe1, expZero]
  cases negative with
  | false =>
    have := calcExp_false_toNat e
    simp only [Bool.false_eq_true, false_and, false_or, or_false, true_and]
    omega
  | true =>
    have := calcExp_true_toNat e
    simp only [Bool.true_eq_false, false_and, or_false, true_and]
    omega

theorem isLt1_iff : (mk negative (calcExp negative e) m).isLt1 ↔ 65 ≤ e % 128 := by
  simp only [isLt1, expZero]
  cases negative with
  | false =>
    have := calcExp_false_toNat e
    simp only [Bool.false_eq_true, false_and, false_or, true_and]
    omega
  | true =>
    have := calcExp_true_toNat e
    simp only [Bool.true_eq_false, false_and, or_false, true_and]
    omega

theorem abs_exp : |((calcExp negative e).toNat : ℤ) - expZero|
    = if e % 128 ≤ 63 then e % 128 else 128 - e % 128 := by
  rw [expZero]
  cases negative with
  | false =>
    have := calcExp_false_toNat e
    rcases abs_cases (((calcExp false e).toNat : ℤ) - 64) with ⟨h, _⟩ | ⟨h, _⟩ <;> rw [h] <;> split
      <;> omega
  | true =>
    have := calcExp_true_toNat e
    rcases abs_cases (((calcExp true e).toNat : ℤ) - 64) with ⟨h, _⟩ | ⟨h, _⟩ <;> rw [h] <;> split
      <;> omega

theorem expCheck_calcExp : (mk negative (calcExp negative e) m).expCheck
    = if 15 ≤ e % 128 ∧ (e % 128 ≤ 63 ∨ negative = true ∧ e % 128 = 64) then
        .error .integerPrecisionOverflow
      else if 65 ≤ e % 128 ∧ e % 128 ≤ 112 then .error .decimalPrecisionOverflow else .ok () := by
  rw [expCheck]
  simp only [isGe1_iff, isLt1_iff, abs_exp, maxIntegerExp, maxDecimalExp]
  refine if_congr ?_ rfl (if_congr ?_ rfl rfl)
  · constructor
    · rintro ⟨h, h'⟩
      refine ⟨?_, h⟩
      split at h' <;> omega
    · rintro ⟨h, h'⟩
      refine ⟨h', ?_⟩
      split <;> omega
  · constructor
    · rintro ⟨h, h'⟩
      split at h <;> omega
    rintro ⟨h, h'⟩
    refine ⟨?_, h⟩
    split <;> omega

theorem checked_overflow (h : 15 ≤ e % 128 ∧ (e % 128 ≤ 63 ∨ negative = true ∧ e % 128 = 64)) :
    (mk negative (calcExp negative e) m).checked = .error .integerPrecisionOverflow := by
  rw [checked, expCheck_calcExp, if_pos h]

theorem checked_zero (h : 65 ≤ e % 128 ∧ e % 128 ≤ 112) :
    (mk negative (calcExp negative e) m).checked = .ok zero := by
  rw [checked, expCheck_calcExp, if_neg (by omega), if_pos h]

theorem checked_ok (h : e % 128 ≤ 14 ∨ 113 ≤ e % 128 ∨ negative = false ∧ e % 128 = 64) :
    (mk negative (calcExp negative e) m).checked = .ok ⟨negative, calcExp negative e, m⟩ ∧
      (mk negative (calcExp negative e) m).getDecodeExp
        = if e % 128 ≤ 14 then e % 128 else e % 128 - 128 := by
  refine ⟨?_, ?_⟩
  · rw [checked, expCheck_calcExp, if_neg, if_neg (by omega)]
    rintro ⟨h₁, h₂ | ⟨rfl, h₂⟩⟩
    · omega
    simp only [Bool.true_eq_false, false_and, or_false] at h
    omega
  rw [getDecodeExp, expZero]
  dsimp only
  cases negative with
  | false =>
    have := calcExp_false_toNat e
    rw [if_neg (by simp)]
    split <;> omega
  | true =>
  have := calcExp_true_toNat e
  simp only [Bool.true_eq_false, false_and, or_false] at h
  simp only [true_and, ne_eq, ite_not]
  split <;> split <;> omega

end

end OceanBase.Number
