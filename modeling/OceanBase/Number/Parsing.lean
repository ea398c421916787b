import OceanBase.Number.Exponent
import OceanBase.Number.LiteralWords

/-!
# Parsing is rounding, up to the exponent field

The number that `from_v3_` makes of a decimal string has the words of the rounded value. Its
exponent is what seven bits keep of the exponent of the rounded value, and the check that should
refuse an exponent out of range sees no more than these bits. So a long string can be taken for a
short one: the parsing is right when the bits lead the check to the same verdict as the exponent
itself, and only then.

## Main results

* `fromV3_rounds`: when parsing is correct
-/

namespace OceanBase.Number

/-- A correct outcome for a string of the value `v`: an overflow is reported only if the rounded
value has more than 15 words before the point; a number is the rounded value, or zero in its place,
and it is zero only if the value is or its first word is beyond `MAX_DECIMAL_EXP`. -/
def ParsesTo (v : ℚ) : Except NumErr ObNumber → Prop
  | .error .integerPrecisionOverflow => (base : ℚ) ^ 15 ≤ |rounded v|
  | .error _ => False
  | .ok x => (x.value = rounded v ∨ x.value = 0) ∧ (x.value = 0 → v = 0 ∨ expOf v < -maxDecimalExp)

/-- What is left of the exponent `e` in seven bits leads to the right outcome. -/
def FieldTells (negative : Bool) (e : ℤ) : Prop :=
  -15 ≤ e ∧ e ≤ 14 ∨
  15 ≤ e ∧ 15 ≤ e % 128 ∧ (e % 128 ≤ 63 ∨ negative = true ∧ e % 128 = 64) ∨
  e ≤ -16 ∧ (65 ≤ e % 128 ∧ e % 128 ≤ 112 ∨ negative = false ∧ e = -64)

/-! ## The outcome -/

/-- **The outcome of parsing.** The rounded value has words `m` and an exponent `e`. The number has
the field of `e`, and when the field is decoded to `e`, its words `m'` are worth `m`. -/
theorem fromV3_literal {l : Literal} (htext : l.text ≠ []) {ws e₀} (h : l.IsWords ws e₀) :
    ∃ m m' e, Words m ∧ Words m' ∧ (e = e₀ ∨ e = e₀ + 1) ∧
      rounded l.magnitude = fracVal base m * (base : ℚ) ^ e ∧
      fromV3 l.text true = (ObNumber.mk l.negative (calcExp l.negative e) m').checked ∧
      ((ObNumber.mk l.negative (calcExp l.negative e) m').getDecodeExp = e →
        fracVal base m' = fracVal base m) := by
  have hd : ws.headD 0 < base := by
    cases ws with
    | nil => exact base_pos
    | cons w ws => exact h.lt w List.mem_cons_self
  rw [l.fromV3_text htext h, roundScaleV3_take h.lt h.head rfl, h.magnitude,
    rounded_words h.lt h.head]
  generalize hx : ObNumber.mk l.negative (calcExp l.negative e₀) (trimZeros (ws.take 10)) = x
  have hdigits : x.digits = trimZeros (ws.take 10) := by rw [← hx]
  -- the code counts digits by the decoded exponent, the specification by the exponent
  have hspec : ∀ e, Rounded x (ws.headD 0)
    (roundTo (roundPow e (ws.headD 0) / (base : ℚ) ^ 8) (fracVal base ws))
      (if x.digits.length ≤ 8 then x else roundDigit x 9 8 (roundPow e (ws.headD 0))) := fun e => by
    obtain ⟨hp, heven, hdvd⟩ := roundPow_spec e h.head hd
    exact roundDigit_words h.lt h.head hdigits hp heven hdvd
  rcases hspec x.getDecodeExp with ⟨m', hy, hm', -, hval'⟩ | ⟨hy, hfull, hval'⟩
  · rcases hspec e₀ with ⟨m, -, hm, -, hval⟩ | ⟨hy₀, hfull, hval⟩
    · refine ⟨m, m', e₀, hm, hm', .inl rfl, by rw [hval], by rw [hy, ← hx], fun hdec => ?_⟩
      have hdec' : x.getDecodeExp = e₀ := by rw [← hdec, ← hx]; rfl
      rw [hval, hval', hdec']
    -- with a full first word, both count the same digits
    rw [hfull, roundPow_maxValuedDigit _ e₀] at hy hval'
    rw [hfull] at hval
    rw [hval] at hval'
    exact absurd hval' hm'.lt_base.ne
  · refine ⟨[1], [1], e₀ + 1, ?_, ?_, .inr rfl, ?_, ?_, fun _ => rfl⟩
    · exact words_one
    · exact words_one
    · rw [hfull, roundPow_maxValuedDigit _ e₀] at hval'
      rw [hfull, hval', zpow_add_one₀ base_pos'.ne']
      simp [mul_comm]
    · rw [hy, ← calcExp_succ, ← hx]

/-! ## When parsing is correct -/

theorem base_pow_le_abs_iff {m} (hm : Words m) (e : ℤ) :
    (base : ℚ) ^ 15 ≤ |fracVal base m * (base : ℚ) ^ e| ↔ 15 ≤ e := by
  have hpos := fracVal_mul_pos hm.head e
  have hlog := Int.zpow_le_iff_le_log one_lt_base (abs_pos.mpr hpos.ne') (x := 15)
  have hexp := expOf_words hm.lt hm.head e
  rw [expOf] at hexp
  rw [hexp] at hlog
  exact hlog

/-! The verdict on the field, in the three ranges of the remainder. -/

section

variable {negative : Bool} {e : ℤ}

theorem fieldTells_of_overflow (h : 15 ≤ e % 128 ∧
    (e % 128 ≤ 63 ∨ negative = true ∧ e % 128 = 64)) : FieldTells negative e ↔ 15 ≤ e := by
  constructor
  · rintro (he | he | ⟨he, he' | ⟨hneg, rfl⟩⟩)
    · omega
    · exact he.1
    · omega
    rcases h.2 with h' | ⟨hneg', -⟩
    · omega
    · exact absurd (hneg'.symm.trans hneg) (by decide)
  · exact fun he => .inr (.inl ⟨he, h⟩)

theorem fieldTells_of_zero (h : 65 ≤ e % 128 ∧ e % 128 ≤ 112) :
    FieldTells negative e ↔ e ≤ -16 := by
  constructor
  · rintro (he | ⟨he, he'⟩ | he)
    · omega
    · omega
    · exact he.1
  · exact fun he => .inr (.inr ⟨he, .inl h⟩)

theorem fieldTells_of_ok (h : e % 128 ≤ 14 ∨ 113 ≤ e % 128 ∨ negative = false ∧ e % 128 = 64) :
    FieldTells negative e ↔ (if e % 128 ≤ 14 then e % 128 else e % 128 - 128) = e := by
  constructor
  · rintro (he | ⟨he, he', he'' | ⟨hneg, he''⟩⟩ | ⟨he, he' | ⟨hneg, rfl⟩⟩)
    · split <;> omega
    · omega
    · rcases h with h | h | ⟨hneg', -⟩
      · omega
      · omega
      · exact absurd (hneg.symm.trans hneg') (by decide)
    · omega
    · rfl
  · intro he
    rcases h with h | h | ⟨hneg, h⟩
    · rw [if_pos h] at he
      exact .inl ⟨by omega, by omega⟩
    · rw [if_neg (by omega)] at he
      exact .inl ⟨by omega, by omega⟩
    · rw [if_neg (by omega)] at he
      exact .inr (.inr ⟨by omega, .inr ⟨hneg, by omega⟩⟩)

theorem parsesTo_checked {v} (hv : v ≠ 0) {m m' e₀}
    (hm : Words m) (hm' : Words m') (he : e = e₀ ∨ e = e₀ + 1) (hexp : expOf v = e₀)
    (hround : rounded v = signOf negative * (fracVal base m * (base : ℚ) ^ e))
    (hdec : (ObNumber.mk negative (calcExp negative e) m').getDecodeExp = e →
      fracVal base m' = fracVal base m) :
    ParsesTo v (ObNumber.mk negative (calcExp negative e) m').checked ↔ FieldTells negative e := by
  have hcases : (15 ≤ e % 128 ∧ (e % 128 ≤ 63 ∨ negative = true ∧ e % 128 = 64)) ∨
      (65 ≤ e % 128 ∧ e % 128 ≤ 112) ∨
      (e % 128 ≤ 14 ∨ 113 ≤ e % 128 ∨ negative = false ∧ e % 128 = 64) := by
    cases negative <;> simp <;> omega
  rcases hcases with h | h | h
  · rw [checked_overflow m' h, ParsesTo, hround, abs_signOf, base_pow_le_abs_iff hm,
      fieldTells_of_overflow h]
  · rw [checked_zero m' h, ParsesTo, value_zero, fieldTells_of_zero h, hexp, maxDecimalExp]
    simp only [or_true, true_and, hv, false_or, forall_const]
    omega
  obtain ⟨hok, hval⟩ := checked_ok m' h
  have hpos := fracVal_mul_pos hm'.head (ObNumber.mk negative (calcExp negative e) m').getDecodeExp
  have hne : (ObNumber.mk negative (calcExp negative e) m').value ≠ 0 := by
    rw [value_mk]
    exact mul_ne_zero (signOf_ne_zero _) hpos.ne'
  rw [hok, ParsesTo, fieldTells_of_ok h, ← hval]
  simp only [hne, or_false, false_imp_iff, and_true]
  rw [value_mk, hround, mul_right_inj' (signOf_ne_zero _)]
  refine ⟨fracVal_mul_zpow_inj hm' hm, fun hkeep => ?_⟩
  rw [hdec hkeep, hkeep]

end

/-- **Parsing is correct exactly if the exponent of the rounded value is told by its seven
bits.** -/
theorem fromV3_rounds (l : Literal) (htext : l.text ≠ []) : ParsesTo l.value (fromV3 l.text true) ↔
      l.value = 0 ∨ FieldTells l.negative (expOf (rounded l.value)) := by
  have hvalue : l.value = signOf l.negative * l.magnitude := rfl
  rcases l.exists_isWords with ⟨ws, e₀, h⟩ | ⟨hzero, e, hcon⟩
  · obtain ⟨m, m', e, hm, hm', he, hround, hfrom, hdec⟩ := fromV3_literal htext h
    have hmag := h.pos
    have hne : l.value ≠ 0 := by
      rw [hvalue]
      exact mul_ne_zero (signOf_ne_zero _) hmag.ne'
    have hround' : rounded l.value = signOf l.negative * (fracVal base m * (base : ℚ) ^ e) := by
      rw [hvalue, rounded_signOf hmag, hround]
    have hexp : expOf l.value = e₀ := by
      rw [hvalue, expOf_signOf, h.magnitude, expOf_words h.lt h.head]
    rw [hfrom, parsesTo_checked hne hm hm' he hexp hround' hdec, hround', expOf_signOf,
      expOf_words hm.lt hm.head]
    simp [hne]
  · have hvalue0 : l.value = 0 := by rw [hvalue, hzero, mul_zero]
    rw [l.fromV3_eq htext hcon, if_pos List.length_nil, ParsesTo, value_zero, hvalue0]
    simp

theorem fromV3_rounds_short :
    ∃ l : Literal, l.text = ['-', '1', '.', '5'] ∧ l.value = -3 / 2 ∧
      ParsesTo l.value (fromV3 l.text true) :=
  ⟨⟨some true, [1], some [5]⟩, by decide, by decide +kernel,
    (fromV3_rounds ⟨some true, [1], some [5]⟩ (by decide)).mpr (.inr (.inl (by decide +kernel)))⟩

def longOne : Literal := ⟨none, 1 :: List.replicate 1152 0, none⟩

/-- **A one with 1152 zeros is parsed as 1**: its exponent 128 leaves the field of the exponent
0. -/
theorem fromV3_longOne :
    fromV3 longOne.text true = .ok ⟨false, 64, [1]⟩ ∧
      ¬ ParsesTo longOne.value (fromV3 longOne.text true) := by
  have hparse : fromV3 longOne.text true = .ok ⟨false, 64, [1]⟩ := by decide +kernel
  have hone : (ObNumber.mk false 64 [1]).value = 1 := by decide +kernel
  have hround : rounded longOne.value ≠ 1 := by decide +kernel
  refine ⟨hparse, ?_⟩
  rw [hparse, ParsesTo, hone]
  rintro ⟨h | h, -⟩
  · exact hround h.symm
  · exact one_ne_zero h

end OceanBase.Number
