import OceanBase.Number.Rounding

/-!
# Rounding at a scale

`round_v3` rounds at a position that is counted from the point. Wherever the point is, the position
lies inside one of the words, behind the last word or before the first one. Inside a word, rounding
the words up to it rounds the value; a carry out of all words gives the next power of the base.

## Main results

* `roundV3_value`
-/

namespace OceanBase.Number

open List

def minScale : ℤ := -84

def maxScale : ℤ := 127

def ObNumber.roundV3 (x : ObNumber) (scale : ℤ) : Except NumErr ObNumber :=
  if x.digits = [] then .ok x
  else if scale < minScale ∨ maxScale < scale then .error .invalidArgument
  else .ok (x.roundScaleV3 scale false)

/-- The form in which numbers are kept: zero, or words below the base without zeros at either
end. -/
def ObNumber.Canonical (x : ObNumber) : Prop := x = zero ∨ Words x.digits

/-- **The value rounded half away from zero**, to a multiple of `10 ^ -scale`. -/
def roundedAt (scale : ℤ) (v : ℚ) : ℚ := (if v < 0 then -1 else 1) * roundTo (10 ^ (-scale)) |v|

theorem roundedAt_signOf {negative scale u} (hu : 0 < u) :
    roundedAt scale (signOf negative * u) = signOf negative * roundTo (10 ^ (-scale)) u := by
  cases negative with
  | false => simp [signOf, roundedAt, hu.le.not_gt, abs_of_pos hu]
  | true => simp [signOf, roundedAt, hu, abs_of_pos hu]

/-! ## The value that is rounded -/

section

variable {ws l r : List ℕ} {w k : ℕ} {e d : ℤ}

theorem roundTo_behind (h : d ≤ 9 * (e - ws.length + 1)) :
    roundTo (10 ^ d) (fracVal base ws * (base : ℚ) ^ e) = fracVal base ws * (base : ℚ) ^ e := by
  have hbase := base_pos'
  obtain ⟨j, hj⟩ : ∃ j : ℕ, 9 * (e - ws.length + 1) = j + d :=
    ⟨(9 * (e - ws.length + 1) - d).toNat, by omega⟩
  have hmul : fracVal base ws * (base : ℚ) ^ e =
    ((natVal base ws * 10 ^ j : ℕ) : ℤ) * (10 : ℚ) ^ d := by
    have hval := fracVal_mul_pow base_pos ws
    have hpow : (base : ℚ) ^ (e - ws.length + 1) = 10 ^ j * 10 ^ d := by
      rw [base_zpow, hj, zpow_add₀ (by norm_num), zpow_natCast]
    rw [zpow_add_one₀ hbase.ne', zpow_sub₀ hbase.ne', zpow_natCast] at hpow
    push_cast
    rw [mul_assoc, ← hpow]
    field_simp
    linear_combination hval
  have hten : (0 : ℚ) < 10 ^ d := zpow_pos (by norm_num) d
  have hround := roundTo_mul_add hten (natVal base ws * 10 ^ j : ℕ) le_rfl (half_pos hten)
  rwa [add_zero, ← hmul] at hround

theorem roundTo_before (hlt : ∀ w ∈ ws, w < base) (h : 9 * (e + 1) < d) :
    roundTo (10 ^ d) (fracVal base ws * (base : ℚ) ^ e) = 0 := by
  have hpos := zpow_pos base_pos' e
  have hten : (0 : ℚ) < 10 ^ d := zpow_pos (by norm_num) d
  have hsmall : fracVal base ws * (base : ℚ) ^ e < 10 ^ d / 2 := by
    have hle : (base : ℚ) ^ (e + 1) ≤ 10 ^ (d - 1) := by
      rw [base_zpow]
      exact zpow_le_zpow_right₀ (by norm_num) (by omega)
    rw [zpow_add_one₀ base_pos'.ne'] at hle
    rw [zpow_sub_one₀ (by norm_num)] at hle
    have := mul_lt_mul_of_pos_right (fracVal_lt base_pos hlt) hpos
    linarith
  have h0 := roundTo_mul_add hten 0 (mul_nonneg (fracVal_nonneg ws) hpos.le) hsmall
  simpa using h0

theorem roundTo_inside (hlt : ∀ v ∈ r, v < base) (hk : 1 ≤ k ∧ k ≤ 9)
    (hd : d = 9 * (e - l.length) + k) :
    roundTo (10 ^ d) (fracVal base (l ++ w :: r) * (base : ℚ) ^ e) =
      ninth l w (10 ^ k) * (base : ℚ) ^ e := by
  obtain ⟨hp, heven, hdvd⟩ := ten_pow_spec hk
  have hunit : (10 : ℚ) ^ d = (10 ^ k : ℕ) / (base : ℚ) ^ l.length * (base : ℚ) ^ e := by
    rw [hd, zpow_add₀ (by norm_num), ← base_zpow, zpow_sub₀ base_pos'.ne', zpow_natCast,
      zpow_natCast]
    push_cast
    ring
  rw [hunit, roundTo_mul (zpow_pos base_pos' e), roundTo_ninth hlt hp heven hdvd]

end

/-! ## The number that is left -/

variable {x y : ObNumber} {l : List ℕ} {v : ℚ}

theorem getDecodeExp_carry (hexp : x.getDecodeExp < 63) (m : List ℕ) :
    (ObNumber.mk x.negative (if x.negative then x.exp - 1 else x.exp + 1) m).getDecodeExp
      = x.getDecodeExp + 1 := by
  obtain ⟨negative, exp, digits⟩ := x
  have hone : (1 : BitVec 7).toNat = 1 := rfl
  unfold ObNumber.getDecodeExp expZero at *
  cases negative with
  | false =>
    simp only [Bool.false_eq_true, false_and, if_false, BitVec.toNat_add, hone] at *
    omega
  | true =>
    simp only [true_and, if_true, BitVec.toNat_sub, hone] at *
    split_ifs at * <;> omega

theorem RoundedAt.value (hexp : x.getDecodeExp < 63) (h : RoundedAt x l v y) :
    y.Canonical ∧ y.value = signOf x.negative * (v * (base : ℚ) ^ x.getDecodeExp) := by
  rcases h with ⟨m, rfl, hm, -, hval⟩ | ⟨rfl, -, rfl⟩ | ⟨rfl, -, rfl⟩
  · exact ⟨.inr hm, by rw [value_mk, hval]; rfl⟩
  · refine ⟨.inr words_one, ?_⟩
    rw [value_mk, getDecodeExp_carry hexp, zpow_add_one₀ base_pos'.ne', fracVal_cons, fracVal_nil]
    push_cast
    ring
  · exact ⟨.inl rfl, by rw [value_zero]; ring⟩

/-- The number `y` is what `x` is to be rounded to. -/
def RoundsTo (x : ObNumber) (scale : ℤ) (y : ObNumber) : Prop :=
  y.Canonical ∧ y.value
    = signOf x.negative * roundTo (10 ^ (-scale))
      (fracVal base x.digits * (base : ℚ) ^ x.getDecodeExp)

section

variable {scale : ℤ} (hw : Words x.digits)
include hw

theorem roundDigit_roundsTo (hexp : x.getDecodeExp < 63) {k n : ℕ} (hn : n < x.digits.length)
    (hk : 1 ≤ k ∧ k ≤ 9) (hd : -scale = 9 * (x.getDecodeExp - n) + k) :
    RoundsTo x scale (roundDigit x (n + 1) n (10 ^ k)) := by
  obtain ⟨l, w, r, rfl, hsplit⟩ : ∃ l w r, l.length = n ∧ x.digits = l ++ w :: r :=
    ⟨x.digits.take n, x.digits[n], x.digits.drop (n + 1), by simp; omega, by simp⟩
  obtain ⟨hp, heven, hdvd⟩ := ten_pow_spec hk
  have hr : ∀ v ∈ r, v < base := fun v hv => hw.lt v (by simp [hsplit, hv])
  have hhead : 0 < (l ++ [w]).headD 0 := by
    have := hw.head
    rw [hsplit] at this
    cases l <;> exact this
  rw [RoundsTo, hsplit, roundTo_inside hr hk hd]
  exact (roundDigit_at hsplit hw.lt hhead hp heven hdvd).value hexp

/-- Without an integer part, at the point: the first word is compared with one half. -/
theorem roundTo_half {digit0 ws} (hcons : x.digits = digit0 :: ws)
    (hexp : x.getDecodeExp = -1) (hd : -scale = 0) :
    roundTo (10 ^ (-scale)) (fracVal base x.digits * (base : ℚ) ^ x.getDecodeExp)
      = if base / 2 ≤ digit0 then 1 else 0 := by
  have hlt := hw.lt
  rw [hcons] at hlt ⊢
  have hround : (digit0 + 10 ^ 9 / 2) / 10 ^ 9 = if base / 2 ≤ digit0 then 1 else 0 := by
    have := hlt digit0 mem_cons_self
    unfold base at *
    split_ifs <;> omega
  rw [← nil_append (digit0 :: ws), roundTo_inside (fun v hv => hlt v (mem_cons_of_mem _ hv))
    (by decide : 1 ≤ 9 ∧ 9 ≤ 9) (by simp [hexp, hd]), ninth, hround, hexp]
  split_ifs <;> norm_num [base]

/-- **The words are rounded as the value is.** -/
theorem roundScaleV3_roundsTo (hexp : x.getDecodeExp < 63) (scale : ℤ) :
    RoundsTo x scale (x.roundScaleV3 scale false) := by
  obtain ⟨digit0, ws, hcons⟩ := exists_cons_of_ne_nil hw.ne_nil
  have hdec : Decides x.getDecodeExp (-scale) digit0 x.digits.length
      (roundAt scale false x.getDecodeExp digit0 x.digits.length) := roundAt_decides
        (by simp [hcons])
  rw [ObNumber.roundScaleV3, hcons]
  dsimp only
  rw [← hcons]
  generalize roundAt scale false x.getDecodeExp digit0 x.digits.length = at' at hdec
  cases hdec with
  | nothing h => exact ⟨.inr hw, by rw [roundTo_behind h]; rfl⟩
  | setZero h => exact ⟨.inl rfl, by rw [roundTo_before hw.lt h, value_zero, mul_zero]⟩
  | setOne hexp' hd h =>
    refine ⟨.inr words_one, ?_⟩
    have hone : (ObNumber.mk x.negative 64 [1]).getDecodeExp = 0 := by cases x.negative <;> rfl
    rw [roundTo_half hw hcons hexp' hd, if_pos h]
    rw [value_mk, hone]
    simp
  | below hexp' hd h =>
    refine ⟨.inl rfl, ?_⟩
    rw [roundTo_half hw hcons hexp' hd, if_neg h.not_ge, value_zero, mul_zero]
  | digit k newLen id powId hid hk hd hlen hpow =>
  obtain ⟨n, rfl⟩ := Int.eq_ofNat_of_zero_le hid.1
  have hn : n < x.digits.length := by omega
  have hround := roundDigit_roundsTo hw hexp hn hk hd
  dsimp only
  rw [roundPows_getD hk hpow, Int.toNat_natCast]
  rcases hlen with rfl | ⟨rfl, rfl, -⟩
  · exact hround
  rw [Int.toNat_natCast]
  exact (roundDigit_len hn (hw.lt _ (getElem_mem _))).symm ▸ hround

end

theorem getDecodeExp_lt (h : x.expCheck = .ok ()) : x.getDecodeExp < 63 := by
  by_contra hlt
  rw [ObNumber.expCheck, if_pos] at h
  · cases h
  unfold ObNumber.getDecodeExp at hlt
  unfold ObNumber.isGe1 maxIntegerExp expZero at *
  cases hn : x.negative <;> simp only [hn] at * <;> grind

/-- **Rounding is exact**: for every number and every scale, `round_v3` succeeds with the value
rounded half away from zero at the scale. The number has passed `exp_check_`, which leaves room for a
carry in the seven bits of the exponent. -/
theorem roundV3_value (hx : x.Canonical) (hexp : x.expCheck = .ok ()) {scale : ℤ}
    (hscale : minScale ≤ scale ∧ scale ≤ maxScale) :
    ∃ y, x.roundV3 scale = .ok y ∧ y.Canonical ∧ y.value = roundedAt scale x.value := by
  rcases hx with rfl | hw
  · refine ⟨zero, rfl, .inl rfl, ?_⟩
    rw [value_zero, roundedAt, roundTo]
    norm_num
  obtain ⟨hcanonical, hvalue⟩ := roundScaleV3_roundsTo hw (getDecodeExp_lt hexp) scale
  refine ⟨_, ?_, hcanonical, ?_⟩
  · rw [ObNumber.roundV3, if_neg hw.ne_nil, if_neg (by omega)]
  rw [hvalue, ← roundedAt_signOf (fracVal_mul_pos hw.head _)]
  rfl

/-- The carry of a negative number through both words: `-999999999.9` is rounded to
`-1000000000`. -/
theorem roundV3_value_carry : ∃ y, (ObNumber.mk true 64 [999999999, 900000000]).roundV3 0 = .ok y ∧
    y.Canonical ∧ y.value = roundedAt 0 (ObNumber.mk true 64 [999999999, 900000000]).value :=
  roundV3_value (.inr ⟨by decide, by decide, by decide⟩) rfl (by decide)

end OceanBase.Number
