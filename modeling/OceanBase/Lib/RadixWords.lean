import Mathlib

/-!
# Words of a number in a large base

A number is a list of words, the most significant one first. Read as a fraction, the first word is
its integer part and the others follow the point. Rounding to a multiple of a divisor of the base
happens inside one word, and nothing behind that word matters.

## Main definitions

* `fracVal b ws`, `natVal b ws`: the words as a fraction and as a natural number
* `roundTo q x`: the multiple of `q` nearest to `x`, the upper one of two

## Main results

* `fracVal_append`, `fracVal_mul_pow`: the value of a list in two parts, and the two readings
* `roundTo_mul_add`, `roundTo_mul`: rounding next to a multiple, and rounding to scale
* `roundTo_words`: rounding inside a word
-/

open List

/-- The words as a fraction in base `b`. -/
def fracVal (b : ℕ) : List ℕ → ℚ
  | [] => 0
  | w :: ws => w + fracVal b ws / b

/-- The words as a natural number in base `b`. -/
def natVal (b : ℕ) (ws : List ℕ) : ℕ := ws.foldl (fun a w => a * b + w) 0

/-- The multiple of `q` nearest to `x`; of two, the upper one. -/
def roundTo (q x : ℚ) : ℚ := ⌊x / q + 1 / 2⌋ * q

section

variable {b : ℕ}

@[simp] theorem fracVal_nil : fracVal b [] = 0 := rfl

@[simp] theorem fracVal_cons (w : ℕ) (ws : List ℕ) :
    fracVal b (w :: ws) = w + fracVal b ws / b := rfl

@[simp] theorem natVal_nil : natVal b [] = 0 := rfl

@[simp] theorem natVal_concat (ws : List ℕ) (w : ℕ) :
    natVal b (ws ++ [w]) = natVal b ws * b + w := by
  simp [natVal]

theorem natVal_append (l r : List ℕ) :
    natVal b (l ++ r) = natVal b l * b ^ r.length + natVal b r := by
  induction r using reverseRecOn with
  | nil => simp
  | append_singleton r w ih =>
  rw [← append_assoc, natVal_concat, ih, natVal_concat, length_append, length_singleton,
    pow_succ]
  ring

theorem natVal_cons (w : ℕ) (ws : List ℕ) :
    natVal b (w :: ws) = w * b ^ ws.length + natVal b ws := by
  have h := natVal_append (b := b) [w] ws
  rwa [show natVal b [w] = w by simp [natVal], singleton_append] at h

theorem natVal_lt : ∀ {ws}, (∀ w ∈ ws, w < b) → natVal b ws < b ^ ws.length
  | [], _ => by simp
  | w :: ws, h => by
    have ih := natVal_lt fun v hv => h v (mem_cons_of_mem _ hv)
    have hw : w + 1 ≤ b := h w mem_cons_self
    calc natVal b (w :: ws) = w * b ^ ws.length + natVal b ws := natVal_cons w ws
      _ < w * b ^ ws.length + b ^ ws.length := by omega
      _ = (w + 1) * b ^ ws.length := by ring
      _ ≤ b * b ^ ws.length := Nat.mul_le_mul_right _ hw
      _ = b ^ (w :: ws).length := by rw [length_cons, pow_succ']

theorem natVal_of_zeros : ∀ {ws}, (∀ w ∈ ws, w = 0) → natVal b ws = 0
  | [], _ => rfl
  | w :: ws, h => by
    rw [natVal_cons, h w mem_cons_self, natVal_of_zeros fun v hv => h v (mem_cons_of_mem _ hv),
      zero_mul]

theorem fracVal_nonneg : ∀ ws, 0 ≤ fracVal b ws
  | [] => le_rfl
  | w :: ws => by
    have := fracVal_nonneg ws
    rw [fracVal_cons]
    positivity

theorem fracVal_lt (hb : 0 < b) : ∀ {ws}, (∀ w ∈ ws, w < b) → fracVal b ws < b
  | [], _ => by simpa using hb
  | w :: ws, h => by
    have hb' : (0 : ℚ) < b := by exact_mod_cast hb
    have hw : (w : ℚ) + 1 ≤ b := by exact_mod_cast h w mem_cons_self
    have hws : fracVal b ws / b < 1 :=
      (div_lt_one hb').mpr (fracVal_lt hb fun x hx => h x (mem_cons_of_mem _ hx))
    rw [fracVal_cons]
    linarith

theorem fracVal_append (hb : 0 < b) (l r : List ℕ) :
    fracVal b (l ++ r) = fracVal b l + fracVal b r / (b : ℚ) ^ l.length := by
  have hb' : (b : ℚ) ≠ 0 := by exact_mod_cast hb.ne'
  induction l with
  | nil => simp
  | cons w l ih =>
  rw [cons_append, fracVal_cons, fracVal_cons, ih, length_cons, pow_succ]
  field_simp
  ring

/-- The two readings differ by the place of the point. -/
theorem fracVal_mul_pow (hb : 0 < b) (l : List ℕ) :
    fracVal b l * (b : ℚ) ^ l.length = natVal b l * b := by
  have hb' : (b : ℚ) ≠ 0 := by exact_mod_cast hb.ne'
  induction l using reverseRecOn with
  | nil => simp
  | append_singleton l w ih =>
  rw [fracVal_append hb, natVal_concat, length_append, length_singleton, pow_succ, add_mul,
    ← mul_assoc, ih]
  simp only [fracVal_cons, fracVal_nil, zero_div, add_zero]
  push_cast
  field_simp

/-- Words that are all zero at the end do not count. -/
theorem fracVal_append_zeros (hb : 0 < b) (l : List ℕ) {r} (hr : ∀ w ∈ r, w = 0) :
    fracVal b (l ++ r) = fracVal b l := by
  have hzero : fracVal b r = 0 := by
    induction r with
    | nil => rfl
    | cons w r ih =>
    rw [fracVal_cons, hr w mem_cons_self, ih fun x hx => hr x (mem_cons_of_mem _ hx)]
    simp
  rw [fracVal_append hb, hzero, zero_div, add_zero]

/-- A multiple with less than half a unit more is rounded to the multiple. -/
theorem roundTo_mul_add {q} (hq : 0 < q) (k : ℤ) {t} (ht₀ : 0 ≤ t) (ht : t < q / 2) :
    roundTo q (k * q + t) = k * q := by
  have hdiv : (k * q + t) / q + 1 / 2 = k + (t / q + 1 / 2) := by
    field_simp
    ring
  have hsmall : t / q < 1 / 2 := by
    rw [div_lt_iff₀ hq]
    linarith
  have hnonneg : 0 ≤ t / q := div_nonneg ht₀ hq.le
  rw [roundTo, hdiv, Int.floor_intCast_add, Int.floor_eq_zero_iff.mpr ⟨by linarith, by linarith⟩,
    add_zero]

theorem roundTo_mul {q x s} (hs : 0 < s) : roundTo (q * s) (x * s) = roundTo q x * s := by
  rw [roundTo, roundTo, mul_div_mul_right _ _ hs.ne', mul_assoc]

/-- Rounding a number with a fraction below one, by an even divisor. -/
theorem floor_div_add_half {p n : ℕ} (hp : 0 < p) (heven : p % 2 = 0) {t : ℚ} (ht₀ : 0 ≤ t)
    (ht : t < 1) : ⌊((n : ℚ) + t) / p + 1 / 2⌋ = ((n + p / 2) / p : ℕ) := by
  obtain ⟨h, rfl⟩ : ∃ h, p = 2 * h := ⟨p / 2, by omega⟩
  have hh : (0 : ℚ) < h := by exact_mod_cast (by omega : 0 < h)
  have hhalf : 2 * h / 2 = h := by omega
  have hdiv := Nat.div_add_mod (n + h) (2 * h)
  have hmod := Nat.mod_lt (n + h) (by omega : 0 < 2 * h)
  rw [hhalf]
  generalize (n + h) / (2 * h) = k at hdiv ⊢
  generalize (n + h) % (2 * h) = m at hdiv hmod
  have hn : (n : ℚ) + h = 2 * h * k + m := by exact_mod_cast hdiv.symm
  have hm : (m : ℚ) + 1 ≤ 2 * h := by exact_mod_cast hmod
  have hm₀ : (0 : ℚ) ≤ m := by positivity
  rw [Int.floor_eq_iff]
  have hsum : ((n : ℚ) + t) / (2 * h : ℕ) + 1 / 2 = (2 * h * k + m + t) / (2 * h) := by
    rw [← hn]
    push_cast
    field_simp
    ring
  rw [hsum]
  constructor
  · rw [le_div_iff₀ (by positivity)]
    push_cast
    nlinarith
  · rw [div_lt_iff₀ (by positivity)]
    push_cast
    nlinarith

/-- **Rounding inside a word.** To a multiple of a divisor `p` of the base in the place of the word
`w`, only the words up to `w` matter. -/
theorem roundTo_words {p w : ℕ} {l r} (hb : 0 < b) (hp : 0 < p) (heven : p % 2 = 0) (hdvd : p ∣ b)
    (hr : ∀ x ∈ r, x < b) {s : ℚ} (hs : 0 < s) :
    roundTo (p * s) (fracVal b (l ++ w :: r) * (b : ℚ) ^ l.length * s)
      = (natVal b l * b + p * ((w + p / 2) / p) : ℕ) * s := by
  have hb' : (0 : ℚ) < b := by exact_mod_cast hb
  have hp' : (0 : ℚ) < p := by exact_mod_cast hp
  have ht₀ : 0 ≤ fracVal b r / b := div_nonneg (fracVal_nonneg r) hb'.le
  have ht : fracVal b r / b < 1 := (div_lt_one hb').mpr (fracVal_lt hb hr)
  have hval : fracVal b (l ++ w :: r) * (b : ℚ) ^ l.length = ((natVal b l * b + w : ℕ) : ℚ)
      + fracVal b r / b := by
    rw [fracVal_append hb, add_mul, fracVal_mul_pow hb, fracVal_cons,
      div_mul_cancel₀ _ (by positivity)]
    push_cast
    ring
  have hquot : fracVal b (l ++ w :: r) * (b : ℚ) ^ l.length * s / (p * s)
      = (((natVal b l * b + w : ℕ) : ℚ) + fracVal b r / b) / p := by
    rw [hval, mul_div_mul_right _ _ hs.ne']
  obtain ⟨c, rfl⟩ := hdvd
  rw [roundTo, hquot, floor_div_add_half hp heven ht₀ ht]
  have hdiv : (natVal (p * c) l * (p * c) + w + p / 2) / p
      = natVal (p * c) l * c + (w + p / 2) / p := by
    rw [show natVal (p * c) l * (p * c) + w + p / 2 =
      (w + p / 2) + p * (natVal (p * c) l * c) by ring, Nat.add_mul_div_left _ _ hp]
    ring
  rw [hdiv]
  generalize (w + p / 2) / p = k
  push_cast
  ring

end
