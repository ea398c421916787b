import OceanBase.Number.ObNumber

/-!
# Rounding to 72 digits

The scale 72 of `round_scale_v3_` counts digits from the first one when the number has an integer
part, and from the first word otherwise. In both cases it is the ninth word that is rounded, to a
multiple of a power of ten, and all of its cases about the position of the point lead there. A carry
out of all words leaves the next power of the base.

## Main results

* `roundDigit_words`, `roundScaleV3_take`
-/

namespace OceanBase.Number

open List Nat

theorem getDigitLenV2_spec {d} (hpos : 0 < d) (hd : d < base) :
    1 ≤ getDigitLenV2 d ∧ getDigitLenV2 d ≤ 9 ∧ 10 ^ (getDigitLenV2 d - 1) ≤ d ∧
      d < 10 ^ getDigitLenV2 d := by
  have hb : ¬ base ≤ d := not_le.mpr hd
  rw [getDigitLenV2, if_neg hb, obFastDigits10]
  simp only [base] at hd
  split_ifs <;> refine ⟨by decide, by decide, ?_, ?_⟩ <;> norm_num <;> omega

/-- The modulus by which `round_scale_v3_` rounds the ninth word: with an integer part, 72 digits
are counted from the first digit, and without one from the first word. -/
def roundPow (exp : ℤ) (digit0 : ℕ) : ℕ := if 0 ≤ exp then 10 ^ getDigitLenV2 digit0 else base

/-- What `round_scale_v3_` decides for 72 digits: the ninth word is rounded, if there is one. -/
def RoundsNinth (exp : ℤ) (digit0 : ℕ) (len : ℤ) (r : RoundAt) : Prop :=
  len ≤ 8 ∧ r = .nothing ∨
  8 < len ∧ (∃ powId : ℤ, r = .digit 9 8 powId ∧
    roundPows.getD powId.toNat 0 = roundPow exp digit0) ∨
  8 < len ∧ r = .digit 8 8 0 ∧ roundPow exp digit0 = base

/-- What `round_scale_v3_` decides for words of which the first one has the exponent `exp`, to round
them to a multiple of `10 ^ d`. -/
inductive Decides (exp d : ℤ) (digit0 : ℕ) (len : ℤ) : RoundAt → Prop
  | nothing (h : d ≤ 9 * (exp - len + 1)) : Decides exp d digit0 len .nothing
  | setZero (h : 9 * (exp + 1) < d) : Decides exp d digit0 len .setZero
  | setOne (hexp : exp = -1) (hd : d = 0) (h : base / 2 ≤ digit0) : Decides exp d digit0 len .setOne
  | below (hexp : exp = -1) (hd : d = 0) (h : digit0 < base / 2) : Decides exp d digit0 len .setZero
  | digit (k : ℕ) (newLen id powId : ℤ) (hid : 0 ≤ id ∧ id < len) (hk : 1 ≤ k ∧ k ≤ 9)
    (hd : d = 9 * (exp - id) + k) (hlen : newLen = id + 1 ∨ newLen = id ∧ k = 9 ∧ powId = 0)
    (hpow : powId = 9 - k ∨ powId = 9 ∧ k = 9) : Decides exp d digit0 len (.digit newLen id powId)

theorem roundPows_getD {k : ℕ} {powId : ℤ} (hk : 1 ≤ k ∧ k ≤ 9)
    (h : powId = 9 - k ∨ powId = 9 ∧ k = 9) : roundPows.getD powId.toNat 0 = 10 ^ k := by
  rcases h with rfl | ⟨rfl, rfl⟩
  · obtain ⟨h₁, h₉⟩ := hk
    interval_cases k <;> rfl
  · rfl

/-- **The decision**: the cases of the position of the point, as one. -/
theorem roundAtScale_decides {fs exp exprValue len il vil vdl dl digit0} (hlen : 0 < len)
    (hzero : fs = 0 → exprValue = exp) (hil : 0 ≤ exp ∧ il = exp + 1 ∨ exp < 0 ∧ il = 0)
    (hv : il < len ∧ vil = il ∧ vdl = len - il ∨ len ≤ il ∧ vil = len ∧ vdl = 0)
    (hdl : 0 ≤ exp ∧ dl = vdl ∨ exp < 0 ∧ dl = vdl - exp - 1) :
    Decides exp (-fs) digit0 len (roundAtScale fs exprValue digit0 len il vil vdl dl) := by
  have hnine : ((digitLen : ℕ) : ℤ) = 9 := rfl
  unfold roundAtScale
  simp only [hnine]
  split_ifs
  · exact .nothing (by omega)
  · exact .setZero (by omega)
  · exact .digit (9 - (fs - fs / 9 * 9)).toNat _ _ _ (by omega) (by omega) (by omega)
      (.inl (by omega)) (.inl (by omega))
  · exact .setZero (by omega)
  · exact .nothing (by omega)
  · exact .digit 9 _ _ _ (by omega) (by omega) (by omega) (.inl (by omega)) (.inr (by omega))
  · exact .setZero (by omega)
  · exact .nothing (by omega)
  · exact .digit (0 - fs - (0 - fs) / 9 * 9).toNat _ _ _ (by omega) (by omega) (by omega)
      (.inl (by omega)) (.inl (by omega))
  · exact .nothing (by omega)
  · exact .digit 9 _ _ _ (by omega) (by omega) (by omega) (.inr (by omega)) (.inl (by omega))
  next h => exact .setOne (by omega) (by omega) h.1
  next h =>
    by_cases hexp : exp = -1
    · exact .below hexp (by omega) (by omega)
    · exact .setZero (by omega)

theorem Decides.ninth {exp e len : ℤ} {digit0 k : ℕ} {r : RoundAt} (hk : 1 ≤ k ∧ k ≤ 9)
    (hpow : roundPow e digit0 = 10 ^ k) (h : Decides exp (-(72 - (k + exp * 9))) digit0 len r) :
    RoundsNinth e digit0 len r := by
  cases h with
  | nothing h => exact .inl ⟨by omega, rfl⟩
  | setZero h | setOne hexp hd | below hexp hd => omega
  | digit k' newLen id powId hid hk' hd hlen hpow' =>
  obtain ⟨rfl, rfl⟩ : id = 8 ∧ k' = k := by omega
  rcases hlen with rfl | ⟨rfl, rfl, rfl⟩
  · exact .inr (.inl ⟨hid.2, powId, rfl, by rw [roundPows_getD hk' hpow', hpow]⟩)
  · exact .inr (.inr ⟨hid.2, rfl, hpow⟩)

theorem roundAt_neg {exp : ℤ} {digit0 : ℕ} {len : ℤ} (hexp : exp < 0) (hlen : 0 < len) :
    RoundsNinth exp digit0 len (roundAt floatingScale true exp digit0 len) := by
  have hat : roundAt floatingScale true exp digit0 len
      = roundAtScale (72 - ((9 : ℕ) + -1 * 9)) exp digit0 len 0 0 len len := by
    simp [roundAt, floatingScale, not_le.mpr hexp, hlen]
  rw [hat]
  refine Decides.ninth (k := 9) (by decide) (if_neg (not_le.mpr hexp))
    (roundAtScale_decides hlen ?_ ?_ ?_ ?_)
  all_goals omega

theorem roundAt_nonneg {exp : ℤ} {digit0 : ℕ} (hpos : 0 < digit0) (hlt : digit0 < base) {len : ℤ}
    (hexp : 0 ≤ exp) (hlen : 0 < len) :
    RoundsNinth exp digit0 len (roundAt floatingScale true exp digit0 len) := by
  obtain ⟨h₁, h₉, -, -⟩ := getDigitLenV2_spec hpos hlt
  have hvalid : 0 < if exp + 1 < len then exp + 1 else len := by split <;> omega
  have hat : roundAt floatingScale true exp digit0 len
      = roundAtScale (72 - (getDigitLenV2 digit0 + exp * 9)) exp digit0 len (exp + 1)
        (if exp + 1 < len then exp + 1 else len) (if exp + 1 < len then len - (exp + 1) else 0)
        (if exp + 1 < len then len - (exp + 1) else 0) := by
    simp [roundAt, floatingScale, digitLen, hexp, hvalid]
  rw [hat]
  refine Decides.ninth ⟨h₁, h₉⟩ (if_pos hexp) (roundAtScale_decides hlen ?_ ?_ ?_ ?_)
  · exact fun _ => rfl
  · omega
  · split <;> omega
  · exact .inl ⟨hexp, rfl⟩

/-- **The decision without a floating scale.** -/
theorem roundAt_decides {exp scale digit0 len} (hlen : 0 < len) :
    Decides exp (-scale) digit0 len (roundAt scale false exp digit0 len) := by
  unfold roundAt
  simp only [Bool.false_eq_true, false_and, if_false, and_true]
  generalize hil : (if 0 ≤ exp then exp + 1 else 0) = il
  refine roundAtScale_decides hlen (fun _ => rfl) ?_ ?_ ?_
  · split_ifs at hil <;> omega
  · split_ifs <;> omega
  · split_ifs at hil ⊢ <;> omega

/-! ## Words -/

theorem base_pos : 0 < base := by decide

theorem base_pos' : (0 : ℚ) < base := by exact_mod_cast base_pos

theorem trimZeros_concat (ws : List ℕ) (w : ℕ) :
    trimZeros (ws ++ [w]) = if w = 0 then trimZeros ws else ws ++ [w] := by
  simp [trimZeros, rdropWhile_concat]

theorem exists_trimZeros (ws : List ℕ) : ∃ zs, ws = trimZeros ws ++ zs ∧ ∀ z ∈ zs, z = 0 := by
  induction ws using List.reverseRecOn with
  | nil => exact ⟨[], rfl, by simp⟩
  | append_singleton ws w ih =>
  rw [trimZeros_concat]
  split
  next hw =>
    obtain ⟨zs, hzs, hzero⟩ := ih
    refine ⟨zs ++ [w], ?_, ?_⟩
    · rw [← append_assoc, ← hzs]
    intro z hz
    rcases mem_append.mp hz with h | h
    · exact hzero z h
    · rw [mem_singleton.mp h, hw]
  next => exact ⟨[], by simp, by simp⟩

theorem fracVal_trimZeros (ws : List ℕ) : fracVal base (trimZeros ws) = fracVal base ws := by
  obtain ⟨zs, hzs, hzero⟩ := exists_trimZeros ws
  conv_rhs => rw [hzs]
  exact (fracVal_append_zeros base_pos _ hzero).symm

/-- The words of a number that is not zero: below the base, and neither the first nor the last one
is 0. -/
structure Words (ws : List ℕ) : Prop where
  lt : ∀ w ∈ ws, w < base
  head : 0 < ws.headD 0
  trimmed : trimZeros ws = ws

variable {ws : List ℕ} {l : List ℕ}

theorem Words.ne_nil (h : Words ws) : ws ≠ [] := by
  rintro rfl
  exact absurd h.head (by simp)

theorem words_trimZeros (hlt : ∀ w ∈ ws, w < base) (hhead : 0 < ws.headD 0) :
    Words (trimZeros ws) := by
  obtain ⟨zs, hzs, hzero⟩ := exists_trimZeros ws
  refine ⟨fun w hw => hlt w ?_, ?_, rdropWhile_idempotent _ _⟩
  · rw [hzs]
    exact mem_append_left _ hw
  rw [hzs] at hhead
  cases htrim : trimZeros ws with
  | nil =>
    rw [htrim] at hhead
    cases zs with
    | nil => exact absurd hhead (by simp)
    | cons z zs => exact absurd (hzero z mem_cons_self) (by simpa using hhead.ne')
  | cons w ws' =>
    rw [htrim] at hhead
    exact hhead

theorem one_le_fracVal (hhead : 0 < ws.headD 0) : 1 ≤ fracVal base ws := by
  cases ws with
  | nil => exact absurd hhead (by simp)
  | cons w ws =>
  have hw : (1 : ℚ) ≤ w := by exact_mod_cast hhead
  have := div_nonneg (fracVal_nonneg (b := base) ws) base_pos'.le
  rw [fracVal_cons]
  linarith

theorem Words.lt_base (h : Words ws) : fracVal base ws < base :=
  fracVal_lt base_pos h.lt

/-! ## The carry -/

theorem cast_maxValuedDigit : (maxValuedDigit : ℚ) = base - 1 := by
  rw [maxValuedDigit, cast_sub base_pos, cast_one]

theorem div_pow_length (l : List ℕ) (w : ℕ) :
    (base : ℚ) / base ^ (l ++ [w]).length = 1 / base ^ l.length := by
  have := base_pos'
  rw [length_append, length_singleton, pow_succ]
  field_simp

theorem fracVal_of_carryUp_nil (h : carryUp l.reverse = []) :
    fracVal base l + base / (base : ℚ) ^ l.length = base := by
  induction l using List.reverseRecOn with
  | nil => simp
  | append_singleton l w ih =>
  rw [reverse_append, reverse_singleton, singleton_append, carryUp] at h
  split at h
  next hw =>
    have ih := ih h
    rw [div_pow_length, fracVal_append base_pos, fracVal_cons, fracVal_nil, hw, cast_maxValuedDigit]
    linear_combination ih
  next => exact absurd h (cons_ne_nil _ _)

theorem fracVal_carryUp (h : carryUp l.reverse ≠ []) :
    fracVal base (carryUp l.reverse).reverse = fracVal base l + base / (base : ℚ) ^ l.length := by
  induction l using List.reverseRecOn with
  | nil => exact absurd rfl h
  | append_singleton l w ih =>
  rw [reverse_append, reverse_singleton, singleton_append, carryUp] at h ⊢
  rw [div_pow_length, fracVal_append base_pos l [w], fracVal_cons, fracVal_nil]
  split
  next hw =>
    rw [if_pos hw] at h
    rw [ih h, hw, cast_maxValuedDigit]
    field_simp
    ring
  next =>
    rw [reverse_cons, reverse_reverse, fracVal_append base_pos, fracVal_cons, fracVal_nil]
    push_cast
    ring

theorem words_carryUp (hlt : ∀ w ∈ l, w < base) (hhead : 0 < l.headD 0)
    (h : carryUp l.reverse ≠ []) : Words (carryUp l.reverse).reverse := by
  induction l using List.reverseRecOn with
  | nil => exact absurd rfl h
  | append_singleton l w ih =>
  rw [reverse_append, reverse_singleton, singleton_append, carryUp] at h ⊢
  split
  next hw =>
    rw [if_pos hw] at h
    refine ih (fun v hv => hlt v (mem_append_left _ hv)) ?_ h
    cases l with
    | nil => exact absurd rfl h
    | cons v l => exact hhead
  next hw =>
  rw [reverse_cons, reverse_reverse]
  have hw' := hlt w (by simp)
  refine ⟨fun v hv => ?_, ?_, by rw [trimZeros_concat, if_neg (by omega)]⟩
  · rcases mem_append.mp hv with hv | hv
    · exact hlt v (mem_append_left _ hv)
    rw [mem_singleton.mp hv]
    rw [maxValuedDigit] at hw
    omega
  · cases l with
    | nil => simp
    | cons v l => exact hhead

theorem length_carryUp_le : ∀ l : List ℕ, (carryUp l).length ≤ l.length
  | [] => le_rfl
  | w :: l => by
    rw [carryUp]
    split
    · exact (length_carryUp_le l).trans (by simp)
    · simp

theorem head_of_carryUp_nil (hl : l ≠ []) (h : carryUp l.reverse = []) :
    l.headD 0 = maxValuedDigit := by
  induction l using List.reverseRecOn with
  | nil => exact absurd rfl hl
  | append_singleton l w ih =>
  rw [reverse_append, reverse_singleton, singleton_append, carryUp] at h
  split at h
  next hw =>
    cases l with
    | nil => exact hw
    | cons v l => exact ih (by simp) h
  next => exact absurd h (cons_ne_nil _ _)

/-! ## The ninth word -/

theorem mul_div_of_le_mod {p w} (heven : p % 2 = 0) (h : p / 2 ≤ w % p) (hp : 0 < p) :
    p * ((w + p / 2) / p) = w + (p - w % p) := by
  have hmod := mod_lt w hp
  have hdiv := Nat.div_add_mod w p
  have hone : (w % p + p / 2) / p = 1 := Nat.div_eq_of_lt_le (by omega) (by omega)
  rw [← hdiv, add_assoc, Nat.mul_add_div hp, Nat.mul_add_mod, Nat.mod_mod, hone, Nat.mul_add]
  omega

theorem mul_div_of_mod_lt {p w} (h : w % p < p / 2) (hp : 0 < p) :
    p * ((w + p / 2) / p) = w - w % p := by
  have hdiv := div_add_mod w p
  have hzero : (w % p + p / 2) / p = 0 := div_eq_of_lt (by omega)
  rw [← hdiv, add_assoc, mul_add_div hp, mul_add_mod, mod_mod, hzero, mul_add]
  omega

theorem mul_div_le_of_dvd {b p w} (hdvd : p ∣ b) (hp : 0 < p) (hw : w < b) :
    p * ((w + p / 2) / p) ≤ b := by
  obtain ⟨c, rfl⟩ := hdvd
  have hlt : (w + p / 2) / p < c + 1 := by
    rw [div_lt_iff_lt_mul hp, mul_comm, mul_succ]
    omega
  exact mul_le_mul_left p (le_of_lt_succ hlt)

/-- The words `l` and `w`, with `w` rounded to a multiple of `p`, as a fraction. -/
def ninth (l : List ℕ) (w p : ℕ) : ℚ :=
  fracVal base l + (p * ((w + p / 2) / p) : ℕ) / (base : ℚ) ^ l.length

/-- What rounding words that start with `digit0` leaves: words of the value `v`, or a carry out of
all words. -/
def Rounded (x : ObNumber) (digit0 : ℕ) (v : ℚ) (y : ObNumber) : Prop :=
  (∃ m, y = { x with digits := m } ∧ Words m ∧ m.length ≤ 9 ∧ fracVal base m = v) ∨
  y = ⟨x.negative, if x.negative then x.exp - 1 else x.exp + 1, [1]⟩ ∧
    digit0 = maxValuedDigit ∧ v = base

/-- What rounding a word behind the words `l` leaves: words of the value `v`, a carry out of `l`, or
zero. -/
def RoundedAt (x : ObNumber) (l : List ℕ) (v : ℚ) (y : ObNumber) : Prop :=
  (∃ m, y = { x with digits := m } ∧ Words m ∧ m.length ≤ l.length + 1 ∧ fracVal base m = v) ∨
  y = ⟨x.negative, if x.negative then x.exp - 1 else x.exp + 1, [1]⟩ ∧ carryUp l.reverse = [] ∧
    v = base ∨
  y = zero ∧ l = [] ∧ v = 0

section

variable {x : ObNumber} {l r : List ℕ} {w p : ℕ}

theorem roundDigit_at (hx : x.digits = l ++ w :: r) (hlt : ∀ v ∈ x.digits, v < base)
    (hhead : 0 < (l ++ [w]).headD 0) (hp : 0 < p) (heven : p % 2 = 0) (hdvd : p ∣ base) :
    RoundedAt x l (ninth l w p) (roundDigit x (l.length + 1) l.length p) := by
  have hbase := base_pos'
  have hword : x.digits.getD l.length 0 = w := by rw [hx]; simp
  have htake : x.digits.take l.length = l := by rw [hx]; simp
  have hset : ∀ v, (x.digits.set l.length v).take (l.length + 1) = l ++ [v] := fun v => by
    rw [hx, set_append_right _ _ le_rfl, Nat.sub_self, set_cons_zero, take_length_add_append,
      take_succ_cons, take_zero]
  have hlt' : ∀ v ∈ l, v < base := fun v hv => hlt v (by rw [hx]; exact mem_append_left _ hv)
  have hw : w < base := hlt w (by simp [hx])
  -- the words with `v` in the place of `w`
  have hwords : ∀ v, v < base → (l = [] → 0 < v) → Words (trimZeros (l ++ [v])) :=
    fun v hv hnil => by
    refine words_trimZeros (fun u hu => ?_) ?_
    · rcases mem_append.mp hu with hu | hu
      · exact hlt' u hu
      · rwa [mem_singleton.mp hu]
    · cases l with
      | nil => exact hnil rfl
      | cons u l => exact hhead
  have hval : ∀ v : ℕ, fracVal base (l ++ [v]) = fracVal base l + v / (base : ℚ) ^ l.length :=
    fun v => by
    rw [fracVal_append base_pos, fracVal_cons, fracVal_nil, zero_div, add_zero]
  rw [roundDigit]
  simp only [hword, htake, hset]
  split
  next hup =>
    have hround := mul_div_of_le_mod heven hup hp
    split
    next hfull =>
      have hninth : ninth l w p = fracVal base l + base / (base : ℚ) ^ l.length := by
        rw [ninth, hround, hfull]
      split
      next hnil => exact .inr (.inl ⟨rfl, hnil, by rw [hninth, fracVal_of_carryUp_nil hnil]⟩)
      next v vs hcons =>
      have hne : carryUp l.reverse ≠ [] := by rw [hcons]; simp
      refine .inl ⟨_, rfl, ?_, ?_, ?_⟩
      · rw [← hcons]
        refine words_carryUp hlt' ?_ hne
        cases l with
        | nil => exact absurd rfl hne
        | cons u l => exact hhead
      · have := length_carryUp_le l.reverse
        rw [← hcons, length_reverse]
        rw [length_reverse] at this
        omega
      · rw [← hcons, fracVal_carryUp hne, hninth]
    next hfull =>
      have hle : w + (p - w % p) ≤ base := by
        rw [← hround]
        exact mul_div_le_of_dvd hdvd hp hw
      have hmod := mod_lt w hp
      refine .inl ⟨_, rfl, ?_, by simp, by rw [hval, ninth, hround]⟩
      have := hwords (w + (p - w % p)) (by omega) fun _ => by omega
      rwa [trimZeros_concat, if_neg (by omega)] at this
  next hdown =>
    have hround := mul_div_of_mod_lt (not_le.mp hdown) hp
    have hlen : (trimZeros (l ++ [w - w % p])).length ≤ l.length + 1 := by
      have := ( rdropWhile_prefix (p := (fun v : ℕ => decide (v = 0)))
        (l := l ++ [w - w % p])).length_le
      rwa [length_append, length_singleton] at this
    have hninth : fracVal base (trimZeros (l ++ [w - w % p])) = ninth l w p := by
      rw [fracVal_trimZeros, hval, ninth, hround]
    split
    next hzero =>
      by_cases hnil : l = []
      · rw [hzero, hnil] at hninth
        rw [if_pos (by rw [hnil, hzero]; rfl)]
        exact .inr (.inr ⟨rfl, hnil, by rw [hnil, ← hninth]; rfl⟩)
      · have hwords := hwords (w - w % p) (by omega) fun h => absurd h hnil
        rw [if_neg hwords.ne_nil]
        exact .inl ⟨_, rfl, hwords, hlen, hninth⟩
    next hzero =>
      have hwords := hwords (w - w % p) (by omega) fun _ => by omega
      rw [trimZeros_concat, if_neg hzero] at hwords hlen hninth
      exact .inl ⟨_, rfl, hwords, hlen, hninth⟩

theorem roundDigit_spec (hx : x.digits = l ++ w :: r) (hl : l.length = 8)
    (hlt : ∀ v ∈ x.digits, v < base) (hhead : 0 < l.headD 0) (hp : 0 < p) (heven : p % 2 = 0)
    (hdvd : p ∣ base) : Rounded x (l.headD 0) (ninth l w p) (roundDigit x 9 8 p) := by
  have hl0 : l ≠ [] := by rintro rfl; simp at hl
  have h := roundDigit_at hx hlt (by cases l <;> simp_all) hp heven hdvd
  rw [hl] at h
  rcases h with ⟨m, hy, hm, hlen, hval⟩ | ⟨hy, hfull, hval⟩ | ⟨-, hnil, -⟩
  · exact .inl ⟨m, hy, hm, by omega, hval⟩
  · exact .inr ⟨hy, head_of_carryUp_nil hl0 hfull, hval⟩
  · exact absurd hnil hl0

/-- The two lengths with which a word can be rounded by the whole base make no difference. -/
theorem roundDigit_len {n} (hlen : n < x.digits.length) (hw : x.digits[n] < base) :
    roundDigit x n n base = roundDigit x (n + 1) n base := by
  have hword : x.digits.getD n 0 = x.digits[n] := by simp [hlen]
  have hmod : x.digits[n] % base = x.digits[n] := Nat.mod_eq_of_lt hw
  rw [roundDigit, roundDigit]
  simp only [hword, hmod, Nat.sub_self, if_true]
  split
  · have hfull : x.digits[n] + (base - x.digits[n]) = base := by omega
    rw [if_pos hfull, if_pos hfull]
  have htake : (x.digits.set n 0).take (n + 1) = (x.digits.set n 0).take n ++ [0] := by
    rw [take_succ_eq_append_getElem (by simpa using hlen), getElem_set_self]
  rw [htake, trimZeros_concat, if_pos rfl]

theorem roundScaleV3_eq {digit0 ws} (hx : x.digits = digit0 :: ws)
    (hpos : 0 < digit0) (hws : ∀ w ∈ x.digits, w < base) : x.roundScaleV3 floatingScale true =
      if x.digits.length ≤ 8 then x else roundDigit x 9 8 (roundPow x.getDecodeExp digit0) := by
  have hlen : (0 : ℤ) < x.digits.length := by simp [hx]
  have hlt : digit0 < base := hws _ (by simp [hx])
  have hat : RoundsNinth x.getDecodeExp digit0 x.digits.length
      (roundAt floatingScale true x.getDecodeExp digit0 x.digits.length) := by
    rcases lt_or_ge x.getDecodeExp 0 with hexp | hexp
    · exact roundAt_neg hexp hlen
    · exact roundAt_nonneg hpos hlt hexp hlen
  rw [ObNumber.roundScaleV3, hx]
  dsimp only
  rw [← hx]
  rcases hat with ⟨h8, hat⟩ | ⟨h8, powId, hat, hpow⟩ | ⟨h8, hat, hpow⟩
  · rw [hat, if_pos (by omega)]
  · rw [hat, if_neg (by omega)]
    dsimp only
    rw [hpow]
    rfl
  · rw [hat, if_neg (by omega), hpow]
    refine roundDigit_len (by omega) ?_
    exact hws _ (getElem_mem _)

end

/-! ## The value that is rounded -/

def expOf (v : ℚ) : ℤ := Int.log base |v|

/-- The unit of the last of 72 digits, counted from the first digit of a value with an integer part,
and from the first word of any other. -/
def roundUnit (v : ℚ) : ℚ :=
  if 1 ≤ |v| then 10 ^ (Int.log 10 |v| - 71) else (base : ℚ) ^ (expOf v - 7)

/-- **The value rounded to 72 digits, half away from zero.** -/
def rounded (v : ℚ) : ℚ := (if v < 0 then -1 else 1) * roundTo (roundUnit v) |v|

theorem log_eq_of_zpow {b : ℕ} (hb : 1 < b) {v : ℚ} {e : ℤ} (hle : (b : ℚ) ^ e ≤ v)
    (hlt : v < (b : ℚ) ^ (e + 1)) : Int.log b v = e := by
  have hv : 0 < v := (zpow_pos (by exact_mod_cast hb.le) e).trans_le hle
  refine le_antisymm ?_ ((Int.zpow_le_iff_le_log hb hv).mp hle)
  exact Int.lt_add_one_iff.mp ((Int.lt_zpow_iff_log_lt hb hv).mp hlt)

theorem one_lt_base : 1 < base := by decide

theorem base_eq_pow : (base : ℚ) = 10 ^ 9 := by norm_num [base]

theorem base_zpow (e : ℤ) : (base : ℚ) ^ e = 10 ^ (9 * e) := by
  rw [base_eq_pow, ← zpow_natCast, ← zpow_mul]
  rfl

section

variable {ws : List ℕ} (hlt : ∀ w ∈ ws, w < base) (hhead : 0 < ws.headD 0) (e : ℤ)

include hhead in
theorem fracVal_mul_pos : 0 < fracVal base ws * (base : ℚ) ^ e :=
  mul_pos (lt_of_lt_of_le one_pos (one_le_fracVal hhead)) (zpow_pos base_pos' e)

include hlt hhead

theorem expOf_words : expOf (fracVal base ws * (base : ℚ) ^ e) = e := by
  have hpos := zpow_pos base_pos' e
  rw [expOf, abs_of_pos (fracVal_mul_pos hhead e)]
  refine log_eq_of_zpow one_lt_base ?_ ?_
  · exact le_mul_of_one_le_left hpos.le (one_le_fracVal hhead)
  rw [zpow_add_one₀ base_pos'.ne', mul_comm]
  exact mul_lt_mul_of_pos_left (fracVal_lt base_pos hlt) hpos

theorem log_ten_words :
    Int.log 10 (fracVal base ws * (base : ℚ) ^ e) = 9 * e + getDigitLenV2 (ws.headD 0) - 1 := by
  cases ws with
  | nil => exact absurd hhead (by simp)
  | cons w ws =>
  rw [headD_cons] at hhead ⊢
  obtain ⟨hone, -, hle, hwlt⟩ := getDigitLenV2_spec hhead (hlt w mem_cons_self)
  generalize getDigitLenV2 w = k at *
  have hpos := zpow_pos base_pos' e
  have hfrac : fracVal base ws / base < 1 :=
    (div_lt_one base_pos').mpr (fracVal_lt base_pos fun v hv => hlt v (mem_cons_of_mem _ hv))
  have hnonneg := div_nonneg (fracVal_nonneg (b := base) ws) base_pos'.le
  have hle' : (10 : ℚ) ^ (k - 1) ≤ w := by exact_mod_cast hle
  have hwlt' : (w : ℚ) + 1 ≤ 10 ^ k := by exact_mod_cast hwlt
  rw [fracVal_cons]
  refine log_eq_of_zpow (by decide) ?_ ?_
  · rw [base_zpow, show 9 * e + (k : ℤ) - 1 = ((k - 1 : ℕ) : ℤ) + 9 * e by omega,
      cast_ofNat, zpow_add₀ (by norm_num), zpow_natCast]
    exact mul_le_mul_of_nonneg_right (by linarith) (zpow_nonneg (by norm_num) _)
  · rw [base_zpow, show 9 * e + (k : ℤ) - 1 + 1 = (k : ℤ) + 9 * e by omega,
      cast_ofNat, zpow_add₀ (by norm_num), zpow_natCast]
    exact mul_lt_mul_of_pos_right (by linarith) (zpow_pos (by norm_num) _)

theorem roundUnit_words : roundUnit (fracVal base ws * (base : ℚ) ^ e)
      = roundPow e (ws.headD 0) / (base : ℚ) ^ 8 * (base : ℚ) ^ e := by
  have hbase := base_pos'
  have habs := abs_of_pos (fracVal_mul_pos hhead e)
  have hone : 1 ≤ fracVal base ws * (base : ℚ) ^ e ↔ 0 ≤ e := by
    have := Int.zpow_le_iff_le_log one_lt_base (fracVal_mul_pos hhead e) (x := 0)
    have hexp := expOf_words hlt hhead e
    rw [expOf, habs] at hexp
    rwa [zpow_zero, hexp] at this
  rw [roundUnit, habs, expOf_words hlt hhead]
  simp only [hone, roundPow]
  split
  · rw [log_ten_words hlt hhead, base_zpow, base_eq_pow]
    push_cast
    rw [div_mul_eq_mul_div, ← zpow_natCast, ← zpow_natCast, ← zpow_natCast,
      ← zpow_add₀ (by norm_num), ← zpow_mul, ← zpow_sub₀ (by norm_num)]
    congr 1
    push_cast
    ring
  · rw [div_mul_eq_mul_div, ← zpow_natCast, ← zpow_one_add₀ hbase.ne', ← zpow_sub₀ hbase.ne']
    congr 1
    push_cast
    ring

theorem rounded_words : rounded (fracVal base ws * (base : ℚ) ^ e)
      = roundTo (roundPow e (ws.headD 0) / (base : ℚ) ^ 8) (fracVal base ws) * (base : ℚ) ^ e := by
  rw [rounded, if_neg (fracVal_mul_pos hhead e).le.not_gt, one_mul, roundUnit_words hlt hhead,
    abs_of_pos (fracVal_mul_pos hhead e), roundTo_mul (zpow_pos base_pos' e)]

end

/-! ## Signs -/

def signOf (negative : Bool) : ℚ := if negative then -1 else 1

theorem value_zero : zero.value = 0 := by simp [ObNumber.value, zero]

theorem value_mk (negative : Bool) (exp : BitVec 7) (m : List ℕ) :
    (ObNumber.mk negative exp m).value
      = signOf negative * (fracVal base m * (base : ℚ) ^
        (ObNumber.mk negative exp m).getDecodeExp) := rfl

theorem roundUnit_signOf (negative : Bool) (v : ℚ) :
    roundUnit (signOf negative * v) = roundUnit v := by
  cases negative <;> simp [signOf, roundUnit, expOf]

theorem rounded_signOf {negative v} (hv : 0 < v) :
    rounded (signOf negative * v) = signOf negative * rounded v := by
  have hunit : roundUnit (-v) = roundUnit v := by
    have h := roundUnit_signOf true v
    rwa [signOf, if_pos rfl, neg_one_mul] at h
  cases negative with
  | false => simp [signOf]
  | true =>
  rw [signOf, if_pos rfl, neg_one_mul, neg_one_mul, rounded, rounded, if_pos (by linarith),
    if_neg hv.le.not_gt, hunit, abs_neg, neg_one_mul, one_mul]

theorem expOf_signOf (negative : Bool) (v : ℚ) : expOf (signOf negative * v) = expOf v := by
  cases negative <;> simp [signOf, expOf]

theorem abs_signOf (negative : Bool) (v : ℚ) : |signOf negative * v| = |v| := by
  cases negative <;> simp [signOf]

theorem signOf_ne_zero (negative : Bool) :
    signOf negative ≠ 0 := by cases negative <;> simp [signOf]

theorem fracVal_mul_zpow_inj {m m' : List ℕ} (hm : Words m) (hm' : Words m') {e e' : ℤ}
    (h : fracVal base m * (base : ℚ) ^ e = fracVal base m' * (base : ℚ) ^ e') : e = e' := by
  rw [← expOf_words hm.lt hm.head e, h, expOf_words hm'.lt hm'.head]

theorem words_one : Words [1] := ⟨by decide, by decide, by decide⟩

/-! ## Rounding the first ten words -/

theorem ten_pow_spec {k} (hk : 1 ≤ k ∧ k ≤ 9) : 0 < 10 ^ k ∧ 10 ^ k % 2 = 0 ∧ 10 ^ k ∣ base := by
  obtain ⟨h₁, h₉⟩ := hk
  interval_cases k <;> decide

theorem roundPow_spec (exp : ℤ) {d} (hpos : 0 < d) (hd : d < base) :
    0 < roundPow exp d ∧ roundPow exp d % 2 = 0 ∧ roundPow exp d ∣ base := by
  obtain ⟨h₁, h₉, -, -⟩ := getDigitLenV2_spec hpos hd
  rw [roundPow]
  split
  · exact ten_pow_spec ⟨h₁, h₉⟩
  · decide

theorem roundPow_maxValuedDigit (e e' : ℤ) :
    roundPow e maxValuedDigit = roundPow e' maxValuedDigit := by
  have h : 10 ^ getDigitLenV2 maxValuedDigit = base := by decide
  simp only [roundPow, h, ite_self]

section

variable {l r : List ℕ} {w p : ℕ}

theorem roundTo_ninth (hr : ∀ v ∈ r, v < base) (hp : 0 < p) (heven : p % 2 = 0) (hdvd : p ∣ base) :
    roundTo (p / (base : ℚ) ^ l.length) (fracVal base (l ++ w :: r)) = ninth l w p := by
  have hbase := base_pos'
  have h := roundTo_words (w := w) (l := l) base_pos hp heven hdvd hr
    (s := 1 / (base : ℚ) ^ l.length) (by positivity)
  have hval := fracVal_mul_pow base_pos l
  rw [mul_one_div, mul_one_div, mul_div_cancel_right₀ _ (by positivity)] at h
  rw [ninth, h]
  push_cast
  rw [add_mul, ← hval, mul_one_div, mul_one_div, mul_div_cancel_right₀ _ (by positivity)]

theorem roundTo_short (hl : l.length ≤ 8) (hp : 0 < p) (hdvd : p ∣ base) {t} (ht₀ : 0 ≤ t)
    (ht : t < p / (base : ℚ) ^ 8 / 2) :
    roundTo (p / (base : ℚ) ^ 8) (fracVal base l + t) = fracVal base l := by
  have hbase := base_pos'
  obtain ⟨c, hc⟩ := hdvd
  obtain ⟨k, hk⟩ : ∃ k, 8 = l.length + k := ⟨8 - l.length, by omega⟩
  have hp' : (0 : ℚ) < p := by exact_mod_cast hp
  have hval := fracVal_mul_pow base_pos l
  have hc' : (base : ℚ) = p * c := by exact_mod_cast hc
  have hmul : fracVal base l = ((natVal base l * c * base ^ k : ℕ) : ℤ) * (p / (base : ℚ) ^ 8) := by
    rw [hk, pow_add, ← mul_div_assoc, eq_div_iff (by positivity), ← mul_assoc, hval]
    push_cast
    nth_rewrite 1 [hc']
    ring
  rw [hmul]
  exact roundTo_mul_add (by positivity) _ ht₀ ht

end

theorem tail_lt_half {p : ℕ} (hdrop : fracVal base (ws.drop 10) < base) (hp : 0 < p)
    (heven : p % 2 = 0) :
    fracVal base (ws.drop 10) / (base : ℚ) ^ (ws.take 10).length < p / (base : ℚ) ^ 8 / 2 := by
  have hbase := base_pos'
  have hp' : (2 : ℚ) ≤ p := by exact_mod_cast (by omega : 2 ≤ p)
  have hhalf : 1 / (base : ℚ) ^ 8 ≤ p / (base : ℚ) ^ 8 / 2 := by
    rw [div_right_comm, div_le_div_iff_of_pos_right (by positivity)]
    linarith
  refine lt_of_lt_of_le ?_ hhalf
  rcases lt_or_ge 10 ws.length with hlen | hlen
  · rw [length_take, min_eq_left hlen.le, div_lt_div_iff₀ (by positivity) (by positivity), one_mul,
      show (base : ℚ) ^ 10 = base ^ 8 * base * base by ring]
    have hone : (1 : ℚ) ≤ base := by exact_mod_cast base_pos
    have h₈ : (0 : ℚ) < base ^ 8 := by positivity
    nlinarith [mul_le_mul_of_nonneg_left hone (mul_pos h₈ hbase).le]
  · rw [drop_eq_nil_of_le hlen, fracVal_nil, zero_div]
    positivity

theorem words_take (hlt : ∀ w ∈ ws, w < base) (hhead : 0 < ws.headD 0) :
    Words (trimZeros (ws.take 10)) := by
  refine words_trimZeros (fun w hw => hlt w (mem_of_mem_take hw)) ?_
  cases ws with
  | nil => exact absurd hhead (by simp)
  | cons w ws => exact hhead

section

variable {x : ObNumber} (hlt : ∀ w ∈ ws, w < base) (hhead : 0 < ws.headD 0)
  (hx : x.digits = trimZeros (ws.take 10))
include hlt hhead hx

/-- **Rounding the first ten words rounds the value of all words.** -/
theorem roundDigit_words {p : ℕ} (hp : 0 < p) (heven : p % 2 = 0) (hdvd : p ∣ base) :
    Rounded x (ws.headD 0) (roundTo (p / (base : ℚ) ^ 8) (fracVal base ws))
      (if x.digits.length ≤ 8 then x else roundDigit x 9 8 p) := by
  have hbase := base_pos'
  have hwords : Words x.digits := hx ▸ words_take hlt hhead
  obtain ⟨zs, hzs, hzero⟩ := exists_trimZeros (ws.take 10)
  rw [← hx] at hzs
  have hall : ws = x.digits ++ (zs ++ ws.drop 10) := by
    rw [← append_assoc, ← hzs, take_append_drop]
  have hfirst : x.digits.headD 0 = ws.headD 0 := by
    rw [hall]
    cases hd : x.digits with
    | nil => exact absurd hd hwords.ne_nil
    | cons w ds => rfl
  split
  next h8 =>
    -- behind at most eight words come zeros up to the tenth word
    refine .inl ⟨x.digits, rfl, hwords, by omega, ?_⟩
    have htail : fracVal base ws = fracVal base x.digits
        + fracVal base (ws.drop 10) / (base : ℚ) ^ (ws.take 10).length := by
      have hall' : ws = x.digits ++ zs ++ ws.drop 10 := by rw [← hzs, take_append_drop]
      conv_lhs => rw [hall']
      rw [fracVal_append base_pos, fracVal_append_zeros base_pos _ hzero, ← hzs]
    have hdrop : fracVal base (ws.drop 10) < base :=
      fracVal_lt base_pos fun w hw => hlt w (mem_of_mem_drop hw)
    rw [htail]
    refine (roundTo_short h8 hp hdvd (div_nonneg (fracVal_nonneg _) (by positivity)) ?_).symm
    exact tail_lt_half hdrop hp heven
  next h8 =>
  obtain ⟨l, w, r, hl, hsplit⟩ : ∃ l w r, l.length = 8 ∧ x.digits = l ++ w :: r :=
    ⟨x.digits.take 8, x.digits[8], x.digits.drop 9, by simp; omega, by simp⟩
  have hl0 : l.headD 0 = ws.headD 0 := by
    rw [← hfirst, hsplit]
    cases l with
    | nil => simp at hl
    | cons v l => rfl
  have hrest : ∀ v ∈ r ++ (zs ++ ws.drop 10), v < base := fun v hv => by
    apply hlt v
    rw [hall, hsplit]
    simp only [append_assoc, cons_append, mem_append, mem_cons]
    exact .inr (.inr (by simpa using hv))
  have hround := roundDigit_spec hsplit hl hwords.lt (by rwa [hl0]) hp heven hdvd
  rw [hl0, ← roundTo_ninth hrest hp heven hdvd, hl] at hround
  have hall' : l ++ w :: (r ++ (zs ++ ws.drop 10)) = ws := by
    conv_rhs => rw [hall, hsplit]
    simp
  rwa [hall'] at hround

theorem roundScaleV3_take : x.roundScaleV3 floatingScale true =
      if x.digits.length ≤ 8 then x
        else roundDigit x 9 8 (roundPow x.getDecodeExp (ws.headD 0)) := by
  have hwords : Words x.digits := hx ▸ words_take hlt hhead
  obtain ⟨digit0, ds, hcons⟩ := exists_cons_of_ne_nil hwords.ne_nil
  have hdigit0 : digit0 = ws.headD 0 := by
    obtain ⟨zs, hzs, -⟩ := exists_trimZeros (ws.take 10)
    rw [← hx, hcons] at hzs
    cases ws with
    | nil => simp at hzs
    | cons w ws =>
    rw [take_succ_cons, cons_append] at hzs
    exact (cons.inj hzs).1.symm
  subst hdigit0
  exact roundScaleV3_eq hcons hhead hwords.lt

end

end OceanBase.Number
