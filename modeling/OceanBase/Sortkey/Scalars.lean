import OceanBase.Sortkey.Order
import OceanBase.Lib.RadixWords

/-!
# Sort keys of times, intervals and decimal integers

An integer is coded by its bytes, the highest one first: the sign bit is flipped, the bytes are
swapped, and the memory, little endian, is copied. The nanoseconds of a timestamp have 16 bits but
are swapped as if they had 32, and what is copied is zero.

## Main results

* `temporal_keys_order_iff`, `timestamp_keys_equal`
-/

namespace OceanBase.Sortkey

open LexCode Int Fin

/-! ## Integers in memory -/

/-- The `w` bytes of an unsigned integer, as they lie in memory. -/
def leBytes : ℕ → ℕ → List Byte
  | 0, _ => []
  | w + 1, n => Fin.ofNat 256 n :: leBytes w (n / 256)

def ofLeBytes : List Byte → ℕ
  | [] => 0
  | b :: l => b + 256 * ofLeBytes l

/-- `bswap_32` and `bswap_64`, for `w` bytes. -/
def bswap (w n : ℕ) : ℕ := ofLeBytes (leBytes w n).reverse

/-- The two's complement of a signed integer of `w` bytes. -/
def toUnsigned (w : ℕ) (v : ℤ) : ℕ := (v % 2 ^ (8 * w)).toNat

/-- `SIGN_MASK_32` and `SIGN_MASK_64`, for `w` bytes. -/
def signMask (w : ℕ) : ℕ := 2 ^ (8 * w - 1)

/-- `encode_from_int32` and `encode_from_int`, for `w` bytes. -/
def encodeFromInt (w : ℕ) (v : ℤ) : List Byte := leBytes w (bswap w (toUnsigned w v ^^^ signMask w))

/-- `encode_from_timestamp`; `nsec` is a `uint16_t`. -/
def encodeFromTimestamp (timeUs : ℤ) (nsec : ℕ) : List Byte :=
  encodeFromInt 8 timeUs ++ leBytes 2 (bswap 4 nsec % 2 ^ 16)

def encodeFromIntervalDs (nsec fracNsec : ℤ) : List Byte :=
  encodeFromInt 8 nsec ++ encodeFromInt 4 fracNsec

/-- The loop over the `items_` of a wide integer below `i`. -/
def encodeItems (v : ℤ) : ℕ → List Byte
  | 0 => []
  | i + 1 => leBytes 8 (bswap 8 (toUnsigned 8 (v / 2 ^ (64 * i)))) ++ encodeItems v i

/-- `encode_from_decint` of a wide integer: only the highest item has a sign. -/
def encodeFromWide (itemCount : ℕ) (v : ℤ) : List Byte :=
  encodeFromInt 8 (v / 2 ^ (64 * (itemCount - 1))) ++ encodeItems v (itemCount - 1)

/-- `encode_from_decint`; `none` is `OB_ERR_UNEXPECTED`. -/
def encodeFromDecint (intBytes : ℕ) (v : ℤ) : Option (List Byte) :=
  match intBytes with
  | 4 => some (encodeFromInt 4 v)
  | 8 => some (encodeFromInt 8 v)
  | 16 => some (encodeFromWide 2 v)
  | 32 => some (encodeFromWide 4 v)
  | 64 => some (encodeFromWide 8 v)
  | _ => none

/-- The fraction does not have the other sign. -/
def SameSign (s f : ℤ) : Prop := (0 < s → 0 ≤ f) ∧ (s < 0 → f ≤ 0)

/-- The integer fits in `w` bytes. -/
def Fits (w : ℕ) (v : ℤ) : Prop := -2 ^ (8 * w - 1) ≤ v ∧ v < 2 ^ (8 * w - 1)

/-! ## Bytes, highest first -/

/-- The number of a string of bytes, the highest one first. -/
def beVal (l : List Byte) : ℕ := natVal 256 (l.map Fin.val)

variable {w i : ℕ} {l l' : List Byte} {u v : ℤ}

theorem beVal_cons (a : Byte) (l : List Byte) : beVal (a :: l) = a * 256 ^ l.length + beVal l := by
  simp [beVal, natVal_cons]

theorem beVal_append (l l' : List Byte) :
    beVal (l ++ l') = beVal l * 256 ^ l'.length + beVal l' := by
  simp [beVal, natVal_append]

theorem beVal_lt (l : List Byte) : beVal l < 256 ^ l.length := by
  simpa [beVal] using natVal_lt (show ∀ x ∈ l.map val, x < 256 by simp)

theorem cmp_mul_add {a b k r s : ℕ} (hr : r < k) (hs : s < k) :
    cmp (a * k + r) (b * k + s) = (cmp a b).then (cmp r s) := by
  rcases lt_trichotomy a b with h | rfl | h
  · have : a * k + k ≤ b * k := by nlinarith
    rw [(cmp_eq_lt_iff _ _).mpr h, (cmp_eq_lt_iff _ _).mpr (by omega)]
    rfl
  · rw [cmp_self_eq_eq, Ordering.eq_then]
    simp only [cmp, cmpUsing, Nat.add_lt_add_iff_left]
  · have : b * k + k ≤ a * k := by nlinarith
    rw [(cmp_eq_gt_iff _ _).mpr h, (cmp_eq_gt_iff _ _).mpr (by omega)]
    rfl

/-- **Strings of one length compare as their numbers.** -/
theorem firstDiff_eq_cmp (h : l.length = l'.length) :
    firstDiff l l' = some (cmp (beVal l) (beVal l')) := by
  induction l generalizing l' with
  | nil => cases l' <;> simp_all
  | cons a l ih =>
    cases l' with
    | nil => cases h
    | cons b l' =>
    have h : l.length = l'.length := by simpa using h
    rw [beVal_cons, beVal_cons, ← h, cmp_mul_add (beVal_lt l) (h ▸ beVal_lt l')]
    by_cases hab : a = b
    · rw [hab, firstDiff_cons_self, ih h, cmp_self_eq_eq, Ordering.eq_then]
    rw [firstDiff_cons_of_ne hab, cmp_then (val_injective.ne hab)]
    rfl

@[simp] theorem length_leBytes (w n : ℕ) : (leBytes w n).length = w := by
  induction w generalizing n with
  | zero => rfl
  | succ w ih => simp [leBytes, ih]

theorem leBytes_ofLeBytes (l : List Byte) : leBytes l.length (ofLeBytes l) = l := by
  induction l with
  | nil => rfl
  | cons b l ih =>
  have hdiv : (b + 256 * ofLeBytes l) / 256 = ofLeBytes l := by have := b.isLt; omega
  rw [List.length_cons, leBytes, ofLeBytes, hdiv, ih]
  congr 1
  exact Fin.ext (by simp [Fin.ofNat])

theorem leBytes_bswap (w n : ℕ) : leBytes w (bswap w n) = (leBytes w n).reverse := by
  simpa [bswap] using leBytes_ofLeBytes (leBytes w n).reverse

theorem beVal_bswap (w n : ℕ) : beVal (leBytes w (bswap w n)) = n % 256 ^ w := by
  rw [leBytes_bswap]
  induction w generalizing n with
  | zero => simp [leBytes, beVal, Nat.mod_one]
  | succ w ih =>
  have hmod : n % 256 ^ (w + 1) = n / 256 % 256 ^ w * 256 + n % 256 := by
    rw [pow_succ', Nat.mod_mul]
    omega
  rw [leBytes, List.reverse_cons, beVal_append, ih, hmod]
  simp [beVal, natVal]

/-! ## Flipping the sign -/

theorem pow_256 (n : ℕ) : (256 : ℤ) ^ n = 2 ^ (8 * n) := by
  rw [pow_mul]
  rfl

theorem two_pow_bits (hw : 0 < w) : (2 : ℤ) ^ (8 * w) = 2 * 2 ^ (8 * w - 1) := by
  rw [← pow_succ']
  congr 1
  omega

theorem toUnsigned_xor (hw : 0 < w) (hv : Fits w v) :
    ((toUnsigned w v ^^^ signMask w : ℕ) : ℤ) = v + 2 ^ (8 * w - 1) := by
  obtain ⟨hlow, hhigh⟩ := hv
  have hpow := two_pow_bits hw
  unfold toUnsigned signMask
  rcases lt_or_ge v 0 with hneg | hpos
  · obtain ⟨r, hr⟩ := eq_ofNat_of_zero_le (show 0 ≤ v + 2 ^ (8 * w - 1) by omega)
    have hlt : r < 2 ^ (8 * w - 1) := by zify; omega
    have hmod : v % 2 ^ (8 * w) = ((2 ^ (8 * w - 1) + r : ℕ) : ℤ) := by
      rw [← add_emod_right, hpow, emod_eq_of_lt (by omega) (by omega)]
      push_cast
      omega
    rw [hmod, toNat_natCast, ← xor_two_pow hlt, Nat.xor_assoc, Nat.xor_self, Nat.xor_zero, hr]
  · obtain ⟨r, rfl⟩ := eq_ofNat_of_zero_le hpos
    have hlt : r < 2 ^ (8 * w - 1) := by exact_mod_cast hhigh
    rw [emod_eq_of_lt hpos (by omega), toNat_natCast, xor_two_pow hlt]
    push_cast
    ring

/-- **The code of a signed integer** is the integer above the smallest one. -/
theorem beVal_encodeFromInt (hw : 0 < w) (hv : Fits w v) :
    (beVal (encodeFromInt w v) : ℤ) = v + 2 ^ (8 * w - 1) := by
  have h := toUnsigned_xor hw hv
  have hpow := two_pow_bits hw
  rw [encodeFromInt, beVal_bswap, Nat.mod_eq_of_lt, h]
  obtain ⟨hlow, hhigh⟩ := hv
  zify
  rw [h, pow_256]
  omega

theorem beVal_encodeItems (v : ℤ) (i : ℕ) : (beVal (encodeItems v i) : ℤ) = v % 2 ^ (64 * i) ∧
    (encodeItems v i).length = 8 * i := by
  induction i with
  | zero => simp [encodeItems, beVal]
  | succ i ih =>
  obtain ⟨hval, hlen⟩ := ih
  refine ⟨?_, by simp [encodeItems, hlen]; ring⟩
  have hitem : toUnsigned 8 (v / 2 ^ (64 * i)) < 256 ^ 8 := by
    unfold toUnsigned
    omega
  have hmod : v % 2 ^ (64 * (i + 1)) =
    v / 2 ^ (64 * i) % 2 ^ 64 * 2 ^ (64 * i) + v % 2 ^ (64 * i) := by
    rw [show 64 * (i + 1) = 64 * i + 64 by ring, pow_add, emod_def, emod_def (v / _),
      emod_def v (2 ^ (64 * i)), ← ediv_ediv_of_nonneg (by positivity)]
    ring
  rw [encodeItems, beVal_append, beVal_bswap, Nat.mod_eq_of_lt hitem, hlen]
  push_cast
  rw [hval, hmod, toUnsigned, toNat_of_nonneg (emod_nonneg _ (by norm_num)),
    pow_256, ← mul_assoc]
  rfl

theorem beVal_encodeFromWide {n} (hv : Fits (8 * (n + 1)) v) :
    (beVal (encodeFromWide (n + 1) v) : ℤ) = v + 2 ^ (8 * (8 * (n + 1)) - 1) := by
  obtain ⟨hval, hlen⟩ := beVal_encodeItems v n
  have hexp : 8 * (8 * (n + 1)) - 1 = 64 * n + 63 := by omega
  obtain ⟨hlow, hhigh⟩ := hv
  rw [hexp, pow_add] at hlow hhigh ⊢
  have hpos : (0 : ℤ) < 2 ^ (64 * n) := by positivity
  have hfits : Fits 8 (v / 2 ^ (64 * n)) :=
    ⟨(Int.le_ediv_iff_mul_le hpos).mpr (by linear_combination hlow),
      Int.ediv_lt_of_lt_mul hpos (by linear_combination hhigh)⟩
  have hdiv := Int.mul_ediv_add_emod v (2 ^ (64 * n))
  rw [encodeFromWide, Nat.add_sub_cancel, beVal_append, hlen]
  push_cast
  rw [beVal_encodeFromInt (by decide) hfits, hval, pow_256, ← mul_assoc]
  norm_num
  linarith

/-! ## The order of the keys -/

theorem firstDiff_of_beVal {c : ℤ} (h : l.length = l'.length) (hu : (beVal l : ℤ) = u + c)
    (hv : (beVal l' : ℤ) = v + c) : firstDiff l l' = some (cmp u v) := by
  have hlt : beVal l < beVal l' ↔ u < v := by omega
  have hgt : beVal l' < beVal l ↔ v < u := by omega
  rw [firstDiff_eq_cmp h]
  simp only [cmp, cmpUsing, hlt, hgt]

theorem firstDiff_encodeFromInt (hw : 0 < w) (hu : Fits w u) (hv : Fits w v) :
    firstDiff (encodeFromInt w u) (encodeFromInt w v) = some (cmp u v) :=
  firstDiff_of_beVal (by simp [encodeFromInt]) (beVal_encodeFromInt hw hu)
    (beVal_encodeFromInt hw hv)

theorem firstDiff_encodeFromWide {n} (hu : Fits (8 * (n + 1)) u) (hv : Fits (8 * (n + 1)) v) :
    firstDiff (encodeFromWide (n + 1) u) (encodeFromWide (n + 1) v) = some (cmp u v) := by
  refine firstDiff_of_beVal ?_ (beVal_encodeFromWide hu) (beVal_encodeFromWide hv)
  simp [encodeFromWide, encodeFromInt, (beVal_encodeItems _ n).2]

/-- The nanoseconds are lost. -/
theorem encodeFromTimestamp_eq {nsec : ℕ} (h : nsec < 2 ^ 16) (timeUs : ℤ) :
    encodeFromTimestamp timeUs nsec = encodeFromInt 8 timeUs ++ [0, 0] := by
  have hswap : bswap 4 nsec % 2 ^ 16 = 0 := by
    have hupper : nsec / 256 / 256 = 0 := by omega
    simp [bswap, leBytes, ofLeBytes, hupper]
    omega
  rw [encodeFromTimestamp, hswap]
  rfl

/-- **Times, intervals and decimal integers.** The keys of two timestamps compare as the timestamps
just if these differ in their microseconds or agree in their nanoseconds. The keys of intervals and
of decimal integers of one width always compare as the values. -/
theorem temporal_keys_order_iff (t t' : ℤ) (ns ns' : ℕ) :
    (Fits 8 t → Fits 8 t' → ns ≤ 999 → ns' ≤ 999 →
      (lexCmp (encodeFromTimestamp t ns) (encodeFromTimestamp t' ns') =
        (cmp t t').then (cmp ns ns') ↔ (t = t' → ns = ns'))) ∧
    (∀ s s' f f' : ℤ, Fits 8 s → Fits 8 s' → |f| < 10 ^ 9 → |f'| < 10 ^ 9 →
      SameSign s f → SameSign s' f' →
      lexCmp (encodeFromIntervalDs s f) (encodeFromIntervalDs s' f') =
        cmp (s * 10 ^ 9 + f) (s' * 10 ^ 9 + f')) ∧
    ∀ w ∈ [4, 8, 16, 32, 64], ∀ u v : ℤ, Fits w u → Fits w v →
      ∃ x y, encodeFromDecint w u = some x ∧ encodeFromDecint w v = some y ∧
        lexCmp x y = cmp u v := by
  refine ⟨fun ht ht' hns hns' => ?_, fun s s' f f' hs hs' hf hf' hsign hsign' => ?_, ?_⟩
  · rw [encodeFromTimestamp_eq (by omega), encodeFromTimestamp_eq (by omega),
      lexCmp_append (firstDiff_encodeFromInt (by decide) ht ht')]
    rcases lt_trichotomy t t' with h | rfl | h
    · simp [(cmp_eq_lt_iff _ _).mpr h, h.ne]
    · simp [lexCmp, @eq_comm _ Ordering.eq, cmp_eq_eq_iff]
    · simp [(cmp_eq_gt_iff _ _).mpr h, h.ne']
  · have hfits {f : ℤ} (h : |f| < 10 ^ 9) : Fits 4 f := by
      rw [abs_lt] at h
      constructor <;> norm_num <;> omega
    have hint := firstDiff_encodeFromInt (w := 4) (by decide) (hfits hf) (hfits hf')
    refine (lexCmp_of_firstDiff
      (firstDiff_append (firstDiff_encodeFromInt (by decide) hs hs') hint)).trans ?_
    rw [abs_lt] at hf hf'
    unfold SameSign at hsign hsign'
    rcases lt_trichotomy s s' with h | rfl | h
    · rw [(cmp_eq_lt_iff _ _).mpr h, Ordering.lt_then, eq_comm, cmp_eq_lt_iff]
      omega
    · simp [cmp, cmpUsing]
    · rw [(cmp_eq_gt_iff _ _).mpr h, Ordering.gt_then, eq_comm, cmp_eq_gt_iff]
      omega
  · simp only [List.forall_mem_cons, List.not_mem_nil, false_implies, implies_true, and_true]
    refine ⟨?_, ?_, ?_, ?_, ?_⟩ <;> intro u v hu hv
    iterate 2 exact ⟨_, _, rfl, rfl,
      lexCmp_of_firstDiff (firstDiff_encodeFromInt (by decide) hu hv)⟩
    all_goals exact ⟨_, _, rfl, rfl, lexCmp_of_firstDiff (firstDiff_encodeFromWide hu hv)⟩

theorem timestamp_keys_apart : lexCmp (encodeFromTimestamp 0 1) (encodeFromTimestamp 1 0) = .lt :=
  ((temporal_keys_order_iff 0 1 1 0).1 ⟨by decide, by decide⟩ ⟨by decide, by decide⟩ (by decide)
    (by decide)).mpr (by decide)

theorem timestamp_keys_equal : encodeFromTimestamp 0 1 = encodeFromTimestamp 0 2 := by decide

end OceanBase.Sortkey
