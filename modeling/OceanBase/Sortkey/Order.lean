import OceanBase.Sortkey.Encoder

/-!
# Sort keys keep the order of strings

Each of the two string codes is decided inside its code words (`LexCode.firstDiff`): the byte code
because of the escaped 0 bytes, the padded code because a run of spaces starts with the side on
which the next byte lies. The padded code needs runs that fit their 16-bit count.

## Main results

* `firstDiff_convertBin`, `firstDiff_spCode`, `convertBinSp_eq`
-/

namespace OceanBase.Sortkey

open LexCode Nat List

/-! ## The byte code -/

theorem cmp_lt {a b : Byte} (h : a < b) : cmp a b = .lt := (cmp_eq_lt_iff a b).mpr h

theorem cmp_gt {a b : Byte} (h : b < a) : cmp a b = .gt := (cmp_eq_gt_iff a b).mpr h

theorem firstDiff_convertBin_nil (b : Byte) (w : List Byte) :
    firstDiff (convertObCharsetUtf8mb4Bin []) (convertObCharsetUtf8mb4Bin (b :: w)) = some .lt := by
  simp only [convertObCharsetUtf8mb4Bin]
  by_cases hb : b = 0x00
  · subst hb
    rw [if_pos rfl]
    exact (firstDiff_cons_self).trans (firstDiff_cons_of_ne (by decide))
  · rw [if_neg hb]
    apply (firstDiff_cons_of_ne (Ne.symm hb)).trans
    rw [cmp_lt (Fin.pos_of_ne_zero hb)]

theorem firstDiff_convertBin (v w : List Byte) :
    firstDiff (convertObCharsetUtf8mb4Bin v) (convertObCharsetUtf8mb4Bin w) =
      some (lexCmp v w) := by
  induction v generalizing w with
  | nil =>
    cases w with
    | nil => exact firstDiff_self
    | cons b w => exact firstDiff_convertBin_nil b w
  | cons a v ih =>
    cases w with
    | nil =>
      rw [firstDiff_swap, firstDiff_convertBin_nil]
      rfl
    | cons b w =>
    by_cases hab : a = b
    · subst hab
      simp only [convertObCharsetUtf8mb4Bin]
      rw [firstDiff_append_left, ih, lexCmp_cons_self]
    -- both code words begin with the byte itself
    have hhead (c : Byte) (s : List Byte) :
        ∃ s', convertObCharsetUtf8mb4Bin (c :: s) = c :: s' := by
      simp only [convertObCharsetUtf8mb4Bin]
      split_ifs
      · exact ⟨_, rfl⟩
      · exact ⟨_, rfl⟩
    obtain ⟨v', hv⟩ := hhead a v
    obtain ⟨w', hw⟩ := hhead b w
    rw [hv, hw, firstDiff_cons_of_ne hab, lexCmp_cons_of_ne hab]

/-! ## Runs of spaces -/

section Count

variable {k l : ℕ}

theorem xor_two_pow {w} (hk : k < 2 ^ w) : k ^^^ 2 ^ w = 2 ^ w + k := by
  have hor := Nat.two_pow_add_eq_or_of_lt hk 1
  rw [Nat.mul_one] at hor
  rw [hor]
  refine Nat.eq_of_testBit_eq fun i => ?_
  rw [Nat.testBit_xor, Nat.testBit_or, Nat.testBit_two_pow]
  by_cases hi : w = i
  · subst hi
    simp [Nat.testBit_lt_two_pow hk]
  · simp [hi]

theorem xor_sign (hk : k < 2 ^ 15) : k ^^^ 0x8000 = 0x8000 + k := xor_two_pow hk

theorem xor_mask_sign (hk : k < 2 ^ 15) : (k ^^^ 0xFFFF) ^^^ 0x8000 = 0x7FFF - k := by
  have hmask : (k ^^^ 0xFFFF) ^^^ 0x8000 = k ^^^ (2 ^ 15 - 1) := by
    rw [Nat.xor_assoc]
    rfl
  have hsub : 0x7FFF - k = 2 ^ 15 - (k + 1) := by omega
  rw [hmask, hsub]
  refine Nat.eq_of_testBit_eq fun i => ?_
  rw [Nat.testBit_xor, Nat.testBit_two_pow_sub_one, Nat.testBit_two_pow_sub_succ hk]
  by_cases hi : i < 15
  · simp [hi]
  have hk' : k.testBit i = false :=
    Nat.testBit_lt_two_pow (Nat.lt_of_lt_of_le hk (Nat.pow_le_pow_right (by decide) (by omega)))
  simp [hi, hk']

theorem firstDiff_bytes {u u' : ℕ} (hu : u < 2 ^ 16) (hu' : u' < 2 ^ 16) (hne : u ≠ u')
    (x y : List Byte) : firstDiff (Fin.ofNat 256 (u / 256) :: Fin.ofNat 256 u :: x)
      (Fin.ofNat 256 (u' / 256) :: Fin.ofNat 256 u' :: y) = some (cmp u u') := by
  have hval (n : ℕ) : (Fin.ofNat 256 n).val = n % 256 := rfl
  have hcmp (a b : Byte) (c d : ℕ) (hlt : a < b ↔ c < d) (hgt : b < a ↔ d < c) : cmp a b =
    cmp c d := by
    rcases lt_trichotomy c d with h | h | h
    · rw [cmp_lt (hlt.mpr h), (cmp_eq_lt_iff _ _).mpr h]
    · have hab : a = b := by
        refine le_antisymm (not_lt.mp fun hba => ?_) (not_lt.mp fun hab => ?_)
        · exact absurd (hgt.mp hba) (by omega)
        · exact absurd (hlt.mp hab) (by omega)
      rw [(cmp_eq_eq_iff _ _).mpr hab, (cmp_eq_eq_iff _ _).mpr h]
    · rw [cmp_gt (hgt.mpr h), (cmp_eq_gt_iff _ _).mpr h]
  by_cases hhi : (Fin.ofNat 256 (u / 256) : Byte) = Fin.ofNat 256 (u' / 256)
  · have hdiv : u / 256 = u' / 256 := by
      have := congrArg Fin.val hhi
      rw [hval, hval] at this
      omega
    have hlo : (Fin.ofNat 256 u : Byte) ≠ Fin.ofNat 256 u' := by
      intro h
      have := congrArg Fin.val h
      rw [hval, hval] at this
      omega
    rw [hhi, firstDiff_cons_self, firstDiff_cons_of_ne hlo]
    refine congrArg some (hcmp _ _ _ _ ?_ ?_)
    all_goals
      rw [Fin.lt_def, hval, hval]
      omega
  · rw [firstDiff_cons_of_ne hhi]
    have hne' : u / 256 ≠ u' / 256 := fun h => hhi (by rw [h])
    refine congrArg some (hcmp _ _ _ _ ?_ ?_)
    all_goals
      rw [Fin.lt_def, hval, hval]
      omega

theorem firstDiff_spaceCode_side {a c} (ha : a < 0x20) (hc : 0x20 < c) (x y : List Byte) :
    firstDiff (spaceCode k a ++ x) (spaceCode l c ++ y) = some .lt := by
  simp only [spaceCode, if_neg (not_lt.mpr ha.le), if_pos hc]
  exact (firstDiff_cons_self).trans (firstDiff_cons_of_ne (by decide))

theorem firstDiff_spaceCode_below {a c} (ha : a < 0x20) (hc : c < 0x20) (hk : k < 2 ^ 15)
    (hl : l < 2 ^ 15) (hne : k ≠ l) (x y : List Byte) :
    firstDiff (spaceCode k a ++ x) (spaceCode l c ++ y) = some (cmp k l) := by
  simp only [spaceCode, if_neg (not_lt.mpr ha.le), if_neg (not_lt.mpr hc.le), xor_zero,
    xor_sign hk, xor_sign hl]
  refine (firstDiff_cons_self).trans ((firstDiff_cons_self).trans ?_)
  refine (firstDiff_bytes (by omega) (by omega) (by omega) x y).trans ?_
  rw [cmp_add_left]

theorem firstDiff_spaceCode_above {a c} (ha : 0x20 < a) (hc : 0x20 < c) (hk : k < 2 ^ 15)
    (hl : l < 2 ^ 15) (hne : k ≠ l) (x y : List Byte) :
    firstDiff (spaceCode k a ++ x) (spaceCode l c ++ y) = some (cmp l k) := by
  simp only [spaceCode, if_pos ha, if_pos hc, xor_mask_sign hk, xor_mask_sign hl]
  refine (firstDiff_cons_self).trans ((firstDiff_cons_self).trans ?_)
  refine (firstDiff_bytes (by omega) (by omega) (by omega) x y).trans ?_
  rcases lt_or_gt_of_ne hne with hlt | hgt
  · rw [(cmp_eq_gt_iff _ _).mpr hlt, (cmp_eq_gt_iff _ _).mpr (by omega)]
  · rw [(cmp_eq_lt_iff _ _).mpr hgt, (cmp_eq_lt_iff _ _).mpr (by omega)]

end Count

/-! ## The padded code -/

/-- The padded code of a string without trailing spaces, after `k` spaces. -/
def spCode : ℕ → List Byte → List Byte
  | _, [] => [0x20, 0x20]
  | k, b :: s =>
    if b = 0x20 then spCode (k + 1) s
    else (if k = 0 then [] else spaceCode (k % 2 ^ 16) b) ++ b :: spCode 0 s

/-- After `k` spaces, the string does not end with a space. -/
def Closed : ℕ → List Byte → Prop
  | k, [] => k = 0
  | k, b :: s => if b = 0x20 then Closed (k + 1) s else Closed 0 s

/-- **The runs of spaces fit their count**: no byte but a space comes after more than 32767
spaces. -/
def RunsFit : ℕ → List Byte → Prop
  | _, [] => True
  | k, b :: s => if b = 0x20 then RunsFit (k + 1) s else k < 2 ^ 15 ∧ RunsFit 0 s

section Padded

variable {k : ℕ} {b c : Byte} {s t v w : List Byte}

theorem spCode_space : spCode k (0x20 :: s) = spCode (k + 1) s := by
  simp [spCode]

theorem closed_space : Closed k (0x20 :: s) ↔ Closed (k + 1) s := by
  simp [Closed]

theorem runsFit_space : RunsFit k (0x20 :: s) ↔ RunsFit (k + 1) s := by
  simp [RunsFit]

theorem spCode_zero (h : b ≠ 0x20) : spCode 0 (b :: s) = b :: spCode 0 s := by
  simp [spCode, h]

theorem spCode_of_ne (h : b ≠ 0x20) (hk : k ≠ 0) :
    spCode k (b :: s) = spaceCode (k % 2 ^ 16) b ++ b :: spCode 0 s := by
  simp [spCode, h, hk]

theorem closed_of_ne (h : b ≠ 0x20) : Closed k (b :: s) ↔ Closed 0 s := by
  simp [Closed, h]

theorem runsFit_of_ne (h : b ≠ 0x20) : RunsFit k (b :: s) ↔ k < 2 ^ 15 ∧ RunsFit 0 s := by
  simp [RunsFit, h]

theorem spCode_replicate (n : ℕ) : spCode k (replicate n 0x20 ++ s) = spCode (k + n) s := by
  induction n generalizing k with
  | zero => rfl
  | succ n ih =>
  rw [replicate_succ, cons_append, spCode_space, ih]
  congr 1
  omega

theorem runsFit_replicate (n : ℕ) : RunsFit k (replicate n 0x20 ++ s) ↔ RunsFit (k + n) s := by
  induction n generalizing k with
  | zero => rfl
  | succ n ih =>
    rw [replicate_succ, cons_append, runsFit_space, ih, Nat.add_right_comm, Nat.add_assoc]

theorem exists_run (hk : k ≠ 0) (h : Closed k w) :
    ∃ m c t, c ≠ 0x20 ∧ w = replicate m 0x20 ++ c :: t ∧ Closed 0 t := by
  induction w generalizing k with
  | nil => exact absurd h hk
  | cons b w ih =>
  by_cases hb : b = 0x20
  · subst hb
    obtain ⟨m, c, t, hc, rfl, ht⟩ := ih (succ_ne_zero k) (closed_space.mp h)
    exact ⟨m + 1, c, t, hc, rfl, ht⟩
  · exact ⟨0, b, w, hb, rfl, (closed_of_ne hb).mp h⟩

theorem padCmp_nil_cons : padCmp [] (b :: w) = (cmp 0x20 b).then (padCmp [] w) := rfl

theorem padCmp_cons_nil : padCmp (b :: w) [] = (cmp b 0x20).then (padCmp w []) := rfl

theorem padCmp_swap (v w : List Byte) : padCmp w v = (padCmp v w).swap := by
  have hthen (a b : Byte) (o : Ordering) : ((cmp a b).then o).swap = (cmp b a).then o.swap := by
    rw [← cmp_swap a b]
    cases cmp a b <;> rfl
  induction v generalizing w with
  | nil =>
    induction w with
    | nil => rfl
    | cons b w ih => rw [padCmp_nil_cons, padCmp_cons_nil, hthen, ih]
  | cons a v ih =>
    cases w with
    | nil => rw [padCmp_nil_cons, padCmp_cons_nil, hthen, ih]
    | cons b w => rw [padCmp, padCmp, hthen, ih]

theorem padCmp_cons_self (a : Byte) : padCmp (a :: v) (a :: w) = padCmp v w := by
  rw [padCmp, cmp_self_eq_eq]
  rfl

theorem padCmp_cons_of_ne {a b} (h : a ≠ b) : padCmp (a :: v) (b :: w) = cmp a b := by
  rw [padCmp, cmp_then h]

theorem padCmp_nil_replicate (n : ℕ) : padCmp [] (replicate n 0x20 ++ w) = padCmp [] w := by
  induction n with
  | zero => rfl
  | succ n ih =>
  rw [replicate_succ, cons_append, padCmp_nil_cons, cmp_self_eq_eq]
  exact ih

theorem padCmp_nil_of_ne (h : b ≠ 0x20) : padCmp [] (b :: w) = cmp 0x20 b := by
  rw [padCmp_nil_cons, cmp_then (Ne.symm h)]

theorem firstDiff_spCode_nil (hw : Closed 0 w) :
    firstDiff [0x20, 0x20] (spCode 0 w) = some (padCmp [] w) := by
  cases w with
  | nil => rfl
  | cons b w =>
  by_cases hb : b = 0x20
  · subst hb
    obtain ⟨m, c, t, hc, rfl, -⟩ := exists_run (succ_ne_zero 0) (closed_space.mp hw)
    have hpad : padCmp [] (0x20 :: (replicate m 0x20 ++ c :: t)) = cmp 0x20 c :=
      (padCmp_nil_replicate (m + 1)).trans (padCmp_nil_of_ne hc)
    rw [spCode_space, spCode_replicate, spCode_of_ne hc (by omega), hpad]
    -- the end marker lies between the two sides
    refine (firstDiff_cons_self).trans ((firstDiff_cons_of_ne ?_).trans ?_)
    · split_ifs <;> decide
    rcases lt_or_gt_of_ne hc with hlt | hgt
    · rw [if_neg (not_lt.mpr hlt.le), cmp_gt hlt]
      rfl
    · rw [if_pos hgt, cmp_lt hgt]
      rfl
  · rw [spCode_zero hb, padCmp_nil_of_ne hb]
    exact firstDiff_cons_of_ne (Ne.symm hb)

theorem firstDiff_spCode_run (hb : b ≠ 0x20) (hk : k < 2 ^ 15) (hw : Closed (k + 1) w)
    (hfit : RunsFit (k + 1) w) :
    firstDiff (spCode k (b :: s)) (spCode (k + 1) w) = some (cmp b 0x20) := by
  obtain ⟨m, c, t, hc, rfl, -⟩ := exists_run (succ_ne_zero k) hw
  have hm : k + 1 + m < 2 ^ 15 := ((runsFit_of_ne hc).mp ((runsFit_replicate m).mp hfit)).1
  have hmod : (k + 1 + m) % 2 ^ 16 = k + 1 + m := mod_eq_of_lt (by omega)
  rw [spCode_replicate, spCode_of_ne hc (by omega), hmod]
  rcases Nat.eq_zero_or_pos k with rfl | hpos
  · rw [spCode_zero hb]
    exact firstDiff_cons_of_ne hb
  rw [spCode_of_ne hb (by omega), mod_eq_of_lt (by omega)]
  rcases lt_or_gt_of_ne hb with hb | hb
  · rcases lt_or_gt_of_ne hc with hc | hc
    · rw [firstDiff_spaceCode_below hb hc hk hm (by omega), cmp_lt hb,
        (cmp_eq_lt_iff _ _).mpr (by omega)]
    · rw [firstDiff_spaceCode_side hb hc, cmp_lt hb]
  rcases lt_or_gt_of_ne hc with hc | hc
  · rw [firstDiff_swap, firstDiff_spaceCode_side hc hb, cmp_gt hb]
    rfl
  · rw [firstDiff_spaceCode_above hb hc hk hm (by omega), cmp_gt hb,
      (cmp_eq_gt_iff _ _).mpr (by omega)]

theorem firstDiff_spCode_cons {a : Byte} (ha : a ≠ 0x20) (hb : b ≠ 0x20)
    (ih : a = b → firstDiff (spCode 0 v) (spCode 0 w) = some (padCmp v w)) :
    firstDiff (spCode k (a :: v)) (spCode k (b :: w)) = some (padCmp (a :: v) (b :: w)) := by
  have hbytes : firstDiff (a :: spCode 0 v) (b :: spCode 0 w) =
    some (padCmp (a :: v) (b :: w)) := by
    by_cases hab : a = b
    · subst hab
      rw [firstDiff_cons_self, ih rfl, padCmp_cons_self]
    · rw [firstDiff_cons_of_ne hab, padCmp_cons_of_ne hab]
  by_cases hk : k = 0
  · subst hk
    rw [spCode_zero ha, spCode_zero hb, hbytes]
  rw [spCode_of_ne ha hk, spCode_of_ne hb hk]
  rcases lt_or_gt_of_ne ha with ha | ha
  · rcases lt_or_gt_of_ne hb with hb | hb
    · have hsame : spaceCode (k % 2 ^ 16) a = spaceCode (k % 2 ^ 16) b := by
        simp only [spaceCode, if_neg (not_lt.mpr ha.le), if_neg (not_lt.mpr hb.le)]
      rw [hsame, firstDiff_append_left, hbytes]
    · rw [firstDiff_spaceCode_side ha hb, padCmp_cons_of_ne (ha.trans hb).ne, cmp_lt (ha.trans hb)]
  rcases lt_or_gt_of_ne hb with hb | hb
  · rw [firstDiff_swap, firstDiff_spaceCode_side hb ha, padCmp_cons_of_ne (hb.trans ha).ne',
      cmp_gt (hb.trans ha)]
    rfl
  · have hsame : spaceCode (k % 2 ^ 16) a = spaceCode (k % 2 ^ 16) b := by
      simp only [spaceCode, if_pos ha, if_pos hb]
    rw [hsame, firstDiff_append_left, hbytes]

/-- **The padded code keeps the order** of strings whose runs of spaces fit their count. -/
theorem firstDiff_spCode (hv : Closed k v) (hw : Closed k w) (hfv : RunsFit k v)
    (hfw : RunsFit k w) : firstDiff (spCode k v) (spCode k w) = some (padCmp v w) := by
  induction v generalizing k w with
  | nil =>
    cases hv
    exact firstDiff_spCode_nil hw
  | cons a v ih =>
    cases w with
    | nil =>
      cases hw
      have hnil := firstDiff_spCode_nil hv
      rw [padCmp_swap, firstDiff_swap]
      exact congrArg (Option.map Ordering.swap) hnil
    | cons b w =>
    by_cases ha : a = 0x20
    · subst ha
      rw [closed_space] at hv
      rw [runsFit_space] at hfv
      by_cases hb : b = 0x20
      · -- both runs go on
        subst hb
        rw [spCode_space, spCode_space, padCmp_cons_self]
        exact ih hv (closed_space.mp hw) hfv (runsFit_space.mp hfw)
      · rw [spCode_space, firstDiff_swap,
          firstDiff_spCode_run hb ((runsFit_of_ne hb).mp hfw).1 hv hfv,
          padCmp_cons_of_ne (Ne.symm hb)]
        exact congrArg some (cmp_swap b 0x20)
    · by_cases hb : b = 0x20
      · subst hb
        rw [spCode_space, firstDiff_spCode_run ha ((runsFit_of_ne ha).mp hfv).1
          (closed_space.mp hw) (runsFit_space.mp hfw), padCmp_cons_of_ne ha]
      refine firstDiff_spCode_cons ha hb fun _ => ih ?_ ?_ ?_ ?_
      · exact (closed_of_ne ha).mp hv
      · exact (closed_of_ne hb).mp hw
      · exact ((runsFit_of_ne ha).mp hfv).2
      · exact ((runsFit_of_ne hb).mp hfw).2

end Padded

/-! ## The loops -/

/-- The bytes of the string from `data` on. -/
def Reads (str : List Byte) : ℕ → List Byte → Prop
  | _, [] => True
  | data, b :: s => readByte str data = .ok b ∧ Reads str (data + 1) s

section Loops

variable {str init core s : List Byte} {b c : Byte} {n m fuel dE data spCnt : ℕ}

theorem reads_append (x y : List Byte) :
    Reads str data (x ++ y) ↔ Reads str data x ∧ Reads str (data + x.length) y := by
  induction x generalizing data with
  | nil => simp [Reads]
  | cons a x ih =>
  rw [cons_append, Reads, Reads, ih, and_assoc, length_cons, Nat.add_assoc,
    Nat.add_comm 1]

theorem reads_self (str : List Byte) : Reads str 0 str := by
  have h (pre s : List Byte) : Reads (pre ++ s) pre.length s := by
    induction s generalizing pre with
    | nil => trivial
    | cons b s ih =>
    refine ⟨by simp [readByte], ?_⟩
    have hnext := ih (pre ++ [b])
    rw [append_assoc, singleton_append, length_append] at hnext
    exact hnext
  exact h [] str

theorem Reads.replicate (h : Reads str data (replicate n b)) (hm : m < n) :
    readByte str (data + m) = .ok b := by
  have hsplit : List.replicate n b = List.replicate m b ++ b :: List.replicate (n - m - 1) b := by
    rw [← replicate_succ, replicate_append_replicate]
    congr 1
    omega
  rw [hsplit, reads_append] at h
  simpa using h.2.1

theorem closed_concat {k} (hb : b ≠ 0x20) : Closed k (init ++ [b]) := by
  induction init generalizing k with
  | nil => exact (closed_of_ne hb).mpr rfl
  | cons a init ih =>
  by_cases ha : a = 0x20
  · subst ha
    exact closed_space.mpr ih
  · exact (closed_of_ne ha).mpr ih

theorem ok_bind {α β : Type} (a : α) (f : α → Except EncErr β) : (Except.ok a >>= f) = f a := rfl

theorem trimEnd_succ (h : readByte str n = .ok b) :
    trimEnd str (n + 1) = if b = 0x20 then trimEnd str n else .ok (n + 1) := by
  rw [trimEnd, h]
  rfl

theorem countSpaces_succ (h : readByte str data = .ok b) :
    countSpaces str dE (fuel + 1) data spCnt = if b = 0x20 then
        countSpaces str dE fuel (data + 1) (if data + 1 = dE then 0 else (spCnt + 1) % 2 ^ 16)
      else .ok (spCnt, data) := by
  rw [countSpaces, h]
  rfl

theorem spLoop_byte (hdata : data < dE) (h : readByte str data = .ok b) (hb : b ≠ 0x20)
    {out} (hrest : spLoop str dE fuel (data + 1) = .ok out) :
    spLoop str dE (fuel + 1) data = .ok (b :: out) := by
  rw [spLoop, if_pos hdata, h]
  apply (if_neg hb).trans
  rw [hrest]
  rfl

theorem spLoop_run (hdata : data < dE) (h : readByte str data = .ok 0x20)
    (hcount : countSpaces str dE (str.length + 1) data 0 = .ok (spCnt, m))
    (hc : readByte str m = .ok c) {out} (hrest : spLoop str dE fuel (m + 1) = .ok out) :
    spLoop str dE (fuel + 1) data = .ok (spaceCode spCnt c ++ c :: out) := by
  rw [spLoop, if_pos hdata]
  simp only [h, ok_bind, if_true, hcount, hc, hrest]

theorem trimEnd_eq (hb : b ≠ 0x20) (hm : m ≤ n)
    (hstr : Reads str 0 (init ++ b :: replicate n 0x20)) :
    trimEnd str (init.length + 1 + m) = .ok (init.length + 1) := by
  rw [reads_append, Nat.zero_add] at hstr
  induction m with
  | zero =>
    rw [Nat.add_zero, trimEnd_succ hstr.2.1, if_neg hb]
  | succ m ih =>
  have hread := hstr.2.2.replicate (show m < n by omega)
  rw [← Nat.add_assoc, trimEnd_succ hread, if_pos rfl]
  exact ih (by omega)

theorem countSpaces_eq (hc : c ≠ 0x20) (hfuel : m < fuel) (hend : data + m < dE)
    (hcnt : spCnt < 2 ^ 16) (hstr : Reads str data (replicate m 0x20 ++ c :: s)) :
    countSpaces str dE fuel data spCnt = .ok ((spCnt + m) % 2 ^ 16, data + m) := by
  induction m generalizing data fuel spCnt with
  | zero =>
    obtain ⟨fuel, rfl⟩ := Nat.exists_eq_succ_of_ne_zero (Nat.ne_of_gt hfuel)
    rw [countSpaces_succ hstr.1, if_neg hc, Nat.add_zero, Nat.mod_eq_of_lt hcnt, Nat.add_zero]
  | succ m ih =>
  obtain ⟨fuel, rfl⟩ := Nat.exists_eq_succ_of_ne_zero (Nat.ne_of_gt (Nat.zero_lt_of_lt hfuel))
  rw [countSpaces_succ hstr.1, if_pos rfl, if_neg (by omega),
    ih (by omega) (by omega) (Nat.mod_lt _ (by decide)) hstr.2]
  refine congrArg Except.ok (Prod.ext ?_ ?_)
  · change ((spCnt + 1) % 2 ^ 16 + m) % 2 ^ 16 = (spCnt + (m + 1)) % 2 ^ 16
    omega
  · change data + 1 + m = data + (m + 1)
    omega

theorem Reads.length_le (h : Reads str data s) (hs : s ≠ []) : data + s.length ≤ str.length := by
  induction s generalizing data with
  | nil => exact absurd rfl hs
  | cons b s ih =>
    have hlt : data < str.length := by
      by_contra hge
      have hread := h.1
      rw [readByte, getElem?_eq_none (by omega)] at hread
      cases hread
    cases s with
    | nil => exact hlt
    | cons a s =>
    have hle := ih h.2 (cons_ne_nil a s)
    simp only [length_cons] at hle ⊢
    omega

/-- **The main loop** computes the padded code. -/
theorem spLoop_eq (hcore : Closed 0 core) (hfuel : core.length < fuel) (hstr : Reads str data core)
    (hend : dE = data + core.length) : spLoop str dE fuel data = .ok (spCode 0 core) := by
  -- each round takes a byte, or a run of spaces with the byte after it
  induction fuel generalizing data core with
  | zero => omega
  | succ fuel ih =>
    cases core with
    | nil =>
      rw [spLoop, if_neg (by rw [hend]; simp)]
      rfl
    | cons b core =>
    rw [length_cons] at hfuel hend
    by_cases hb : b = 0x20
    · subst hb
      obtain ⟨m, c, t, hc, rfl, ht⟩ := exists_run (Nat.succ_ne_zero 0) (closed_space.mp hcore)
      have hlen : (replicate m (0x20 : Byte) ++ c :: t).length = m + 1 + t.length := by
        simp
        omega
      have hle := hstr.length_le (cons_ne_nil _ _)
      rw [length_cons, hlen] at hle
      rw [hlen] at hend hfuel
      have hrun : Reads str data (replicate (m + 1) 0x20 ++ c :: t) := hstr
      have hcount := countSpaces_eq hc (show m + 1 < str.length + 1 by omega)
        (show data + (m + 1) < dE by omega) (show 0 < 2 ^ 16 by decide) hrun
      rw [reads_append, length_replicate] at hrun
      have hrest := ih ht (by omega) hrun.2.2 (by omega)
      rw [spLoop_run (by omega) hstr.1 hcount hrun.2.1 hrest, spCode_space, spCode_replicate,
        spCode_of_ne hc (by omega), Nat.zero_add, Nat.zero_add, Nat.add_comm 1 m]
    · have hrest := ih ((closed_of_ne hb).mp hcore) (by omega) hstr.2 (by omega)
      rw [spLoop_byte (by omega) hstr.1 hb hrest, spCode_zero hb]

/-- **`convert_ob_charset_utf8mb4_bin_sp`** computes the padded code. -/
theorem convertBinSp_eq (hb : b ≠ 0x20) :
    convertObCharsetUtf8mb4BinSp (init ++ b :: replicate n 0x20) =
      .ok (spCode 0 (init ++ [b])) := by
  have hstr := reads_self (init ++ b :: replicate n 0x20)
  have hlen : (init ++ b :: replicate n (0x20 : Byte)).length = init.length + 1 + n := by
    simp
    omega
  have htrim := trimEnd_eq hb (le_refl n) hstr
  have hcore : Reads (init ++ b :: replicate n 0x20) 0 (init ++ [b]) := by
    rw [reads_append] at hstr ⊢
    exact ⟨hstr.1, hstr.2.1, trivial⟩
  have hloop : spLoop _ (init.length + 1) (init.length + 1 + 1) 0 = .ok (spCode 0 (init ++ [b])) :=
    spLoop_eq (closed_concat hb) (by simp) hcore (by simp)
  unfold convertObCharsetUtf8mb4BinSp
  rw [hlen, htrim]
  exact hloop

end Loops

end OceanBase.Sortkey
