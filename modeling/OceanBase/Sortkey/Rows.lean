import OceanBase.Sortkey.Order

/-!
# Sort keys keep the order of rows

The codes of the columns are concatenated, so the order of rows is kept if each column's code is
decided inside its code words. There are strings for which it is not. In a column that compares byte
by byte, the string of a single 0 byte has a code word of its own, which begins with the code word
of the empty string. In a padded column, a string of spaces is read past its beginning, and a run of
more than 32767 spaces overflows its count. Without these strings sort keys keep the order of rows,
and none of them can be allowed.

## Main results

* `sortkey_order_iff`
-/

namespace OceanBase.Sortkey

open LexCode List Nat EncParam

/-- The strings that the code of a column serves. -/
def Good (bytewise : Bool) (v : List Byte) : Prop :=
  if bytewise then v ≠ [0x00] else (v = [] ∨ ∃ b ∈ v, b ≠ 0x20) ∧ RunsFit 0 v

/-- **The sort keys of two rows compare as the rows do**: with any buffer to start with, both rows
get a key without a read outside their strings, and `memcmp` gives the order of the rows. -/
def Preserves (params : List EncParam) (r r' : Row) : Prop :=
  ∀ maxLen, 0 < maxLen → ∃ n key key',
    (∀ fuel, n ≤ fuel → evalEncodeSortkey params r fuel maxLen = .ok key) ∧
      (∀ fuel, n ≤ fuel → evalEncodeSortkey params r' fuel maxLen = .ok key') ∧
      lexCmp key key' = rowCmp params r r'

/-! ## Strings -/

section Strings

variable {param : EncParam} {v w code code' : List Byte} {init : List Byte} {b : Byte} {n m : ℕ}

def IsCode (param : EncParam) (v code : List Byte) : Prop :=
  if param.bytewise then code = convertObCharsetUtf8mb4Bin v
  else ∃ core n, v = core ++ replicate n 0x20 ∧ Closed 0 core ∧ code = spCode 0 core

theorem exists_core (h : ∃ b ∈ v, b ≠ 0x20) :
    ∃ init b n, b ≠ 0x20 ∧ v = init ++ b :: replicate n 0x20 := by
  induction v with
  | nil => simp at h
  | cons a v ih =>
  by_cases hv : ∃ b ∈ v, b ≠ 0x20
  · obtain ⟨init, b, n, hb, rfl⟩ := ih hv
    exact ⟨a :: init, b, n, hb, rfl⟩
  have hall : v = replicate v.length 0x20 :=
    eq_replicate_iff.mpr ⟨rfl, fun b hb => by_contra fun hne => hv ⟨b, hb, hne⟩⟩
  obtain ⟨b, hb, hne⟩ := h
  rcases mem_cons.mp hb with rfl | hb
  · exact ⟨[], b, v.length, hne, congrArg (b :: ·) hall⟩
  · exact absurd ⟨b, hb, hne⟩ hv

theorem runsFit_append_left {k x y} (h : RunsFit k (x ++ y)) : RunsFit k x := by
  induction x generalizing k with
  | nil => trivial
  | cons a x ih =>
  by_cases ha : a = 0x20
  · subst ha
    exact runsFit_space.mpr (ih (runsFit_space.mp h))
  · have h := (runsFit_of_ne ha).mp h
    exact (runsFit_of_ne ha).mpr ⟨h.1, ih h.2⟩

theorem padCmp_append_spaces (x y : List Byte) : padCmp (x ++ replicate n 0x20) y = padCmp x y := by
  have hspaces (m : ℕ) (y : List Byte) : padCmp (replicate m 0x20) y = padCmp [] y := by
    induction m generalizing y with
    | zero => rfl
    | succ m ih =>
      cases y with
      | nil =>
        rw [replicate_succ, padCmp_cons_nil, ih, cmp_self_eq_eq]
        rfl
      | cons b y =>
        rw [replicate_succ, padCmp_nil_cons, ← ih]
        rfl
  induction x generalizing y with
  | nil => exact hspaces n y
  | cons a x ih =>
    cases y with
    | nil => rw [cons_append, padCmp_cons_nil, ih, padCmp_cons_nil]
    | cons b y => rw [cons_append, padCmp, ih, padCmp]

theorem IsCode.firstDiff (hv : IsCode param v code) (hw : IsCode param w code')
    (hgv : Good param.bytewise v) (hgw : Good param.bytewise w) :
    firstDiff code code' = some (param.strCmp v w) := by
  unfold IsCode Good at *
  unfold strCmp
  cases hb : param.bytewise with
  | true =>
    simp only [hb, if_true] at hv hw ⊢
    rw [hv, hw, firstDiff_convertBin]
  | false =>
  simp only [hb, Bool.false_eq_true, if_false] at hv hw hgv hgw ⊢
  obtain ⟨x, n, rfl, hx, rfl⟩ := hv
  obtain ⟨y, m, rfl, hy, rfl⟩ := hw
  have hright : padCmp x (y ++ replicate m 0x20) = padCmp x y := by
    rw [padCmp_swap, padCmp_append_spaces, ← padCmp_swap]
  rw [firstDiff_spCode hx hy (runsFit_append_left hgv.2) (runsFit_append_left hgw.2),
    padCmp_append_spaces, hright]

theorem length_convertBin (v : List Byte) :
    (convertObCharsetUtf8mb4Bin v).length ≤ 2 * v.length + 2 := by
  induction v with
  | nil => simp [convertObCharsetUtf8mb4Bin]
  | cons b v ih =>
  rw [convertObCharsetUtf8mb4Bin, length_append, length_cons]
  split_ifs
  · simp only [length_cons, length_nil]
    omega
  · simp only [length_cons, length_nil]
    omega

theorem length_spCode (k : ℕ) (v : List Byte) : (spCode k v).length ≤ 5 * v.length + 2 := by
  induction v generalizing k with
  | nil => simp [spCode]
  | cons b v ih =>
  rw [length_cons]
  by_cases hb : b = 0x20
  · subst hb
    have := ih (k + 1)
    rw [spCode_space]
    omega
  have := ih 0
  rw [spCode, if_neg hb, length_append, length_cons]
  split_ifs
  · simp only [length_nil]
    omega
  · simp only [spaceCode, length_cons, length_nil]
    omega

/-- What the source returns for a string with room enough. -/
def Encodes (param : EncParam) (v code : List Byte) : Prop :=
  code.length ≤ 7 * v.length + 20 ∧ ∀ m, encodeFromStringVarlen v m 1 param =
    if m < 1 + 7 * v.length + 20 then .error .bufNotEnough else .ok code

theorem encodes_bytewise (hb : param.bytewise = true) (hv : v ≠ [0x00]) :
    Encodes param v (convertObCharsetUtf8mb4Bin v) := by
  refine ⟨(length_convertBin v).trans (by omega), fun m => ?_⟩
  unfold encodeFromStringVarlen
  by_cases hm : m < 1 + 7 * v.length + 20
  · rw [if_pos hm, if_pos hm]
  rw [if_neg hm, if_neg hm]
  by_cases hnil : v = []
  · subst hnil
    rw [if_pos (.inl rfl), if_neg (by omega)]
    refine congrArg Except.ok ?_
    unfold encodeTails bytewise at *
    simp only [Bool.or_eq_true] at hb
    rcases hb with hb | hb
    · simp [hb, convertObCharsetUtf8mb4Bin]
    · simp [hb, convertObCharsetUtf8mb4Bin]
  · rw [if_neg (by tauto)]
    unfold bytewise at hb
    simp only [Bool.or_eq_true] at hb
    rcases hb with hb | hb
    · simp [hb]
    · simp [hb]

theorem encodes_padded (hparam : param.bytewise = false) (hb : b ≠ 0x20) :
    Encodes param (init ++ b :: replicate n 0x20) (spCode 0 (init ++ [b])) := by
  have hlen := length_spCode 0 (init ++ [b])
  rw [length_append, length_singleton] at hlen
  refine ⟨hlen.trans (by simp; omega), fun m => ?_⟩
  unfold bytewise at hparam
  simp only [Bool.or_eq_false_iff] at hparam
  unfold encodeFromStringVarlen
  split_ifs with hm htail htails
  · rfl
  · omega
  · -- the string of a single 0 byte has the same code as in the general case
    rcases htail with htail | htail
    · simp at htail
    cases init with
    | nil =>
      obtain ⟨rfl, -⟩ := cons.inj htail
      rw [htail]
      simp [encodeTails, hparam, spCode]
    | cons a init => simp at htail
  · simp_all
  · simp_all
  · exact convertBinSp_eq hb

/-- **`encode_from_string_varlen`** on a good string. -/
theorem exists_encodes (h : Good param.bytewise v) :
    ∃ code, IsCode param v code ∧ Encodes param v code := by
  unfold Good at h
  unfold IsCode
  cases hb : param.bytewise with
  | true =>
    simp only [hb, if_true] at h ⊢
    exact ⟨_, rfl, encodes_bytewise hb h⟩
  | false =>
  simp only [hb, Bool.false_eq_true, if_false] at h ⊢
  rcases h.1 with rfl | hv
  · refine ⟨spCode 0 [], ⟨[], 0, rfl, rfl, rfl⟩, by simp [spCode], fun m => ?_⟩
    unfold bytewise at hb
    simp only [Bool.or_eq_false_iff] at hb
    unfold encodeFromStringVarlen
    split_ifs with hm htail
    · rfl
    · omega
    · simp [encodeTails, hb, spCode]
    · simp_all
    · simp_all
    · simp_all
  · obtain ⟨init, b, n, hne, rfl⟩ := exists_core hv
    refine ⟨spCode 0 (init ++ [b]), ⟨init ++ [b], n, by simp, closed_concat hne, rfl⟩,
      encodes_padded hb hne⟩

end Strings

/-! ## Columns and rows -/

section Rows

variable {param : EncParam} {params : List EncParam} {data data' : Option (List Byte)} {r r' : Row}
  {key key' : List Byte}

def IsColCode (param : EncParam) : Option (List Byte) → List Byte → Prop
  | none, key => key = [nullByte param none]
  | some v, key => ∃ code, IsCode param v code ∧
      key = 0x01 :: if param.isAsc then code else processDecrease code

def IsRowCode : List EncParam → Row → List Byte → Prop
  | param :: params, data :: r, key => ∃ col rest, IsColCode param data col ∧
      IsRowCode params r rest ∧ key = col ++ rest
  | _, _, key => key = []

/-- The strings of a row satisfy a condition on the column. -/
def RowAll (P : EncParam → List Byte → Prop) (params : List EncParam) (r : Row) : Prop :=
  ∀ p ∈ params.zip r, ∀ v, p.2 = some v → P p.1 v

theorem RowAll.head {P : EncParam → List Byte → Prop} (h : RowAll P (param :: params) (data :: r)) :
    (∀ v, data = some v → P param v) ∧ RowAll P params r :=
  ⟨fun v hv => h (param, data) mem_cons_self v hv,
    fun p hp => h p (mem_cons_of_mem _ hp)⟩

theorem complement_lt (a b : Byte) : a ^^^ 0xFF < b ^^^ 0xFF ↔ b < a := by
  have hval : ∀ a : Byte, (a ^^^ 0xFF).val = 255 - a.val := by decide +kernel
  rw [Fin.lt_def, Fin.lt_def, hval, hval]
  omega

theorem IsColCode.firstDiff (h : IsColCode param data key) (h' : IsColCode param data' key')
    (hg : ∀ v, data = some v → Good param.bytewise v)
    (hg' : ∀ v, data' = some v → Good param.bytewise v) :
    firstDiff key key' = some (param.colCmp data data') := by
  cases data with
  | none =>
    cases data' with
    | none =>
      rw [h, h']
      exact firstDiff_self
    | some w =>
    obtain ⟨code, -, rfl⟩ := h'
    rw [h]
    unfold nullByte colCmp
    cases param.isNullFirst <;> exact firstDiff_cons_of_ne (by decide)
  | some v =>
    cases data' with
    | none =>
      obtain ⟨code, -, rfl⟩ := h
      rw [h']
      unfold nullByte colCmp
      cases param.isNullFirst <;> exact firstDiff_cons_of_ne (by decide)
    | some w =>
      obtain ⟨code, hcode, rfl⟩ := h
      obtain ⟨code', hcode', rfl⟩ := h'
      have hdiff := hcode.firstDiff hcode' (hg v rfl) (hg' w rfl)
      rw [firstDiff_cons_self]
      unfold colCmp
      cases param.isAsc with
      | true => exact hdiff
      | false =>
      -- the complement reverses the order
      refine (firstDiff_map complement_lt code code').trans ?_
      rw [hdiff]
      rfl

theorem IsRowCode.firstDiff (h : IsRowCode params r key) (h' : IsRowCode params r' key')
    (hlen : r.length = r'.length) (hg : RowAll (fun p v => Good p.bytewise v) params r)
    (hg' : RowAll (fun p v => Good p.bytewise v) params r') :
    firstDiff key key' = some (rowCmp params r r') := by
  induction params generalizing r r' key key' with
  | nil =>
    rw [show key = [] from h, show key' = [] from h']
    rfl
  | cons param params ih =>
    cases r with
    | nil =>
      cases r' with
      | nil =>
        rw [show key = [] from h, show key' = [] from h']
        rfl
      | cons data' r' => simp at hlen
    | cons data r =>
      cases r' with
      | nil => simp at hlen
      | cons data' r' =>
      obtain ⟨col, rest, hcol, hrest, rfl⟩ := h
      obtain ⟨col', rest', hcol', hrest', rfl⟩ := h'
      exact firstDiff_append (hcol.firstDiff hcol' hg.head.1 hg'.head.1)
        (ih hrest hrest' (by simpa using hlen) hg.head.2 hg'.head.2)

/-- What the source returns, for some buffers: the key, or that the buffer is too small. -/
structure Returns (f : ℕ → Except EncErr (List Byte)) (bound : ℕ) (key : List Byte) : Prop where
  cases : ∀ m, f m = .error .bufNotEnough ∨ f m = .ok key
  enough : ∀ m, bound ≤ m → f m = .ok key
  length_le : key.length ≤ bound

/-- **`process_key_conditioning`** on a good string or NULL. -/
theorem exists_processKeyConditioning (hg : ∀ v, data = some v → Good param.bytewise v) :
    ∃ key bound, IsColCode param data key ∧
      Returns (fun m => processKeyConditioning data m param) bound key := by
  cases data with
  | none =>
    refine ⟨_, 1, rfl, ⟨fun m => ?_, fun m hm => ?_, le_refl 1⟩⟩
    · unfold processKeyConditioning
      by_cases hm : m < 1
      · exact .inl (if_pos hm)
      · exact .inr (if_neg hm)
    · exact if_neg (by omega)
  | some v =>
  obtain ⟨code, hcode, hlen, henc⟩ := exists_encodes (hg v rfl)
  have hresult (m : ℕ) : processKeyConditioning (some v) m param =
      if m < 1 + 7 * v.length + 20 then .error .bufNotEnough
      else .ok (0x01 :: if param.isAsc then code else processDecrease code) := by
    unfold processKeyConditioning
    dsimp only
    by_cases hm : m < 1 + 7 * v.length + 20
    · rw [if_pos hm]
      by_cases hm' : m < 1
      · rw [if_pos hm']
      rw [if_neg hm', henc, if_pos hm]
      rfl
    · rw [if_neg hm, if_neg (by omega), henc, if_neg hm]
      exact if_neg (by omega)
  refine ⟨_, 1 + 7 * v.length + 20, ⟨code, hcode, rfl⟩, ⟨fun m => ?_, fun m hm => ?_, ?_⟩⟩
  · rw [hresult]
    by_cases hm : m < 1 + 7 * v.length + 20
    · exact .inl (if_pos hm)
    · exact .inr (if_neg hm)
  · exact (hresult m).trans (if_neg (by omega))
  have : (if param.isAsc then code else processDecrease code).length = code.length := by
    split_ifs
    · rfl
    · exact length_map _
  rw [length_cons, this]
  omega

/-- **The loop over the columns** on a row of good strings. -/
theorem exists_encodeRow (hg : RowAll (fun p v => Good p.bytewise v) params r) :
    ∃ key bound, IsRowCode params r key ∧ key.length ≤ bound ∧ ∀ m dataLen,
      (encodeRow m params r dataLen = .error .bufNotEnough ∨ encodeRow m params r dataLen = .ok key)
        ∧ (dataLen + bound ≤ m → encodeRow m params r dataLen = .ok key) := by
  induction params generalizing r with
  | nil => exact ⟨[], 0, rfl, le_refl 0, fun m dataLen => ⟨.inr rfl, fun _ => rfl⟩⟩
  | cons param params ih =>
    cases r with
    | nil => exact ⟨[], 0, rfl, le_refl 0, fun m dataLen => ⟨.inr rfl, fun _ => rfl⟩⟩
    | cons data r =>
    obtain ⟨col, bound, hcol, hret⟩ := exists_processKeyConditioning hg.head.1
    obtain ⟨rest, bound', hrest, hlen, hloop⟩ := ih hg.head.2
    have hcol_le := hret.length_le
    refine ⟨col ++ rest, bound + bound', ⟨col, rest, hcol, hrest, rfl⟩, ?_, fun m dataLen => ?_⟩
    · rw [length_append]
      omega
    have hok (h : processKeyConditioning data (m - dataLen) param = .ok col)
        (h' : encodeRow m params r (dataLen + col.length) = .ok rest) :
        encodeRow m (param :: params) (data :: r) dataLen = .ok (col ++ rest) := by
      rw [encodeRow, h, ok_bind, h']
      rfl
    constructor
    · rcases hret.cases (m - dataLen) with h | h
      · refine .inl ?_
        rw [encodeRow, h]
        rfl
      rcases (hloop m (dataLen + col.length)).1 with h' | h'
      · refine .inl ?_
        rw [encodeRow, h, ok_bind, h']
        rfl
      · exact .inr (hok h h')
    · intro hm
      exact hok (hret.enough _ (by omega)) ((hloop m (dataLen + col.length)).2 (by omega))

/-- **The retries end**: the buffer is doubled until the key fits. -/
theorem evalEncodeSortkey_eq {bound}
    (hcases : ∀ m, encodeRow m params r 0 = .error .bufNotEnough ∨ encodeRow m params r 0 = .ok key)
    (henough : ∀ m, bound ≤ m → encodeRow m params r 0 = .ok key) {j maxLen fuel}
    (hj : bound ≤ maxLen * 2 ^ j) (hfuel : j < fuel) :
    evalEncodeSortkey params r fuel maxLen = .ok key := by
  induction j generalizing maxLen fuel with
  | zero =>
    obtain ⟨fuel, rfl⟩ := Nat.exists_eq_succ_of_ne_zero (Nat.ne_of_gt hfuel)
    rw [evalEncodeSortkey, henough maxLen (by simpa using hj)]
  | succ j ih =>
  obtain ⟨fuel, rfl⟩ := Nat.exists_eq_succ_of_ne_zero (Nat.ne_of_gt (Nat.zero_lt_of_lt hfuel))
  rw [evalEncodeSortkey]
  rcases hcases maxLen with h | h
  · rw [h]
    refine ih ?_ (by omega)
    rw [Nat.pow_succ', ← Nat.mul_assoc] at hj
    exact hj
  · rw [h]

theorem preserves_of_good (hlen : r.length = r'.length)
    (hg : RowAll (fun p v => Good p.bytewise v) params r)
    (hg' : RowAll (fun p v => Good p.bytewise v) params r') : Preserves params r r' := by
  obtain ⟨key, bound, hkey, -, hloop⟩ := exists_encodeRow hg
  obtain ⟨key', bound', hkey', -, hloop'⟩ := exists_encodeRow hg'
  intro maxLen hpos
  -- doubling as often as the bound says is enough
  have hpow (n : ℕ) (hn : n ≤ bound + bound') : n ≤ maxLen * 2 ^ (bound + bound') := by
    have hlt : bound + bound' < 2 ^ (bound + bound') := Nat.lt_two_pow_self
    have hle : 2 ^ (bound + bound') ≤ maxLen * 2 ^ (bound + bound') := Nat.le_mul_of_pos_left _ hpos
    omega
  refine ⟨bound + bound' + 1, key, key', fun fuel hfuel => ?_, fun fuel hfuel => ?_,
    lexCmp_of_firstDiff (hkey.firstDiff hkey' hlen hg hg')⟩
  · exact evalEncodeSortkey_eq (fun m => (hloop m 0).1) (fun m hm => (hloop m 0).2 (by omega))
      (hpow bound (by omega)) (by omega)
  · exact evalEncodeSortkey_eq (fun m => (hloop' m 0).1) (fun m hm => (hloop' m 0).2 (by omega))
      (hpow bound' (by omega)) (by omega)

end Rows

/-! ## The other strings -/

section Others

variable {param : EncParam} {params : List EncParam} {r r' : Row} {v w : List Byte}

theorem evalEncodeSortkey_succ {fuel maxLen key} (h : encodeRow maxLen params r 0 = .ok key) :
    evalEncodeSortkey params r (fuel + 1) maxLen = .ok key := by
  rw [evalEncodeSortkey, h]

theorem Preserves.lexCmp_eq (h : Preserves params r r') {maxLen} (hpos : 0 < maxLen)
    {key key'} (hkey : encodeRow maxLen params r 0 = .ok key)
    (hkey' : encodeRow maxLen params r' 0 = .ok key') : lexCmp key key' = rowCmp params r r' := by
  obtain ⟨n, k, k', hk, hk', hcmp⟩ := h maxLen hpos
  have heq := (hk (n + 1) (by omega)).symm.trans (evalEncodeSortkey_succ hkey)
  have heq' := (hk' (n + 1) (by omega)).symm.trans (evalEncodeSortkey_succ hkey')
  rw [← Except.ok.inj heq, ← Except.ok.inj heq', hcmp]

/-- A descending column with byte order. -/
def descending : EncParam := ⟨.binary, false, true, true⟩

/-- An ascending padded column. -/
def padded : EncParam := ⟨.utf8mb4Bin, true, true, false⟩

/-- The code word of the single 0 byte begins with that of the empty string, so the descending order
of the two is wrong. -/
theorem not_preserves_nul : ¬Preserves [descending] [some []] [some [0x00]] := by
  intro h
  have hcmp := h.lexCmp_eq (show 0 < 100 by decide) rfl rfl
  revert hcmp
  decide

/-- A string of spaces is read past its beginning. -/
theorem not_preserves_spaces {n} :
    ¬Preserves [padded] [some (replicate (n + 1) 0x20)] [some (replicate (n + 1) 0x20)] := by
  have htrim (m : ℕ) (hm : m ≤ n + 1) :
      trimEnd (replicate (n + 1) 0x20) m = .error .outOfBounds := by
    induction m with
    | zero => rfl
    | succ m ih =>
    have hread := (reads_self (replicate (n + 1) (0x20 : Byte))).replicate (m := m) (by omega)
    rw [Nat.zero_add] at hread
    rw [trimEnd_succ hread, if_pos rfl]
    exact ih (by omega)
  have hconvert : convertObCharsetUtf8mb4BinSp (replicate (n + 1) 0x20) = .error .outOfBounds := by
    unfold convertObCharsetUtf8mb4BinSp
    rw [length_replicate, htrim (n + 1) (le_refl _)]
    rfl
  have hencode (m : ℕ) (hm : ¬m < 1 + 7 * (n + 1) + 20) :
      encodeFromStringVarlen (replicate (n + 1) 0x20) m 1 padded = .error .outOfBounds := by
    unfold encodeFromStringVarlen
    rw [length_replicate, if_neg hm, if_neg (by simp [replicate_succ]), if_neg (by decide),
      if_neg (by decide), hconvert]
  intro h
  obtain ⟨k, key, key', hkey, -, -⟩ := h (1 + 7 * (n + 1) + 20) (by omega)
  have hrow : encodeRow (1 + 7 * (n + 1) + 20) [padded] [some (replicate (n + 1) 0x20)] 0 =
      .error .outOfBounds := by
    rw [encodeRow, Nat.sub_zero, processKeyConditioning, if_neg (by omega), hencode _ (lt_irrefl _)]
    rfl
  have heval := hkey (k + 1) (by omega)
  rw [evalEncodeSortkey, hrow] at heval
  cases heval

theorem exists_longRun {k} (h : ¬RunsFit k v) :
    (∃ m c s, c ≠ 0x20 ∧ v = replicate m 0x20 ++ c :: s ∧ 2 ^ 15 ≤ k + m) ∨
      ∃ p q m c s, c ≠ 0x20 ∧ v = p ++ (replicate m 0x20 ++ c :: s) ∧ 2 ^ 15 ≤ m ∧
        (∀ x, spCode k (p ++ x) = q ++ spCode 0 x) ∧ ∀ x, RunsFit 0 x → RunsFit k (p ++ x) := by
  induction v generalizing k with
  | nil => exact absurd trivial h
  | cons b v ih =>
  by_cases hb : b = 0x20
  · subst hb
    rcases ih (mt runsFit_space.mpr h) with ⟨m, c, s, hc, rfl, hm⟩ | ⟨p, q, m, c, s, hc, rfl, hm,
      hq, hfit⟩
    · exact .inl ⟨m + 1, c, s, hc, rfl, by omega⟩
    exact .inr ⟨0x20 :: p, q, m, c, s, hc, rfl, hm, fun x => spCode_space.trans (hq x),
      fun x hx => runsFit_space.mpr (hfit x hx)⟩
  by_cases hk : k < 2 ^ 15
  · -- the run is in the rest of the string
    have hrest : ¬RunsFit 0 v := fun hv => h ((runsFit_of_ne hb).mpr ⟨hk, hv⟩)
    have hcode (x : List Byte) : spCode k (b :: x) =
        (if k = 0 then [] else spaceCode (k % 2 ^ 16) b) ++ b :: spCode 0 x := by
      rw [spCode, if_neg hb]
    rcases ih hrest with ⟨m, c, s, hc, rfl, hm⟩ | ⟨p, q, m, c, s, hc, rfl, hm, hq, hfit⟩
    · refine .inr ⟨[b], (if k = 0 then [] else spaceCode (k % 2 ^ 16) b) ++ [b], m, c, s, hc, rfl,
        by omega, fun x => ?_, fun x hx => (runsFit_of_ne hb).mpr ⟨hk, hx⟩⟩
      rw [singleton_append, hcode, append_assoc, singleton_append]
    · refine .inr ⟨b :: p, (if k = 0 then [] else spaceCode (k % 2 ^ 16) b) ++ b :: q, m, c, s, hc,
        rfl, hm, fun x => ?_, fun x hx => (runsFit_of_ne hb).mpr ⟨hk, hfit x hx⟩⟩
      rw [cons_append, hcode, hq, append_assoc, cons_append]
  · exact .inl ⟨0, b, v, hb, rfl, by omega⟩

theorem lexCmp_extreme {e a : Byte} {o x y} (he : ∀ a, a ≠ e → cmp a e = o)
    (h : lexCmp x y = o) : lexCmp (a :: x) (e :: y) = o := by
  by_cases ha : a = e
  · subst ha
    rw [lexCmp_cons_self, h]
  · rw [lexCmp_cons_of_ne ha, he a ha]

theorem lexCmp_spCode_extreme {e : Byte} {o} (he : ∀ a, a ≠ e → cmp a e = o)
    (hne : e ≠ 0x20) {n : ℕ} {s : List Byte} (hs : s.length < n) :
    lexCmp (spCode 0 s) (spCode 0 (replicate n e)) = o := by
  -- a code after spaces begins with a space
  have hspace (k : ℕ) (s : List Byte) : ∃ x, spCode (k + 1) s = 0x20 :: x := by
    induction s generalizing k with
    | nil => exact ⟨_, rfl⟩
    | cons b s ih =>
    by_cases hb : b = 0x20
    · subst hb
      rw [spCode_space]
      exact ih (k + 1)
    · rw [spCode_of_ne hb (succ_ne_zero k)]
      exact ⟨_, rfl⟩
  induction s generalizing n with
  | nil =>
    obtain ⟨n, rfl⟩ := exists_eq_succ_of_ne_zero (ne_of_gt hs)
    rw [replicate_succ, spCode_zero hne]
    exact (lexCmp_cons_of_ne (Ne.symm hne)).trans (he 0x20 (Ne.symm hne))
  | cons b s ih =>
  obtain ⟨n, rfl⟩ := exists_eq_succ_of_ne_zero (ne_of_gt (zero_lt_of_lt hs))
  rw [replicate_succ, spCode_zero hne]
  by_cases hb : b = 0x20
  · subst hb
    obtain ⟨x, hx⟩ := hspace 0 s
    rw [spCode_space, hx, lexCmp_cons_of_ne (Ne.symm hne)]
    exact he 0x20 (Ne.symm hne)
  · rw [spCode_zero hb]
    exact lexCmp_extreme he (ih (by simpa using hs))

theorem encodeRow_single {m code} (h : Encodes padded v code)
    (hm : 1 + 7 * v.length + 20 ≤ m) : encodeRow m [padded] [some v] 0 = .ok (0x01 :: code) := by
  have hlen := h.1
  have hcol : processKeyConditioning (some v) m padded = .ok (0x01 :: code) := by
    rw [processKeyConditioning, if_neg (by omega), h.2, if_neg (by omega)]
    exact if_neg (by omega)
  rw [encodeRow, Nat.sub_zero, hcol, ok_bind]
  change Except.ok ((0x01 :: code) ++ []) = _
  rw [append_nil]

theorem padCmp_append_left (x : List Byte) : padCmp (x ++ v) (x ++ w) = padCmp v w := by
  induction x with
  | nil => rfl
  | cons a x ih => rw [cons_append, cons_append, padCmp_cons_self, ih]

theorem exists_encodes_run {p q s : List Byte} {c m} (hc : c ≠ 0x20) (hm : m ≠ 0)
    (hq : ∀ x, spCode 0 (p ++ x) = q ++ spCode 0 x) : ∃ t, t.length ≤ s.length ∧
      Encodes padded (p ++ (replicate m 0x20 ++ c :: s))
        (q ++ (spaceCode (m % 2 ^ 16) c ++ c :: spCode 0 t)) := by
  obtain ⟨init, b, n, hb, hs⟩ := exists_core (v := c :: s) ⟨c, mem_cons_self, hc⟩
  obtain ⟨t, ht⟩ : ∃ t, init ++ [b] = c :: t := by
    cases init with
    | nil => exact ⟨[], by rw [(cons.inj hs).1]; rfl⟩
    | cons a init => exact ⟨init ++ [b], by rw [(cons.inj hs).1]; rfl⟩
  refine ⟨t, ?_, ?_⟩
  · have hlen := congrArg length hs
    have hlen' := congrArg length ht
    simp only [length_cons, length_append, length_replicate, length_nil] at hlen hlen'
    omega
  have henc : Encodes padded (p ++ (replicate m 0x20 ++ init) ++ b :: replicate n 0x20) _ :=
    encodes_padded rfl hb
  have hcode : spCode 0 (p ++ (replicate m 0x20 ++ init) ++ [b]) =
      q ++ (spaceCode (m % 2 ^ 16) c ++ c :: spCode 0 t) := by
    rw [append_assoc, append_assoc, ht, hq, spCode_replicate, Nat.zero_add,
      spCode_of_ne hc hm]
  rw [hcode] at henc
  rw [hs]
  simpa only [append_assoc] using henc

/-- The code of the longest run that fits is extreme, at the end that belongs to shorter runs. -/
theorem spaceCode_extreme {c} (hc : c ≠ 0x20) : ∃ (e d : Byte) (o : Ordering), e ≠ 0x20 ∧
    (∀ a, a ≠ e → cmp a e = o) ∧ cmp 0x20 c ≠ o ∧
    spaceCode ((2 ^ 15 - 1) % 2 ^ 16) c = [0x20, d, e, e] ∧
    ∀ n, ∃ x y, spaceCode n c = [0x20, d, x, y] := by
  rcases lt_or_gt_of_ne hc with hlt | hgt
  · have hlast (a : Byte) (ha : a ≠ 0xFF) : a < 0xFF :=
      lt_of_le_of_ne (Fin.le_last a) ha
    refine ⟨0xFF, 0x19, .lt, by decide, fun a ha => cmp_lt (hlast a ha), ?_, ?_, fun n => ?_⟩
    · rw [cmp_gt hlt]
      decide
    · simp only [spaceCode, if_neg (not_lt.mpr hlt.le)]
      decide
    · simp only [spaceCode, if_neg (not_lt.mpr hlt.le)]
      exact ⟨_, _, rfl⟩
  · refine ⟨0x00, 0x21, .gt, by decide, fun a ha => cmp_gt (Fin.pos_of_ne_zero ha), ?_, ?_,
      fun n => ?_⟩
    · rw [cmp_lt hgt]
      decide
    · simp only [spaceCode, if_pos hgt]
      decide
    · simp only [spaceCode, if_pos hgt]
      exact ⟨_, _, rfl⟩

theorem runsFit_extreme {e} (hne : e ≠ 0x20) (n : ℕ) : RunsFit 0 (replicate n e) := by
  induction n with
  | zero => trivial
  | succ n ih =>
  rw [replicate_succ]
  exact (runsFit_of_ne hne).mpr ⟨by decide, ih⟩

theorem padCmp_longRun {p s t c k m} (hc : c ≠ 0x20) (hkm : k < m) :
    padCmp (p ++ (replicate m 0x20 ++ c :: s)) (p ++ (replicate k 0x20 ++ c :: t)) =
      cmp 0x20 c := by
  obtain ⟨j, rfl⟩ := Nat.exists_eq_add_of_lt hkm
  rw [padCmp_append_left, Nat.add_assoc, ← replicate_append_replicate, append_assoc,
    padCmp_append_left, replicate_succ, cons_append, padCmp_cons_of_ne (Ne.symm hc)]

/-- **A run of more than 32767 spaces**: there is a good string on the wrong side. -/
theorem exists_not_preserves_longRun (h : ¬RunsFit 0 v) :
    ∃ w, Good false w ∧ ¬Preserves [padded] [some v] [some w] := by
  obtain ⟨p, q, m, c, s, hc, rfl, hm, hq, hfit⟩ : ∃ p q m c s, c ≠ 0x20 ∧
      v = p ++ (replicate m 0x20 ++ c :: s) ∧ 2 ^ 15 ≤ m ∧
      (∀ x, spCode 0 (p ++ x) = q ++ spCode 0 x) ∧ ∀ x, RunsFit 0 x → RunsFit 0 (p ++ x) := by
    rcases exists_longRun h with ⟨m, c, s, hc, rfl, hm⟩ | h
    · exact ⟨[], [], m, c, s, hc, rfl, by omega, fun _ => rfl, fun _ hx => hx⟩
    · exact h
  -- the other string has the longest run that fits, and then more extreme letters than the rest is long
  obtain ⟨e, d, o, hne, he, htrue, hd, hspace⟩ := spaceCode_extreme hc
  generalize hk : 2 ^ 15 - 1 = k at hd
  have hk' : k < 2 ^ 15 ∧ k < m ∧ k ≠ 0 := by omega
  refine ⟨p ++ (replicate k 0x20 ++ c :: replicate (s.length + 1) e), ?_, fun hpres => ?_⟩
  · refine ⟨.inr ⟨c, by simp, hc⟩, hfit _ ?_⟩
    rw [runsFit_replicate, runsFit_of_ne hc, Nat.zero_add]
    exact ⟨hk'.1, runsFit_extreme hne _⟩
  obtain ⟨t, ht, henc⟩ := exists_encodes_run (s := s) hc (show m ≠ 0 by omega) hq
  have henc' : Encodes padded (p ++ (replicate k 0x20 ++ c :: replicate (s.length + 1) e))
      (q ++ (spaceCode (k % 2 ^ 16) c ++ c :: spCode 0 (replicate (s.length + 1) e))) := by
    have henc' : Encodes padded (p ++ (replicate k 0x20 ++ c :: replicate s.length e) ++
        e :: replicate 0 0x20) _ := encodes_padded rfl hne
    have hlast : c :: replicate s.length e ++ [e] = c :: replicate (s.length + 1) e := by
      rw [replicate_succ', cons_append]
    rw [replicate_zero, append_assoc, append_assoc, hlast, hq, spCode_replicate,
      Nat.zero_add, spCode_of_ne hc hk'.2.2] at henc'
    exact henc'
  have hcmp := hpres.lexCmp_eq (Nat.succ_pos _)
    (encodeRow_single henc (Nat.le_succ_of_le (Nat.le_max_left _ _)))
    (encodeRow_single henc' (Nat.le_succ_of_le (Nat.le_max_right _ _)))
  obtain ⟨x, y, hxy⟩ := hspace (m % 2 ^ 16)
  have hkeys : lexCmp (q ++ (spaceCode (m % 2 ^ 16) c ++ c :: spCode 0 t))
      (q ++ (spaceCode (k % 2 ^ 16) c ++ c :: spCode 0 (replicate (s.length + 1) e))) = o := by
    rw [lexCmp_append_left, hd, hxy]
    change lexCmp (0x20 :: d :: x :: y :: c :: _) (0x20 :: d :: e :: e :: c :: _) = o
    rw [lexCmp_cons_self, lexCmp_cons_self]
    refine lexCmp_extreme he (lexCmp_extreme he ?_)
    rw [lexCmp_cons_self]
    exact lexCmp_spCode_extreme he hne (by omega)
  rw [lexCmp_cons_self, hkeys] at hcmp
  change o = (padCmp _ _).then .eq at hcmp
  rw [padCmp_longRun hc hk'.2.1, cmp_then (Ne.symm hc)] at hcmp
  exact htrue hcmp.symm

end Others

/-- **Sort keys keep the order of rows just for the good strings.** Let a string `v` be allowed in
the columns of one kind beside the good strings of each column. Then the sort keys of all rows of
such strings compare as the rows do just if `v` is good as well. -/
theorem sortkey_order_iff (bytewise : Bool) (v : List Byte) :
    (∀ (params : List EncParam) (r r' : Row), r.length = params.length → r'.length = params.length →
      RowAll (fun p w => Good p.bytewise w ∨ p.bytewise = bytewise ∧ w = v) params r →
      RowAll (fun p w => Good p.bytewise w ∨ p.bytewise = bytewise ∧ w = v) params r' →
      Preserves params r r') ↔ Good bytewise v := by
  refine ⟨fun h => ?_, fun hgood params r r' hr hr' hall hall' => ?_⟩
  · by_contra hbad
    -- rows of one column
    have hsingle {p : EncParam} {w : List Byte} (hw : Good p.bytewise w ∨
      p.bytewise = bytewise ∧ w = v) :
        RowAll (fun p w => Good p.bytewise w ∨ p.bytewise = bytewise ∧ w = v) [p] [some w] := by
      intro q hq u hu
      rw [zip_cons_cons, zip_nil_left, mem_singleton] at hq
      subst hq
      cases hu
      exact hw
    cases bytewise with
    | true =>
      have hv : v = [0x00] := by simpa [Good] using hbad
      refine not_preserves_nul (h [descending] _ _ rfl rfl (hsingle (.inl ?_)) (hsingle (.inr ?_)))
      · change ([] : List Byte) ≠ [0x00]
        decide
      · exact ⟨rfl, hv.symm⟩
    | false =>
    by_cases hfit : RunsFit 0 v
    · have hspaces : v ≠ [] ∧ ∀ b ∈ v, b = 0x20 := by simpa [Good, hfit] using hbad
      obtain ⟨n, hn⟩ := exists_eq_succ_of_ne_zero
        (fun h0 => hspaces.1 (length_eq_zero_iff.mp h0))
      have hv : v = replicate (n + 1) 0x20 := eq_replicate_iff.mpr ⟨hn, hspaces.2⟩
      exact not_preserves_spaces (h [padded] _ _ rfl rfl (hsingle (.inr ⟨rfl, hv.symm⟩))
        (hsingle (.inr ⟨rfl, hv.symm⟩)))
    · obtain ⟨w, hw, hnot⟩ := exists_not_preserves_longRun hfit
      exact hnot (h [padded] _ _ rfl rfl (hsingle (.inr ⟨rfl, rfl⟩)) (hsingle (.inl hw)))
  · have hup (r : Row) (hall : RowAll (fun p w => Good p.bytewise w ∨ p.bytewise = bytewise ∧ w = v)
        params r) : RowAll (fun p w => Good p.bytewise w) params r := by
      intro p hp w hw
      rcases hall p hp w hw with h | ⟨hb, rfl⟩
      · exact h
      rw [hb]
      exact hgood
    exact preserves_of_good (hr.trans hr'.symm) (hup r hall) (hup r' hall')

theorem sortkey_order_nul :
    let params : List EncParam := [⟨.binary, true, true, true⟩, ⟨.binary, true, true, true⟩]
    let r : Row := [some [], some [0x61]]
    let r' : Row := [some [0x00], some [0x61]]
    rowCmp params r r' = .lt ∧
      evalEncodeSortkey params r 1 100 = .ok [0x01, 0x00, 0x00, 0x01, 0x61, 0x00, 0x00] ∧
      evalEncodeSortkey params r' 1 100 = .ok [0x01, 0x00, 0x00, 0x00, 0x01, 0x61, 0x00, 0x00] ∧
      lexCmp [0x01, 0x00, 0x00, 0x01, 0x61, 0x00, (0x00 : Byte)]
        [0x01, 0x00, 0x00, 0x00, 0x01, 0x61, 0x00, 0x00] = .gt ∧ ¬Preserves params r r' := by
  refine ⟨by decide, rfl, rfl, by decide, fun h => ?_⟩
  have hcmp := h.lexCmp_eq (show 0 < 100 by decide) rfl rfl
  revert hcmp
  decide

end OceanBase.Sortkey
