import OceanBase.Number.FromString
import OceanBase.Number.Rounding

/-!
# The words of a decimal string

`construct_digits_` keeps ten words. They are the first ones of the words of all digits, whose value
is that of the string.

## Main results

* `Literal.fromV3_text`: what `from_v3_` rounds and checks
-/

namespace OceanBase.Number

open List

/-! ## Characters -/

open Literal

theorem isDigit_digitChar : ∀ d : Fin 10, (digitChar d).isDigit = true := by decide

theorem isSpace_digitChar : ∀ d : Fin 10, isSpace (digitChar d) = false := by decide

theorem digitChar_ne : ∀ d : Fin 10, digitChar d ≠ '+' ∧ digitChar d ≠ '-' := by decide

theorem digitChar_eq_zero : ∀ d : Fin 10, (digitChar d = '0') = (d = 0) := by decide

theorem toNat_digitChar : ∀ d : Fin 10, (digitChar d).toNat - '0'.toNat = d := by decide

theorem atoi_digits (ds : List (Fin 10)) :
    atoiPositiveUnchecked (ds.map digitChar) = natVal 10 (ds.map Fin.val) := by
  simp only [atoiPositiveUnchecked, natVal, foldl_map, toNat_digitChar]

theorem dropWhile_zero_digits (ds : List (Fin 10)) :
    (ds.map digitChar).dropWhile (· = '0') = (ds.dropWhile (· = 0)).map digitChar := by
  rw [dropWhile_map]
  congr 2
  funext d
  simp [digitChar_eq_zero]

namespace Literal

variable (l : Literal)

def body : List Char :=
  l.ints.map digitChar ++
    match l.decs with
    | none => []
    | some ds => '.' :: ds.map digitChar

theorem dropWhile_digits (ds : List (Fin 10)) : (ds.map digitChar).dropWhile Char.isDigit = [] := by
  simp [isDigit_digitChar]

theorem takeWhile_digits (ds : List (Fin 10)) :
    (ds.map digitChar).takeWhile Char.isDigit = ds.map digitChar := by
  simp [isDigit_digitChar]

theorem findDigits_body (negative : Bool) : findDigits negative l.body =
      ⟨negative, (l.ints.dropWhile (· = 0)).map digitChar, (l.decs.getD []).map digitChar,
        false⟩ := by
  obtain ⟨sign, ints, decs⟩ := l
  cases decs with
  | none =>
    simp only [body, append_nil, findDigits, dropWhile_zero_digits, dropWhile_digits,
      takeWhile_digits]
    rfl
  | some ds =>
  have hpoint : ('.' : Char).isDigit = false := by decide
  have hdrop : (ints.map digitChar ++ '.' :: ds.map digitChar).dropWhile (· = '0')
      = (ints.dropWhile (· = 0)).map digitChar ++ '.' :: ds.map digitChar := by
    rw [dropWhile_append, dropWhile_zero_digits]
    cases ints.dropWhile (· = 0) <;> simp
  simp only [body, findDigits, hdrop]
  generalize ints.dropWhile (· = 0) = ints'
  have htake : (ints'.map digitChar ++ '.' :: ds.map digitChar).takeWhile Char.isDigit =
    ints'.map digitChar := by
    rw [takeWhile_append_of_pos (by simp [isDigit_digitChar])]
    simp [hpoint]
  have hrest : (ints'.map digitChar ++ '.' :: ds.map digitChar).dropWhile Char.isDigit
      = '.' :: ds.map digitChar := by
    rw [dropWhile_append_of_pos (by simp [isDigit_digitChar])]
    simp [hpoint]
  rw [htake, hrest]
  simp [dropWhile_digits, takeWhile_digits]

theorem mem_body {c} (hc : c ∈ l.body) : c = '.' ∨ ∃ d, c = digitChar d := by
  obtain ⟨sign, ints, decs⟩ := l
  rcases mem_append.mp hc with hc | hc
  · obtain ⟨d, -, rfl⟩ := mem_map.mp hc
    exact .inr ⟨d, rfl⟩
  cases decs with
  | none => exact absurd hc not_mem_nil
  | some ds =>
  rcases mem_cons.mp hc with rfl | hc
  · exact .inl rfl
  obtain ⟨d, -, rfl⟩ := mem_map.mp hc
  exact .inr ⟨d, rfl⟩

theorem isSpace_body {c} (hc : c ∈ l.body) : isSpace c = false := by
  rcases l.mem_body hc with rfl | ⟨d, rfl⟩
  · decide
  · exact isSpace_digitChar d

theorem isSpace_text {c} (hc : c ∈ l.text) : isSpace c = false := by
  rw [text, append_assoc, mem_append] at hc
  rcases hc with hc | hc
  · rcases hsign : l.sign with _ | _ | _ <;> rw [hsign] at hc
    · exact absurd hc not_mem_nil
    · rw [mem_singleton.mp hc]
      decide
    · rw [mem_singleton.mp hc]
      decide
  · exact l.isSpace_body hc

theorem findPointRange_text (h : l.text ≠ []) : findPointRange l.text =
      .ok ⟨l.negative, (l.ints.dropWhile (· = 0)).map digitChar, (l.decs.getD []).map digitChar,
        false⟩ := by
  have hdrop : l.text.dropWhile isSpace = l.text := by
    rw [dropWhile_eq_self_iff]
    intro hlen
    rw [l.isSpace_text (getElem_mem hlen)]
    decide
  have hrdrop : l.text.rdropWhile isSpace = l.text := by
    rw [rdropWhile_eq_self_iff]
    intro hne
    rw [l.isSpace_text (getLast_mem hne)]
    decide
  rw [findPointRange, if_neg (by simpa using h), hdrop, hrdrop, ← findDigits_body]
  obtain ⟨sign, ints, decs⟩ := l
  rcases sign with _ | _ | _
  · -- without a sign, the first character is a digit or the point
    have hne : body ⟨none, ints, decs⟩ ≠ [] := h
    cases hbody : body ⟨none, ints, decs⟩ with
    | nil => exact absurd hbody hne
    | cons c rest =>
    have hc : c ≠ '+' ∧ c ≠ '-' := by
      rcases mem_body ⟨none, ints, decs⟩ (hbody ▸ mem_cons_self) with rfl | ⟨d, rfl⟩
      · decide
      · exact digitChar_ne d
    rw [show text ⟨none, ints, decs⟩ = c :: rest from hbody]
    dsimp only
    rw [if_neg hc.1, if_neg hc.2]
    rfl
  · rfl
  · rfl

end Literal

/-! ## Words -/

/-- Digits as a fraction. -/
def decVal (ds : List (Fin 10)) : ℚ := fracVal 10 (ds.map Fin.val) / 10

theorem decVal_append (a b : List (Fin 10)) :
    decVal (a ++ b) = decVal a + decVal b / 10 ^ a.length := by
  rw [decVal, map_append, fracVal_append (by decide), decVal, decVal, length_map]
  push_cast
  ring

theorem natVal_digits (ds : List (Fin 10)) :
    (natVal 10 (ds.map Fin.val) : ℚ) = decVal ds * 10 ^ ds.length := by
  have h := fracVal_mul_pow (b := 10) (by decide) (ds.map Fin.val)
  rw [length_map] at h
  push_cast at h
  rw [decVal]
  linarith

theorem natVal_digits_lt (ds : List (Fin 10)) : natVal 10 (ds.map Fin.val) < 10 ^ ds.length := by
  have h : natVal 10 (ds.map Fin.val) < 10 ^ (ds.map Fin.val).length := natVal_lt fun w hw => by
    obtain ⟨d, -, rfl⟩ := mem_map.mp hw
    exact d.isLt
  rwa [length_map] at h

theorem fracVal_decLoop : ∀ {room step} {ds : List (Fin 10)}, 0 < step → ds.length ≤ room →
    fracVal base (decLoop room step (ds.map digitChar)) = 10 ^ step * decVal ds := by
  intro room
  induction room with
  | zero =>
    intro step ds _ hlen
    obtain rfl := length_eq_zero_iff.mp (Nat.le_zero.mp hlen)
    simp [decLoop, decVal]
  | succ room ih =>
  intro step ds hstep hlen
  rcases eq_or_ne ds [] with rfl | hne
  · simp [decLoop, decVal]
  have hpos : 0 < ds.length := length_pos_iff.mpr hne
  rw [decLoop, if_neg (by simpa using hne), fracVal_cons, ← map_drop, length_map, digitLen,
    ih (by decide) (by rw [length_drop]; omega), base_eq_pow,
      mul_div_cancel_left₀ _ (by positivity)]
  split
  next hlt =>
    rw [← map_take, atoi_digits, natVal_digits, length_take, Nat.min_eq_left hlt.le]
    have h := decVal_append (ds.take step) (ds.drop step)
    rw [take_append_drop, length_take, Nat.min_eq_left hlt.le] at h
    rw [h]
    field_simp
  next hge =>
    rw [drop_eq_nil_of_le (Nat.not_lt.mp hge), atoi_digits]
    push_cast
    rw [natVal_digits, mul_assoc, ← pow_add, Nat.add_sub_cancel' (Nat.not_lt.mp hge)]
    simp [decVal, mul_comm]

theorem decLoop_take : ∀ {room room' step s}, room ≤ room' →
    decLoop room step s = (decLoop room' step s).take room := by
  intro room
  induction room with
  | zero => intros; rfl
  | succ room ih =>
    intro room' step s hle
    cases room' with
    | zero => omega
    | succ room' =>
    rw [decLoop, decLoop]
    split
    · rfl
    · rw [take_succ_cons, ← ih (Nat.le_of_succ_le_succ hle)]

theorem decLoop_lt : ∀ {room step} {ds : List (Fin 10)}, step ≤ 9 →
    ∀ w ∈ decLoop room step (ds.map digitChar), w < base := by
  intro room
  induction room with
  | zero =>
    intro step ds _ w hw
    exact absurd hw not_mem_nil
  | succ room ih =>
  intro step ds hstep w hw
  rw [decLoop] at hw
  split at hw
  · exact absurd hw not_mem_nil
  rcases mem_cons.mp hw with rfl | hw
  · refine lt_of_lt_of_le ?_ (Nat.pow_le_pow_right (by decide) hstep : 10 ^ step ≤ 10 ^ 9)
    rw [length_map]
    split
    next hlt =>
      rw [← map_take, atoi_digits]
      refine lt_of_lt_of_le (natVal_digits_lt _) (Nat.pow_le_pow_right (by decide) ?_)
      exact length_take_le _ _
    next hge =>
    rw [atoi_digits]
    calc natVal 10 (ds.map Fin.val) * 10 ^ (step - ds.length)
        < 10 ^ ds.length * 10 ^ (step - ds.length) :=
          Nat.mul_lt_mul_of_pos_right (natVal_digits_lt ds) (Nat.pow_pos (by decide))
      _ = 10 ^ step := by rw [← pow_add, Nat.add_sub_cancel' (Nat.not_lt.mp hge)]
  · rw [← map_drop] at hw
    exact ih le_rfl w hw

theorem decLoop_head {room step d ds} (hd : d ≠ 0) (hstep : 0 < step) :
    0 < (decLoop (room + 1) step ((d :: ds).map digitChar)).headD 0 := by
  have hfirst : ∀ ds : List (Fin 10), 0 < natVal 10 ((d :: ds).map Fin.val) := fun ds => by
    have hd' : 0 < d.val := Nat.pos_of_ne_zero fun h => hd (Fin.ext h)
    rw [map_cons, natVal_cons]
    have := Nat.mul_pos hd' (Nat.pow_pos (by decide : 0 < 10) : 0 < 10 ^ (ds.map Fin.val).length)
    omega
  obtain ⟨step, rfl⟩ := Nat.exists_eq_add_of_lt hstep
  rw [decLoop, if_neg (by simp), headD_cons]
  split
  · rw [← map_take, Nat.zero_add, take_succ_cons, atoi_digits]
    exact hfirst _
  · rw [atoi_digits]
    exact Nat.mul_pos (hfirst ds) (Nat.pow_pos (by decide))

theorem intLoop_append : ∀ {room step k} {a b : List Char}, 0 < step → a.length = step + 9 * k →
    intLoop room step a ++ decLoop (room - (intLoop room step a).length) digitLen b
      = decLoop room step (a ++ b) := by
  intro room
  induction room with
  | zero => intros; rfl
  | succ room ih =>
  intro step k a b hstep hlen
  have hne : a ≠ [] := by
    rintro rfl
    simp at hlen
    omega
  have hne' : a ++ b ≠ [] := by simp [hne]
  have hle : step ≤ a.length := by omega
  rw [intLoop, decLoop, if_neg hne, if_neg hne', length_cons, Nat.add_sub_add_right, cons_append,
    drop_append_of_le_length hle]
  congr 1
  · split
    next => rw [take_append_of_le_length hle]
    next hge =>
    -- the digits end with this word
    rw [length_append] at hge ⊢
    obtain rfl : b = [] := length_eq_zero_iff.mp (by omega)
    rw [append_nil, length_nil, take_of_length_le (by omega),
      show step - (a.length + 0) = 0 by omega, pow_zero, mul_one]
  · cases k with
    | zero =>
      rw [drop_of_length_le (by omega), nil_append]
      cases room <;> rfl
    | succ k => exact ih (k := k) (by decide) (by rw [length_drop, digitLen]; omega)

theorem constructDigits_ints {ints} (hne : ints ≠ []) (decs : List (Fin 10)) (len : ℕ) :
    constructDigits (ints.map digitChar) (decs.map digitChar) len =
      (trimZeros (decLoop len ((ints.length - 1) % 9 + 1) ((ints ++ decs).map digitChar)),
        (((ints.length - 1) / 9 : ℕ) : ℤ)) := by
  have hpos : 0 < ints.length := length_pos_iff.mpr hne
  have hlen : (ints.map digitChar).length =
    (ints.length - 1) % 9 + 1 + 9 * ((ints.length - 1) / 9) := by
    rw [length_map]
    omega
  have h : _ = decLoop len ((ints.length - 1) % 9 + 1) (ints.map digitChar ++ decs.map digitChar) :=
    intLoop_append (Nat.succ_pos _) hlen
  rw [map_append, ← h, constructDigits, if_neg (by simpa using hne), length_map]
  rfl

theorem exists_dropWhile_zero (ds : List (Fin 10)) : ∃ k,
    ds = List.replicate k 0 ++ ds.dropWhile (· = 0) := by
  refine ⟨(ds.takeWhile (· = 0)).length, ?_⟩
  rw [← eq_replicate_of_mem fun d hd => by simpa using mem_takeWhile_imp hd,
    takeWhile_append_dropWhile]

theorem decVal_zeros (k : ℕ) (ds : List (Fin 10)) :
    decVal (List.replicate k 0 ++ ds) = decVal ds / 10 ^ k := by
  have hzero : fracVal 10 ((List.replicate k (0 : Fin 10)).map Fin.val) = 0 := by
    have h := fracVal_append_zeros (b := 10) (by decide) []
      (r := (List.replicate k (0 : Fin 10)).map Fin.val) (by simp)
    simpa using h
  rw [decVal_append, decVal, hzero, zero_div, zero_add, length_replicate]

namespace Literal

variable (l : Literal)

theorem magnitude_eq : l.magnitude =
    decVal (l.ints.dropWhile (· = 0) ++ l.decs.getD []) * 10 ^
      (l.ints.dropWhile (· = 0)).length := by
  obtain ⟨k, hk⟩ := exists_dropWhile_zero l.ints
  have hval : natVal 10 (l.ints.map Fin.val ++ l.decDigits)
      = natVal 10 ((l.ints.dropWhile (· = 0) ++ l.decs.getD []).map Fin.val) := by
    have hzero : natVal 10 ((List.replicate k (0 : Fin 10)).map Fin.val) = 0 :=
      natVal_of_zeros (by simp)
    rw [decDigits, ← map_append]
    conv_lhs => rw [hk, append_assoc, map_append, natVal_append, hzero, zero_mul, zero_add]
  rw [magnitude, hval, natVal_digits, decDigits, length_map, length_append, pow_add]
  field_simp

/-- The words of the literal, of which `from_v3_` sees the first ten. -/
structure IsWords (ws : List ℕ) (e : ℤ) : Prop where
  lt : ∀ w ∈ ws, w < base
  head : 0 < ws.headD 0
  magnitude : l.magnitude = fracVal base ws * (base : ℚ) ^ e
  construct : constructDigits ((l.ints.dropWhile (· = 0)).map digitChar)
    ((l.decs.getD []).map digitChar) 10 = (trimZeros (ws.take 10), e)

theorem isWords_of (ds : List (Fin 10)) (step : ℕ) (e : ℤ) {d rest}
    (hds : ds = d :: rest) (hd : d ≠ 0) (hstep : 0 < step) (hstep' : step ≤ 9)
    (hmag : l.magnitude = 10 ^ step * decVal ds * (base : ℚ) ^ e)
    (hcon : constructDigits ((l.ints.dropWhile (· = 0)).map digitChar)
      ((l.decs.getD []).map digitChar) 10 = (trimZeros (decLoop 10 step (ds.map digitChar)), e)) :
    l.IsWords (decLoop (ds.length + 10) step (ds.map digitChar)) e where
  lt := decLoop_lt hstep'
  head := by
    rw [hds]
    exact decLoop_head hd hstep
  magnitude := by rw [fracVal_decLoop hstep (by omega), hmag]
  construct := by rw [hcon, decLoop_take (Nat.le_add_left 10 ds.length)]

theorem ne_zero_of_dropWhile {ds : List (Fin 10)} {d rest}
    (h : ds.dropWhile (· = 0) = d :: rest) : d ≠ 0 := by
  have := List.head?_dropWhile_not (fun x : Fin 10 => decide (x = 0)) ds
  rw [h] at this
  exact of_decide_eq_false this

theorem exists_isWords : (∃ ws e, l.IsWords ws e) ∨ l.magnitude = 0 ∧ ∃ e,
    constructDigits ((l.ints.dropWhile (· = 0)).map digitChar) ((l.decs.getD []).map digitChar) 10 =
      ([], e) := by
  have hmag := l.magnitude_eq
  cases hints : l.ints.dropWhile (· = 0) with
  | cons d rest =>
    -- the point ends a group of nine, and the first group has the digits left over
    rw [hints] at hmag
    refine .inl ⟨_, _, l.isWords_of (d :: rest ++ l.decs.getD []) (((d :: rest).length - 1) % 9 + 1)
      (((d :: rest).length - 1) / 9 : ℕ) rfl (ne_zero_of_dropWhile hints) (Nat.succ_pos _)
        (by omega) ?_ ?_⟩
    · have hexp : (10 : ℚ) ^ (d :: rest).length
          = 10 ^ (((d :: rest).length - 1) % 9 + 1) * 10 ^
            (9 * (((d :: rest).length - 1) / 9)) := by
        rw [← pow_add]
        congr 1
        simp only [length_cons]
        omega
      rw [hmag, hexp, zpow_natCast, base_eq_pow, ← pow_mul]
      ring
    · rw [hints]
      exact constructDigits_ints (cons_ne_nil d rest) (l.decs.getD []) 10
  | nil =>
    obtain ⟨z, hz⟩ := exists_dropWhile_zero (l.decs.getD [])
    rw [hints, nil_append, length_nil, pow_zero, mul_one, hz, decVal_zeros] at hmag
    cases hdecs : (l.decs.getD []).dropWhile (· = 0) with
    | nil =>
      rw [hdecs] at hmag
      refine .inr ⟨by rw [hmag]; simp [decVal], ?_⟩
      rw [constructDigits, map_nil, if_pos rfl]
      split
      · exact ⟨0, rfl⟩
      dsimp only
      rw [dropWhile_zero_digits, hdecs, map_nil]
      exact ⟨_, rfl⟩
    | cons d rest =>
    rw [hdecs] at hmag hz
    have hlen : (l.decs.getD []).length - (d :: rest).length = z := by
      rw [hz, length_append, length_replicate]
      omega
    have hne : (l.decs.getD []).map digitChar ≠ [] := by rw [hz]; simp
    refine .inl ⟨_, _, l.isWords_of (d :: rest) (9 - z % 9) (-((z / 9 + 1 : ℕ) : ℤ)) rfl
      (ne_zero_of_dropWhile hdecs) (by omega) (by omega) ?_ ?_⟩
    · have hexp : (10 : ℚ) ^ (9 - z % 9) * 10 ^ z = 10 ^ (9 * (z / 9 + 1)) := by
        rw [← pow_add]
        congr 1
        omega
      rw [hmag, zpow_neg, zpow_natCast, base_eq_pow, ← pow_mul, ← hexp]
      field_simp
    · rw [hints, constructDigits, map_nil, if_pos rfl, if_neg hne]
      dsimp only
      rw [dropWhile_zero_digits, hdecs, length_map, length_map, hlen]
      rfl

theorem fromV3_eq (htext : l.text ≠ []) {digits e}
    (h : constructDigits ((l.ints.dropWhile (· = 0)).map digitChar) ((l.decs.getD []).map digitChar)
      10 = (digits, e)) : fromV3 l.text true = if digits.length = 0 then .ok zero
      else ((ObNumber.mk l.negative (calcExp l.negative e) digits).roundScaleV3 floatingScale
        true).checked := by
  rw [fromV3, l.findPointRange_text htext]
  simp only [bind, Except.bind, obCalcBufferSize, h, if_true]
  rfl

/-- **What `from_v3_` makes of a literal**: the first ten of its words are rounded and checked. -/
theorem fromV3_text {ws e} (htext : l.text ≠ []) (h : l.IsWords ws e) : fromV3 l.text true =
      ((ObNumber.mk l.negative (calcExp l.negative e) (trimZeros (ws.take 10))).roundScaleV3
        floatingScale true).checked := by
  have hwords := words_take h.lt h.head
  rw [l.fromV3_eq htext h.construct, if_neg]
  exact fun hlen => hwords.ne_nil (length_eq_zero_iff.mp hlen)

theorem IsWords.pos {ws e} (h : l.IsWords ws e) : 0 < l.magnitude := by
  rw [h.magnitude]
  exact fracVal_mul_pos h.head e

end Literal

end OceanBase.Number
