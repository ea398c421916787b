import OceanBase.Palf.LsnAllocator

/-!
# System change numbers

An `SCN` holds a 64 bit value, of which the values up to `OB_MAX_SCN_TS_NS` are valid and the
largest one is the invalid SCN. The comparison operators put the invalid SCN below every valid one;
valid SCNs compare as their values, so where both sides are known to be valid the model compares
the values.
-/

namespace OceanBase.Palf

def invalidScn : ℕ := 2 ^ 64 - 1

def minScn : ℕ := 0

def baseScn : ℕ := 1

def scnPlus (ref delta : ℕ) : ℕ :=
  if maxScn ≤ delta ∨ ¬ scnIsValid ref then invalidScn
  else if maxScn < ref + delta then invalidScn
  else ref + delta

def scnInc (scn : ℕ) : ℕ := if maxScn ≤ scn then invalidScn else scn + 1

def scnDec (scn : ℕ) : ℕ := if scn = minScn ∨ ¬ scnIsValid scn then invalidScn else scn - 1

section

variable (scn scn' : ℕ)

/-- `SCN::operator<`, and with the sides exchanged `SCN::operator>`. -/
def scnLt : Prop := scnIsValid scn' ∧ (scnIsValid scn → scn < scn')
  deriving Decidable

def scnLe : Prop := scnIsValid scn → scnIsValid scn' ∧ scn ≤ scn'
  deriving Decidable

def scnMax : ℕ := if scnLt scn' scn then scn else scn'

def scnMin : ℕ := if scnLt scn scn' then scn else scn'

end

theorem not_scnIsValid_invalidScn : ¬ scnIsValid invalidScn := by decide

variable {scn scn' : ℕ}

theorem scnLt_of_valid (h : scnIsValid scn) (h' : scnIsValid scn') :
    scnLt scn scn' ↔ scn < scn' := ⟨fun hlt => hlt.2 h, fun hlt => ⟨h', fun _ => hlt⟩⟩

theorem scnLe_refl (scn : ℕ) : scnLe scn scn := fun hv => ⟨hv, le_rfl⟩

theorem scnLe_trans {a b c} (hab : scnLe a b) (hbc : scnLe b c) : scnLe a c := fun hv =>
  ⟨(hbc (hab hv).1).1, (hab hv).2.trans (hbc (hab hv).1).2⟩

theorem not_scnLt : ¬ scnLt scn scn' ↔ scnLe scn' scn := by
  unfold scnLt scnLe
  rw [not_and, Classical.not_imp]
  exact imp_congr_right fun _ => and_congr_right fun _ => not_lt

theorem scnMax_of_valid (h : scnIsValid scn) (h' : scnIsValid scn') :
    scnMax scn scn' = max scn scn' := by
  simp only [scnMax, scnLt_of_valid h' h]
  split_ifs with hlt
  · exact (max_eq_left hlt.le).symm
  · exact (max_eq_right (not_lt.mp hlt)).symm

theorem scnMin_of_valid (h : scnIsValid scn) (h' : scnIsValid scn') :
    scnMin scn scn' = min scn scn' := by
  simp only [scnMin, scnLt_of_valid h h']
  split_ifs with hlt
  · exact (min_eq_left hlt.le).symm
  · exact (min_eq_right (not_lt.mp hlt)).symm

theorem scnMax_invalid_left (h : ¬ scnIsValid scn) : scnMax scn scn' = scn' :=
  if_neg fun hlt => h hlt.1

theorem scnMax_invalid_right (h : scnIsValid scn) (h' : ¬ scnIsValid scn') :
    scnMax scn scn' = scn := if_pos ⟨h, fun hv => absurd hv h'⟩

theorem scnPlus_one {scn} (h : scn < maxScn) : scnPlus scn 1 = scn + 1 := by
  have hv : scnIsValid scn := h.le
  have hone : ¬ maxScn ≤ 1 := by decide
  rw [scnPlus, if_neg (not_or.mpr ⟨hone, not_not.mpr hv⟩), if_neg (by omega)]

theorem scnPlus_one_of_valid {scn} (h : scnIsValid (scnPlus scn 1)) : scnPlus scn 1 = scn + 1 := by
  unfold scnPlus at h ⊢
  split_ifs at h ⊢
  · exact absurd h not_scnIsValid_invalidScn
  · exact absurd h not_scnIsValid_invalidScn
  · rfl

theorem scnInc_of_lt {scn} (h : scn < maxScn) : scnInc scn = scn + 1 := if_neg (not_le.mpr h)

theorem scnDec_lt {scn} (h : baseScn < scn) (hv : scnIsValid scn) : scnDec scn < scn := by
  unfold baseScn at h
  unfold scnDec minScn
  rw [if_neg (by rintro (h | h) <;> [omega; exact h hv])]
  omega

end OceanBase.Palf
