import Mathlib

/-!
# Codes that keep an order under concatenation

Words over a linearly ordered alphabet are compared letter by letter, a proper prefix being smaller.
A code keeps an order when the comparison of two code words is decided inside both of them, by
`firstDiff`: then nothing that follows the code words can change it, codes can be concatenated, and
reversing the letters reverses the order.

## Main definitions

* `lexCmp`: lexicographic comparison
* `firstDiff`: the same, where neither word may end before the other

## Main results

* `lexCmp_append`: what follows decides only between equal words
* `firstDiff_append`: concatenation
* `firstDiff_map`: reversal of the letters
-/

namespace LexCode

open List

variable {β : Type*} [LinearOrder β]

/-- Lexicographic comparison; a proper prefix is smaller. -/
def lexCmp : List β → List β → Ordering
  | [], [] => .eq
  | [], _ :: _ => .lt
  | _ :: _, [] => .gt
  | a :: x, b :: y => (cmp a b).then (lexCmp x y)

/-- The comparison of two words that is decided inside both: they are equal, or differ at a
letter. -/
def firstDiff : List β → List β → Option Ordering
  | [], [] => some .eq
  | a :: x, b :: y => if a = b then firstDiff x y else some (cmp a b)
  | _, _ => none

variable {x y s t : List β} {a b : β} {o o' : Ordering}

/-- Different letters decide. -/
theorem cmp_then (h : a ≠ b) : (cmp a b).then o = cmp a b := by
  rcases lt_or_gt_of_ne h with hlt | hgt
  · rw [(cmp_eq_lt_iff _ _).mpr hlt]
    rfl
  · rw [(cmp_eq_gt_iff _ _).mpr hgt]
    rfl

@[simp]
theorem lexCmp_cons_self : lexCmp (a :: x) (a :: y) = lexCmp x y := by
  simp [lexCmp, cmp_self_eq_eq]

theorem lexCmp_cons_of_ne (h : a ≠ b) : lexCmp (a :: x) (b :: y) = cmp a b := by
  rw [lexCmp, cmp_then h]

@[simp]
theorem firstDiff_cons_self : firstDiff (a :: x) (a :: y) = firstDiff x y := by
  simp [firstDiff]

theorem firstDiff_cons_of_ne (h : a ≠ b) : firstDiff (a :: x) (b :: y) = some (cmp a b) := by
  simp [firstDiff, h]

theorem lexCmp_append_left (p : List β) : lexCmp (p ++ x) (p ++ y) = lexCmp x y := by
  induction p with
  | nil => rfl
  | cons a p ih => simpa using ih

theorem firstDiff_append_left (p : List β) : firstDiff (p ++ x) (p ++ y) = firstDiff x y := by
  induction p with
  | nil => rfl
  | cons a p ih => simpa using ih

@[simp]
theorem firstDiff_self : firstDiff x x = some .eq := by
  induction x with
  | nil => rfl
  | cons a x ih => rw [firstDiff_cons_self, ih]

theorem firstDiff_swap (x y : List β) : firstDiff y x = (firstDiff x y).map Ordering.swap := by
  induction x generalizing y with
  | nil => cases y <;> rfl
  | cons a x ih =>
    cases y with
    | nil => rfl
    | cons b y =>
    by_cases hab : a = b
    · subst hab
      simpa using ih y
    · rw [firstDiff_cons_of_ne hab, firstDiff_cons_of_ne (Ne.symm hab)]
      simp [cmp_swap]

section

variable (h : firstDiff x y = some o)
include h

/-- **What follows two code words** decides only if they are equal. -/
theorem lexCmp_append :
    lexCmp (x ++ s) (y ++ t) = o.then (lexCmp s t) := by
  induction x generalizing y with
  | nil =>
    cases y with
    | nil =>
      cases h
      rfl
    | cons b y => cases h
  | cons a x ih =>
    cases y with
    | nil => cases h
    | cons b y =>
    by_cases hab : a = b
    · subst hab
      rw [firstDiff_cons_self] at h
      simpa using ih h
    · rw [firstDiff_cons_of_ne hab] at h
      cases h
      rw [cons_append, cons_append, lexCmp_cons_of_ne hab, cmp_then hab]

theorem lexCmp_of_firstDiff : lexCmp x y = o := by
  have happ := lexCmp_append (s := []) (t := []) h
  rw [append_nil, append_nil] at happ
  rw [happ]
  cases o <;> rfl

/-- **Code words one after the other.** -/
theorem firstDiff_append (h' : firstDiff s t = some o') :
    firstDiff (x ++ s) (y ++ t) = some (o.then o') := by
  induction x generalizing y with
  | nil =>
    cases y with
    | nil =>
      cases h
      exact h'
    | cons b y => cases h
  | cons a x ih =>
    cases y with
    | nil => cases h
    | cons b y =>
    by_cases hab : a = b
    · subst hab
      rw [firstDiff_cons_self] at h
      simpa using ih h
    · rw [firstDiff_cons_of_ne hab] at h
      cases h
      rw [cons_append, cons_append, firstDiff_cons_of_ne hab, cmp_then hab]

end

/-- **Reversing the letters** reverses the order of code words. -/
theorem firstDiff_map {f : β → β} (hf : ∀ a b, f a < f b ↔ b < a) (x y : List β) :
    firstDiff (x.map f) (y.map f) = (firstDiff x y).map Ordering.swap := by
  have hinj (a b : β) (h : f a = f b) : a = b :=
    le_antisymm (not_lt.mp fun hlt => absurd ((hf a b).mpr hlt) (h ▸ lt_irrefl _))
      (not_lt.mp fun hlt => absurd ((hf b a).mpr hlt) (h ▸ lt_irrefl _))
  induction x generalizing y with
  | nil => cases y <;> rfl
  | cons a x ih =>
    cases y with
    | nil => rfl
    | cons b y =>
    by_cases hab : a = b
    · subst hab
      simpa using ih y
    have hcmp : cmp (f a) (f b) = cmp b a := by
      rcases lt_or_gt_of_ne hab with hlt | hgt
      · rw [(cmp_eq_gt_iff _ _).mpr ((hf b a).mpr hlt), (cmp_eq_gt_iff _ _).mpr hlt]
      · rw [(cmp_eq_lt_iff _ _).mpr ((hf a b).mpr hgt), (cmp_eq_lt_iff _ _).mpr hgt]
    rw [map_cons, map_cons, firstDiff_cons_of_ne hab,
      firstDiff_cons_of_ne fun h => hab (hinj a b h), hcmp]
    simp [cmp_swap]

end LexCode
