import Mathlib

/-!
# Ring buffers

Cells `0, …, R - 1` that hold an endless sequence of values, the value with number `x` in the cell
`x % R`. A run of values is copied in two parts if it crosses the end of the ring. The lemmas say
which cells a copy writes and which values a read returns, in terms of residues only.

## Main definitions

* `RingBuffer.memcpy`: copying a list of values to consecutive cells
* `RingBuffer.write`, `RingBuffer.read`: copying into and out of the ring in at most two parts

## Main results

* `RingBuffer.write_apply`, `RingBuffer.write_apply_of_ne`: the cells that a write changes
* `RingBuffer.getElem?_read`: the values that a read returns
* `RingBuffer.ne_residue`: values less than a ring apart lie in different cells
-/

universe u

namespace RingBuffer

open List Nat

variable {α : Type u} {R pos : ℕ} {buf : ℕ → α} {data : List α}

/-- Copies `data` to the cells from `pos` on. -/
def memcpy (buf : ℕ → α) (pos : ℕ) (data : List α) (p : ℕ) : α :=
  if pos ≤ p then (data[p - pos]?).getD (buf p) else buf p

/-- Copies `data` into a ring of `R` cells, from the cell `pos` on. -/
def write (R pos : ℕ) (buf : ℕ → α) (data : List α) : ℕ → α :=
  let firstPartLen := min (R - pos) data.length
  let buf := memcpy buf pos (data.take firstPartLen)
  if firstPartLen < data.length then memcpy buf 0 (data.drop firstPartLen) else buf

/-- Copies `n` values out of a ring of `R` cells, from the cell `pos` on. -/
def read (R pos : ℕ) (buf : ℕ → α) (n : ℕ) : List α :=
  let firstPartLen := min (R - pos) n
  (range firstPartLen).map (fun i => buf (pos + i)) ++
    if firstPartLen < n then (range (n - firstPartLen)).map buf else []

theorem memcpy_apply {i} (hi : i < data.length) : memcpy buf pos data (pos + i) = data[i] := by
  simp [memcpy, hi]

theorem memcpy_of_lt {p} (hp : p < pos) : memcpy buf pos data p = buf p := by
  rw [memcpy, if_neg (not_le.mpr hp)]

theorem memcpy_of_le {p} (hp : pos + data.length ≤ p) : memcpy buf pos data p = buf p := by
  rw [memcpy, if_pos (by omega), getElem?_eq_none (by omega), Option.getD_none]

/-- A run that does not cross the end is one copy. -/
theorem write_of_le (h : pos + data.length ≤ R) : write R pos buf data = memcpy buf pos data := by
  have hmin : min (R - pos) data.length = data.length := by omega
  unfold write
  rw [hmin]
  dsimp only
  rw [take_length, if_neg (lt_irrefl _)]

theorem write_of_lt (hpos : pos < R) (h : R < pos + data.length) : write R pos buf data =
      memcpy (memcpy buf pos (data.take (R - pos))) 0 (data.drop (R - pos)) := by
  have hmin : min (R - pos) data.length = R - pos := by omega
  unfold write
  rw [hmin]
  exact if_pos (by omega)

theorem write_apply (hpos : pos < R) (hlen : data.length ≤ R) {i} (hi : i < data.length) :
    write R pos buf data ((pos + i) % R) = data[i] := by
  rcases lt_or_ge R (pos + data.length) with hwrap | hle
  · rw [write_of_lt hpos hwrap]
    rcases lt_or_ge (pos + i) R with hbefore | hafter
    · -- the first part, which the second one does not reach
      rw [mod_eq_of_lt hbefore, memcpy_of_le (by simp; omega),
        memcpy_apply (by rw [length_take]; omega), getElem_take]
    have hmod : (pos + i) % R = 0 + (i - (R - pos)) := by
      rw [mod_eq_sub_mod hafter, mod_eq_of_lt (by omega)]
      omega
    rw [hmod, memcpy_apply (by rw [length_drop]; omega), getElem_drop]
    congr 1
    omega
  · rw [write_of_le hle, mod_eq_of_lt (by omega), memcpy_apply hi]

theorem write_apply_of_ne (hpos : pos < R) {p} (hp : p < R)
    (hne : ∀ i < data.length, (pos + i) % R ≠ p) : write R pos buf data p = buf p := by
  rcases lt_or_ge R (pos + data.length) with hwrap | hle
  · have hge : pos + data.length - R ≤ p := by
      by_contra hlt
      refine hne (R - pos + p) (by omega) ?_
      rw [show pos + (R - pos + p) = R + p by omega, add_mod_left, mod_eq_of_lt hp]
    have hlt : p < pos := by
      by_contra hge'
      refine hne (p - pos) (by omega) ?_
      rw [show pos + (p - pos) = p by omega, mod_eq_of_lt hp]
    rw [write_of_lt hpos hwrap, memcpy_of_le (by rw [length_drop]; omega), memcpy_of_lt hlt]
  · rw [write_of_le hle]
    rcases lt_or_ge p pos with hlt | hge
    · exact memcpy_of_lt hlt
    refine memcpy_of_le (by_contra fun hlt => hne (p - pos) (by omega) ?_)
    rw [show pos + (p - pos) = p by omega, mod_eq_of_lt hp]

theorem length_read {n} : (read R pos buf n).length = n := by
  unfold read
  dsimp only
  split <;> simp <;> omega

theorem getElem?_read {n i} (hpos : pos < R) (hn : n ≤ R) (hi : i < n) :
    (read R pos buf n)[i]? = some (buf ((pos + i) % R)) := by
  unfold read
  dsimp only
  rcases lt_or_ge (pos + i) R with hbefore | hafter
  · rw [getElem?_append_left (by simp; omega), getElem?_map,
      getElem?_range (by omega), mod_eq_of_lt hbefore]
    rfl
  have hmin : min (R - pos) n = R - pos := by omega
  rw [hmin, if_pos (by omega), getElem?_append_right (by simp; omega), length_map,
    length_range, getElem?_map, getElem?_range (by omega),
    mod_eq_sub_mod hafter, mod_eq_of_lt (by omega)]
  exact congrArg (fun p => some (buf p)) (by omega)

/-- **Values less than a ring apart lie in different cells.** -/
theorem ne_residue {x y} (hxy : x < y) (h : y < x + R) : x % R ≠ y % R := by
  intro heq
  have hdvd : R ∣ y - x := dvd_of_mod_eq_zero (sub_mod_eq_zero_of_mod_eq heq.symm)
  exact absurd (le_of_dvd (by omega) hdvd) (by omega)

end RingBuffer
