import Mathlib

/-!
# Simple paths, simple cycles and floods along them

A token that carries the nodes it has passed, and that no node takes twice, travels along simple
paths of a relation. Its path has at most as many nodes as there are, so a flood of such tokens
ends: with at most `d` copies at each node, a token that has passed `k` of `n` nodes causes at most
`floodBound n d k` further ones.

## Main definitions

* `IsSimplePath`, `IsSimpleCycle`: paths and cycles that pass no node twice
* `floodBound`: how many tokens one token can still cause

## Main results

* `IsSimplePath.concat`, `IsSimplePath.close`: a path grows at its end, or closes to a cycle
* `floodBound_step`: the copies of a token, with all that they cause, are within the bound of the
  token
-/

variable {V : Type*} {R : V → V → Prop} {l : List V} {v : V}

/-- Each node is related to the next one, and none occurs twice. -/
structure IsSimplePath (R : V → V → Prop) (l : List V) : Prop where
  chain : l.IsChain R
  nodup : l.Nodup

/-- A simple path whose last node is related to its first one. -/
structure IsSimpleCycle (R : V → V → Prop) (l : List V) : Prop extends IsSimplePath R l where
  ne_nil : l ≠ []
  closes : ∀ a ∈ l.getLast?, ∀ b ∈ l.head?, R a b

/-- A path grows by a node that is not on it. -/
theorem IsSimplePath.concat (h : IsSimplePath R l) (hr : ∀ a ∈ l.getLast?, R a v) (hv : v ∉ l) :
    IsSimplePath R (l ++ [v]) := by
  constructor
  · apply h.chain.append (List.isChain_singleton v)
    rintro a ha b hb
    obtain rfl : v = b := by simpa using hb
    exact hr a ha
  · exact h.nodup.append (List.nodup_singleton v) (by simpa using hv)

/-- A path whose last node is related to its first one is a cycle. -/
theorem IsSimplePath.close (h : IsSimplePath R (v :: l)) (hr : ∀ a ∈ (v :: l).getLast?, R a v) :
    IsSimpleCycle R (v :: l) := by
  refine ⟨h, List.cons_ne_nil v l, ?_⟩
  rintro a ha b hb
  obtain rfl : v = b := by simpa using hb
  exact hr a ha

theorem IsSimplePath.length_le_card [Fintype V] (h : IsSimplePath R l) :
    l.length ≤ Fintype.card V :=
  h.nodup.length_le_card

/-- How many tokens a token that has passed `k` of `n` nodes causes, with `d` copies at each
node. -/
def floodBound (n d k : ℕ) : ℕ := (d + 1) ^ (n - k) - 1

/-- `d` copies and what they cause. -/
theorem floodBound_step {n d k} (hk : k < n) :
    d * (1 + floodBound n d (k + 1)) ≤ floodBound n d k := by
  have hpos : 0 < (d + 1) ^ (n - (k + 1)) := Nat.pow_pos (Nat.succ_pos d)
  have hpow : (d + 1) ^ (n - k) = d * (d + 1) ^ (n - (k + 1)) + (d + 1) ^ (n - (k + 1)) := by
    obtain ⟨m, rfl⟩ : ∃ m, n = k + 1 + m := ⟨n - (k + 1), by omega⟩
    rw [show k + 1 + m - k = m + 1 by omega, show k + 1 + m - (k + 1) = m by omega]
    ring
  have hone : 1 + floodBound n d (k + 1) = (d + 1) ^ (n - (k + 1)) := by
    rw [floodBound]
    omega
  rw [hone, floodBound, hpow]
  omega

theorem floodBound_lt (n d k : ℕ) : floodBound n d k < (d + 1) ^ n := by
  have hpos : 0 < (d + 1) ^ (n - k) := Nat.pow_pos (Nat.succ_pos d)
  have hle : (d + 1) ^ (n - k) ≤ (d + 1) ^ n := Nat.pow_le_pow_right (by omega) (by omega)
  rw [floodBound]
  omega
