import Mathlib

/-!
# Majorities

Majorities of a list of members, in the form in which replicated systems count them: a fixed
number `n` of expected members, a list of at most `n` actual ones, and a threshold `n / 2 + 1`.
Two majorities share a member. A majority is found either by counting flags in an array indexed
by the position of the member, or by sorting an array of values downwards and taking the element
in the middle.

## Main definitions

* `IsMajority`: a set of at least `n / 2 + 1` members
* `Nearby`: lists that differ by the addition or the removal of one member
* `sortDesc`: the values of an array, largest first

## Main results

* `IsMajority.exists_common`: two majorities share a member
* `Nearby.exists_common`: so do majorities before and after the change of one member
* `exists_finset_of_countP`: flags that each speak for the member at their position
* `le_sortDesc_iff`: the element at position `k` of the sorted array is at least `v` exactly when
  `k + 1` elements are
-/

open List

universe u v

variable {α : Type u} {β : Type v}

/-! ## Intersection -/

/-- A set of at least `n / 2 + 1` of the members. -/
structure IsMajority (members : List α) (n : ℕ) (Q : Finset α) : Prop where
  subset : ∀ a ∈ Q, a ∈ members
  card : n / 2 + 1 ≤ Q.card

/-- One of the lists extends the other by at most one member. -/
def Nearby (l l' : List α) : Prop :=
  l ⊆ l' ∧ l'.length ≤ l.length + 1 ∨ l' ⊆ l ∧ l.length ≤ l'.length + 1

theorem Nearby.refl (l : List α) : Nearby l l := .inl ⟨Subset.refl l, Nat.le_succ _⟩

variable {l l' : List α} {Q Q' : Finset α}

theorem Nearby.append_left (h : Nearby l l') (k : List α) : Nearby (k ++ l) (k ++ l') := by
  simp only [Nearby, length_append]
  refine h.imp (fun h => ⟨?_, by omega⟩) fun h => ⟨?_, by omega⟩
  all_goals
    exact append_subset.mpr ⟨subset_append_left .., subset_append_of_subset_right _ h.1⟩

theorem Nearby.append_right (h : Nearby l l') (k : List α) : Nearby (l ++ k) (l' ++ k) := by
  simp only [Nearby, length_append]
  refine h.imp (fun h => ⟨?_, by omega⟩) fun h => ⟨?_, by omega⟩
  all_goals
    exact append_subset.mpr ⟨subset_append_of_subset_left _ h.1, subset_append_right ..⟩

theorem IsMajority.exists_common_of_subset {n n'}
    (hsub : l ⊆ l') (hlen : l'.length ≤ l.length + 1) (hn : l.length ≤ n) (hn' : l'.length ≤ n')
    (h : IsMajority l n Q) (h' : IsMajority l' n' Q') : ∃ a, a ∈ Q ∧ a ∈ Q' := by
  classical
  have hQ : Q ⊆ l'.toFinset := fun a ha => mem_toFinset.mpr (hsub (h.subset a ha))
  have hQ' : Q' ⊆ l'.toFinset := fun a ha => mem_toFinset.mpr (h'.subset a ha)
  have hcard : l'.toFinset.card < Q.card + Q'.card := by
    have hle := l'.toFinset_card_le
    have h₁ := h.card
    have h₂ := h'.card
    omega
  obtain ⟨a, ha⟩ := Finset.inter_nonempty_of_card_lt_card_add_card hQ hQ' hcard
  exact ⟨a, (Finset.mem_inter.mp ha).1, (Finset.mem_inter.mp ha).2⟩

/-- **Majorities before and after the change of one member share a member**, whatever the numbers
of expected members are, as long as neither list is longer than its number. -/
theorem Nearby.exists_common {n n'} (hl : Nearby l l')
    (hn : l.length ≤ n) (hn' : l'.length ≤ n') (h : IsMajority l n Q) (h' : IsMajority l' n' Q') :
    ∃ a, a ∈ Q ∧ a ∈ Q' := by
  rcases hl with ⟨hsub, hlen⟩ | ⟨hsub, hlen⟩
  · exact h.exists_common_of_subset hsub hlen hn hn' h'
  obtain ⟨a, ha, ha'⟩ := h'.exists_common_of_subset hsub hlen hn' hn h
  exact ⟨a, ha', ha⟩

theorem IsMajority.exists_common {members : List α} {n}
    (hn : members.length ≤ n) (h : IsMajority members n Q) (h' : IsMajority members n Q') :
    ∃ a, a ∈ Q ∧ a ∈ Q' :=
  (Nearby.refl members).exists_common hn hn h h'

/-! ## Counting flags -/

/-- If every marked entry of `xs` speaks for the member at its position, then as many members as
there are marked entries are spoken for. -/
theorem exists_finset_of_countP {P : α → Prop} {f : β → Bool} {members : List α} {xs : List β}
    (hnd : members.Nodup)
    (h : ∀ (i : ℕ) (x : β), xs[i]? = some x → f x = true → ∃ a, members[i]? = some a ∧ P a) :
    ∃ Q : Finset α, (∀ a ∈ Q, a ∈ members ∧ P a) ∧ xs.countP f ≤ Q.card := by
  classical
  induction xs generalizing members with
  | nil => exact ⟨∅, by simp, by simp⟩
  | cons x xs ih =>
  -- the tail of `xs` speaks for the tail of the members
  have hnd' : members.tail.Nodup := hnd.tail
  obtain ⟨Q, hQ, hcount⟩ := ih hnd' fun i y hy hf => by
    obtain ⟨a, ha, hP⟩ := h (i + 1) y (by simpa using hy) hf
    exact ⟨a, by simpa [getElem?_tail] using ha, hP⟩
  have htail : ∀ a ∈ Q, a ∈ members ∧ P a := fun a ha =>
    ⟨mem_of_mem_tail (hQ a ha).1, (hQ a ha).2⟩
  by_cases hf : f x = true
  · obtain ⟨a, ha, hP⟩ := h 0 x (by simp) hf
    obtain ⟨as, rfl⟩ := head?_eq_some_iff.mp (head?_eq_getElem?.trans ha)
    have hnotin : a ∉ Q := fun hmem => (nodup_cons.mp hnd).1 (hQ a hmem).1
    refine ⟨insert a Q, fun b hb => ?_, ?_⟩
    · rcases Finset.mem_insert.mp hb with rfl | hb
      · exact ⟨mem_cons_self, hP⟩
      · exact htail b hb
    · rw [countP_cons_of_pos hf, Finset.card_insert_of_notMem hnotin]
      omega
  · exact ⟨Q, htail, by rwa [countP_cons_of_neg hf]⟩

/-! ## The element in the middle -/

section Middle

variable [LinearOrder β]

/-- The values of an array, largest first. -/
def sortDesc (xs : List β) : List β := xs.insertionSort (· ≥ ·)

theorem sortDesc_perm (xs : List β) : (sortDesc xs).Perm xs := perm_insertionSort _ xs

@[simp] theorem length_sortDesc (xs : List β) : (sortDesc xs).length = xs.length :=
  (sortDesc_perm xs).length_eq

theorem sortDesc_pairwise (xs : List β) : (sortDesc xs).Pairwise (· ≥ ·) :=
  pairwise_insertionSort _ xs

/-- **The element at position `k` from the top is at least `v` exactly when `k + 1` elements
are.** -/
theorem le_sortDesc_iff {xs} {k : ℕ} {x v : β} (hx : (sortDesc xs)[k]? = some x) :
    v ≤ x ↔ k + 1 ≤ xs.countP (fun y => decide (v ≤ y)) := by
  obtain ⟨hk, rfl⟩ := List.getElem?_eq_some_iff.mp hx
  have hsorted := List.pairwise_iff_getElem.mp (sortDesc_pairwise xs)
  rw [← (sortDesc_perm xs).countP_eq]
  -- the array splits into the first `k + 1` elements, all at least the one at `k`, and the rest
  have hsplit := take_append_drop k (sortDesc xs)
  constructor
  · intro hv
    have hall : ∀ y ∈ (sortDesc xs).take (k + 1), decide (v ≤ y) = true := by
      intro y hy
      obtain ⟨i, hi, rfl⟩ := getElem_of_mem hy
      rw [length_take] at hi
      rw [getElem_take, decide_eq_true_eq]
      rcases Nat.lt_or_ge i k with h | h
      · exact hv.trans (hsorted i k (by omega) hk h)
      obtain rfl : i = k := by omega
      exact hv
    calc k + 1 = ((sortDesc xs).take (k + 1)).length := by
          rw [length_take]; omega
      _ = ((sortDesc xs).take (k + 1)).countP (fun y => decide (v ≤ y)) :=
          (countP_eq_length.mpr hall).symm
      _ ≤ (sortDesc xs).countP (fun y => decide (v ≤ y)) :=
          (take_sublist _ _).countP_le
  · intro hcount
    by_contra hv
    have hnone : ((sortDesc xs).drop k).countP (fun y => decide (v ≤ y)) = 0 := by
      refine countP_eq_zero.mpr fun y hy => ?_
      obtain ⟨i, hi, rfl⟩ := getElem_of_mem hy
      rw [length_drop] at hi
      rw [getElem_drop, decide_eq_true_eq]
      rcases Nat.eq_zero_or_pos i with rfl | hpos
      · exact hv
      · exact fun hle => hv (hle.trans (hsorted k (k + i) hk (by omega) (by omega)))
    have hle : ((sortDesc xs).take k).countP (fun y => decide (v ≤ y)) ≤ k :=
      countP_le_length.trans (by rw [length_take]; omega)
    rw [← hsplit, countP_append, hnone] at hcount
    omega

end Middle
