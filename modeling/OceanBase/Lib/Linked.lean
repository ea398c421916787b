import Mathlib

/-!
# Linked lists of items

Each item of a list leads from one position to the next one, as the segments of a path do. A list is
linked from `a` to `b` when its items do so in order, with nothing between them.

## Main definitions

* `Linked R a l b`: the items of `l` lead from `a` to `b`

## Main results

* `linked_singleton`, `linked_append`: one item, and one list after the other
-/

universe u v

variable {α : Type u} {β : Type v} {R : α → β → β → Prop} {a b c : β} {l l' : List α} {x : α}

/-- The items of `l` lead from one position to another; `R x a b` says that `x` leads from `a`
to `b`. -/
def Linked (R : α → β → β → Prop) : β → List α → β → Prop
  | a, [], b => a = b
  | a, x :: l, b => ∃ c, R x a c ∧ Linked R c l b

theorem linked_singleton : Linked R a [x] b ↔ R x a b := by
  constructor
  · rintro ⟨c, hx, rfl⟩
    exact hx
  · intro hx
    exact ⟨b, hx, rfl⟩

theorem linked_append : Linked R a (l ++ l') c ↔ ∃ b, Linked R a l b ∧ Linked R b l' c := by
  induction l generalizing a with
  | nil =>
    constructor
    · intro h
      exact ⟨a, rfl, h⟩
    · rintro ⟨b, rfl, h⟩
      exact h
  | cons x l ih =>
  constructor
  · rintro ⟨d, hx, h⟩
    obtain ⟨b, hl, hl'⟩ := ih.mp h
    exact ⟨b, ⟨d, hx, hl⟩, hl'⟩
  · rintro ⟨b, ⟨d, hx, hl⟩, hl'⟩
    exact ⟨d, hx, ih.mpr ⟨b, hl, hl'⟩⟩

/-- A list that is linked up to `b` is extended by one that is linked from there. -/
theorem Linked.append (h : Linked R a l b) (h' : Linked R b l' c) : Linked R a (l ++ l') c :=
  linked_append.mpr ⟨b, h, h'⟩
