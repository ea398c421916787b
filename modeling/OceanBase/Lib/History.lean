import Mathlib

/-!
# Histories whose events are justified by their past

A machine that writes down what it does keeps a list of events, oldest first. Ordering properties
of such a list ("this never happens before that") are all of one form: each event stands in some
relation to the events before it. The form is closed under writing down one more event, so an
invariant over the whole history costs one obligation for each step, about the new event alone.

## Main definitions

* `Justified P l`: every event of `l` is related by `P` to the events before it

## Main results

* `justified_concat`: one more event adds one obligation
-/

open List

universe u

variable {α : Type u} {P : List α → α → Prop} {l : List α} {x : α}

/-- Every event of `l` is related by `P` to the events before it. -/
def Justified (P : List α → α → Prop) (l : List α) : Prop :=
  ∀ a x b, l = a ++ x :: b → P a x

@[simp] theorem justified_nil : Justified P [] := by
  intro a x b h
  simp at h

/-- **The rule for histories.** Writing down one more event leaves one thing to prove. -/
theorem justified_concat : Justified P (l ++ [x]) ↔ Justified P l ∧ P l x := by
  constructor
  · intro h
    refine ⟨fun a y b hl => h a y (b ++ [x]) ?_, h l x [] rfl⟩
    rw [hl, append_assoc, cons_append]
  rintro ⟨hl, hx⟩ a y b h
  -- either the event is the new one, or the split is a split of the old history
  rcases eq_nil_or_concat b with rfl | ⟨b', z, rfl⟩
  · obtain ⟨rfl, hxy⟩ := append_inj' h rfl
    rw [cons.injEq] at hxy
    rw [← hxy.1]
    exact hx
  · rw [concat_eq_append, ← cons_append, ← append_assoc] at h
    exact hl a y b' (append_inj' h rfl).1
