import Mathlib

/-!
# Machines and their invariants

A machine is a set of initial states and a step relation. A safety property is proved by an
invariant: a predicate that holds initially and that every step keeps. The rule is stated once,
in the form in which an invariant may be proved with the help of one already known.

## Main definitions

* `Machine`, `Machine.Reachable`: a machine and its reachable states
* `Machine.Keeps`: every step from a state of the first predicate keeps the second

## Main results

* `Machine.Reachable.of_keeps`: an invariant holds in every reachable state
* `Machine.Reachable.of_keeps_with`: an invariant relative to another one
* `Machine.Reachable.of_run`: a run of actions stays reachable
* `star_keeps`: what one move keeps, a sequence of moves keeps
-/

universe u

/-- Initial states and steps. -/
structure Machine (σ : Type u) where
  init : σ → Prop
  step : σ → σ → Prop

namespace Machine

variable {σ : Type u} {M : Machine σ} {I J : σ → Prop} {s : σ}

/-- The states a run of the machine reaches. -/
inductive Reachable (M : Machine σ) : σ → Prop
  | init {s : σ} (h : M.init s) : Reachable M s
  | step {s s' : σ} (hs : Reachable M s) (h : M.step s s') : Reachable M s'

/-- Steps from states of `J` keep `I`. -/
def Keeps (M : Machine σ) (J I : σ → Prop) : Prop :=
  ∀ s s', J s → I s → M.step s s' → I s'

/-- **The invariant rule**, relative to an invariant `J` that is already known. -/
theorem Reachable.of_keeps_with (hJ : ∀ s, M.Reachable s → J s) (h₀ : ∀ s, M.init s → I s)
    (hk : M.Keeps J I) (hs : M.Reachable s) : I s := by
  induction hs with
  | init h => exact h₀ _ h
  | step hs h ih => exact hk _ _ (hJ _ hs) ih h

/-- **The invariant rule.** -/
theorem Reachable.of_keeps (h₀ : ∀ s, M.init s → I s)
    (hk : ∀ s s', I s → M.step s s' → I s') (hs : M.Reachable s) : I s :=
  hs.of_keeps_with (J := fun _ => True) (fun _ _ => trivial) h₀ fun s s' _ => hk s s'

/-- **A run of actions stays reachable**, if each of them is a step. -/
theorem Reachable.of_run {α : Type*} {f : σ → List α → Option σ} {g : σ → α → Option σ} {as s'}
    (hs : M.Reachable s) (h : f s as = some s') (hnil : ∀ s, f s [] = some s)
    (hcons : ∀ s a as, f s (a :: as) = (g s a).bind fun s' => f s' as)
    (hstep : ∀ s a s', g s a = some s' → M.step s s') : M.Reachable s' := by
  induction as generalizing s with
  | nil => exact Option.some.inj (hnil s ▸ h) ▸ hs
  | cons a as ih =>
    obtain ⟨t, ht, h⟩ := Option.bind_eq_some_iff.mp (hcons s a as ▸ h)
    exact ih (hs.step (hstep s a t ht)) h

end Machine

/-- What one move keeps, a sequence of moves keeps. -/
theorem star_keeps {σ : Type u} {R : σ → σ → Prop} {I : σ → Prop}
    (hk : ∀ s s', R s s' → I s → I s') {s s'} (h : Relation.ReflTransGen R s s')
    (hs : I s) : I s' := by
  induction h with
  | refl => exact hs
  | tail _ h ih => exact hk _ _ h ih
