import Mathlib

/-!
# Versions that are laid over each other

A version of a record deletes it or sets some of its fields. A list of versions, newest first, is
read by laying each one over the older ones, down to the first deletion. Reading in several steps
gives the same result if a version directly above a deletion sets all fields: then nothing that was
read so far shows what is below the deletion.

## Main definitions

* `RecordVersion`, `RecordVersion.over`: a version, and one laid over another
* `RecordVersion.fuse`: what a list of versions shows
* `RecordVersion.Covers`: the condition on neighbours

## Main results

* `RecordVersion.fuse_append`, `RecordVersion.fuse_flatten`: reading in several steps
-/

universe u v

/-- One version of a record with the fields `ι`. -/
inductive RecordVersion (ι : Type u) (α : Type v) where
  | deleted
  | live (f : ι → Option α)

/-- The version `a` laid over `b`. -/
def RecordVersion.over {ι : Type u} {α : Type v} :
    RecordVersion ι α → RecordVersion ι α → RecordVersion ι α
  | .deleted, _ => .deleted
  | .live f, .deleted => .live f
  | .live f, .live g => .live fun i => (f i).or (g i)

namespace RecordVersion

open Option

variable {ι : Type u} {α : Type v} {a b c : RecordVersion ι α} {l l₁ l₂ : List (RecordVersion ι α)}

/-- Nothing below the version shows. -/
def Full : RecordVersion ι α → Prop
  | .deleted => True
  | .live f => ∀ i, (f i).isSome = true

/-- A version above a deletion is full. -/
def Covers (a b : RecordVersion ι α) : Prop := b = .deleted → a.Full

/-- What a list of versions shows, the newest one first. -/
def fuse : List (RecordVersion ι α) → Option (RecordVersion ι α)
  | [] => none
  | a :: l => some ((fuse l).elim a a.over)

theorem over_of_full (h : a.Full) : a.over b = a := by
  cases a with
  | deleted => rfl
  | live f =>
    cases b with
    | deleted => rfl
    | live g =>
    refine congrArg live (funext fun i => ?_)
    obtain ⟨x, hx⟩ := isSome_iff_exists.mp (h i)
    rw [hx, some_or]

theorem over_assoc (h : Covers a b) : (a.over b).over c = a.over (b.over c) := by
  cases b with
  | deleted => rw [over_of_full (h rfl), over_of_full (h rfl), over_of_full (h rfl)]
  | live g =>
    cases a with
    | deleted => rfl
    | live f =>
      cases c with
      | deleted => rfl
      | live k => exact congrArg live (funext fun i => or_assoc)

theorem fuse_eq_none : fuse l = none ↔ l = [] := by
  cases l <;> simp [fuse]

theorem fuse_singleton : fuse [a] = some a := rfl

theorem fuse_cons (h : fuse l = some b) : fuse (a :: l) = some (a.over b) := by
  simp [fuse, h]

theorem fuse_of_full (h : a.Full) : fuse (a :: l) = some a := by
  cases hl : fuse l with
  | none => simp [fuse, hl]
  | some b => rw [fuse_cons hl, over_of_full h]

/-- A list shows a deletion only if its newest version is one. -/
theorem head_of_fuse_deleted (h : fuse l = some .deleted) : l.head? = some .deleted := by
  cases l with
  | nil => exact nomatch h
  | cons a l =>
    cases a with
    | deleted => rfl
    | live f =>
      cases hl : fuse l with
      | none => simp [fuse, hl] at h
      | some b =>
      rw [fuse_cons hl] at h
      cases b <;> exact nomatch some.inj h

theorem fuse_append (h : l₁.IsChain Covers) (h₁ : fuse l₁ = some a) (h₂ : fuse l₂ = some b) :
    fuse (l₁ ++ l₂) = some (a.over b) := by
  induction l₁ generalizing a with
  | nil => exact nomatch h₁
  | cons x l ih =>
    rw [List.cons_append]
    cases hl : fuse l with
    | none =>
      obtain rfl := fuse_eq_none.mp hl
      obtain rfl : x = a := some.inj h₁
      exact fuse_cons h₂
    | some y =>
      obtain rfl : x.over y = a := some.inj ((fuse_cons hl).symm.trans h₁)
      rw [fuse_cons (ih h.tail hl), over_assoc]
      -- where the rest shows a deletion, its head is one and `x` stands above it
      rintro rfl
      have hhead := head_of_fuse_deleted hl
      cases l with
      | nil => exact nomatch hhead
      | cons z l =>
      obtain rfl : z = .deleted := some.inj hhead
      exact (List.isChain_cons_cons.mp h).1 rfl

theorem fuse_flatten {gs : List (List (RecordVersion ι α))} {vs : List (RecordVersion ι α)}
    (h : gs.flatten.IsChain Covers) (hgs : gs.map fuse = vs.map some) :
    fuse vs = fuse gs.flatten := by
  induction gs generalizing vs with
  | nil =>
    obtain rfl : vs = [] := by simpa using hgs.symm
    rfl
  | cons g gs ih =>
    cases vs with
    | nil => simp at hgs
    | cons v vs =>
      obtain ⟨hg, hgs⟩ := List.cons.inj hgs
      rw [List.flatten_cons] at h ⊢
      have hrest := ih h.right_of_append hgs
      cases hf : fuse gs.flatten with
      | none =>
        have hnil := fuse_eq_none.mp hf
        obtain rfl := fuse_eq_none.mp (hrest.trans hf)
        rw [hnil, List.append_nil, hg]
        rfl
      | some w =>
        rw [fuse_cons (hrest.trans hf), fuse_append h.left_of_append hg hf]

end RecordVersion
