import Mathlib

/-!
# Key parts of an index range

The optimizer describes the conditions on the columns of an index by a graph of key
parts. A part bounds one column by an interval, `and_next_` leads to the conditions that
hold together with it and `or_next_` to its alternatives.
-/

namespace OceanBase.QueryRange

/-- The bound of an interval: a column value, or MIN below and MAX above every value. -/
abbrev Bound (α : Type*) := WithBot (WithTop α)

variable {α : Type*}

def Bound.val (v : α) : Bound α := ((v : WithTop α) : WithBot (WithTop α))

variable [LinearOrder α]

/-- A normal key part: the offset of its column, the interval, and the flags of the parts
`alloc_full_key_part` and `alloc_empty_key_part` make. -/
structure NormalKey (α : Type*) [LinearOrder α] where
  offset : ℤ
  start : Bound α
  end_ : Bound α
  includeStart : Bool
  includeEnd : Bool
  alwaysTrue : Bool := false
  alwaysFalse : Bool := false
  alwaysTrue_bounds : alwaysTrue = true → start = ⊥ ∧ end_ = ⊤ := by simp
  alwaysFalse_bounds : alwaysFalse = true → start = ⊤ ∧ end_ = ⊥ := by simp

namespace NormalKey

/-- `v` is not below the start of the interval. -/
def AboveStart (k : NormalKey α) (v : α) : Prop :=
  k.start < Bound.val v ∨ (k.includeStart = true ∧ k.start = Bound.val v)

/-- `v` is not above the end of the interval. -/
def BelowEnd (k : NormalKey α) (v : α) : Prop :=
  Bound.val v < k.end_ ∨ (k.includeEnd = true ∧ Bound.val v = k.end_)

/-- `v` lies in the interval of the key part. -/
def Contains (k : NormalKey α) (v : α) : Prop :=
  k.AboveStart v ∧ k.BelowEnd v

instance (k : NormalKey α) (v : α) : Decidable (k.Contains v) :=
  inferInstanceAs (Decidable ((_ ∨ _) ∧ (_ ∨ _)))

/-- `key_node_is_equal` on normal parts with known bounds. -/
def keyNodeIsEqual (k l : NormalKey α) : Bool :=
  k.offset = l.offset && k.start = l.start && k.end_ = l.end_
    && k.includeStart = l.includeStart && k.includeEnd = l.includeEnd

variable {k l u : NormalKey α}

end NormalKey

/-- A graph of key parts. `null` is the null pointer; no part is reached on two ways. -/
inductive KeyPart (α : Type*) [LinearOrder α] where
  | null
  | part (key : NormalKey α) (andNext orNext : KeyPart α)

/-- One key part with the conditions that follow it, apart from its alternatives. -/
structure Head (α : Type*) [LinearOrder α] where
  key : NormalKey α
  andNext : KeyPart α

namespace KeyPart

/-- The test of a pointer against `NULL`. -/
def isNull : KeyPart α → Bool
  | null => true
  | part .. => false

@[simp] theorem isNull_null : (null : KeyPart α).isNull = true := rfl

@[simp] theorem isNull_part (k : NormalKey α) (a o : KeyPart α) : (part k a o).isNull = false := rfl

/-- `pos_.offset_` of the first part of a graph. -/
def headOffset : KeyPart α → ℤ
  | null => -1
  | part k _ _ => k.offset

/-- The formula of a graph: a part's column lies in its interval and its `and_next_` graph
holds, or one of its alternatives does. -/
def Holds (row : ℤ → α) : KeyPart α → Prop
  | null => False
  | part k a o => (k.Contains (row k.offset) ∧ (a.isNull = true ∨ a.Holds row)) ∨ o.Holds row

/-- The formula of a graph can be evaluated on a row. -/
def decHolds (row : ℤ → α) : (g : KeyPart α) → Decidable (g.Holds row)
  | null => .isFalse id
  | part _ a o =>
    have := decHolds row a
    have := decHolds row o
    inferInstanceAs (Decidable ((_ ∧ (_ ∨ _)) ∨ _))

instance (row : ℤ → α) (g : KeyPart α) : Decidable (g.Holds row) := decHolds row g

/-- `equal_to`. The loop over `or_next_` runs only while both graphs have another
alternative, so that a longer list of alternatives equals a shorter one. -/
def equalTo : KeyPart α → KeyPart α → Bool
  | null, _ => false
  | part .., null => false
  | part k a o, part k' a' o' =>
    k.keyNodeIsEqual k'
      && (if a.isNull then a'.isNull else equalTo a a')
      && (if o.isNull || o'.isNull then true else equalTo o o')

@[simp] theorem equalTo_null (g : KeyPart α) : g.equalTo null = false := by
  cases g <;> rfl

/-- `equal_to` with a loop that goes on to the end of the second graph's alternatives. Where
`equal_to` alone holds, its loop has left alternatives of the second graph out. -/
def covers : KeyPart α → KeyPart α → Bool
  | null, _ => false
  | part .., null => false
  | part k a o, part k' a' o' =>
    k.keyNodeIsEqual k' && (if a.isNull then a'.isNull else covers a a')
      && (o'.isNull || covers o o')

/-- `split_or`: the alternatives of a graph, each without the others. -/
def splitOr : KeyPart α → List (Head α)
  | null => []
  | part k a o => ⟨k, a⟩ :: o.splitOr

/-- The offsets of a graph: equal along `or_next_`, strictly increasing along `and_next_`. -/
def Ordered : KeyPart α → Prop
  | null => True
  | part k a o => a.Ordered ∧ o.Ordered ∧ (∀ h ∈ a.splitOr, k.offset < h.key.offset) ∧
      ∀ h ∈ o.splitOr, h.key.offset = k.offset

/-- A graph whose offsets are in order can be recognized. -/
def decOrdered : (g : KeyPart α) → Decidable g.Ordered
  | null => .isTrue trivial
  | part _ a o =>
    have := decOrdered a
    have := decOrdered o
    inferInstanceAs (Decidable (_ ∧ _ ∧ _ ∧ _))

instance (g : KeyPart α) : Decidable g.Ordered := decOrdered g

/-- The intervals of the alternatives of a part are pairwise disjoint. -/
def Disjoint : KeyPart α → Prop
  | null => True
  | part k a o => a.Disjoint ∧ o.Disjoint ∧
      ∀ h ∈ o.splitOr, ∀ v, ¬ (k.Contains v ∧ h.key.Contains v)

/-- The longest `and_next_` path of a graph. -/
def depth : KeyPart α → ℕ
  | null => 0
  | part _ a o => max (a.depth + 1) o.depth

/-- The key part `alloc_full_key_part` makes, which belongs to no column. -/
def full : KeyPart α :=
  part { offset := -1, start := ⊥, end_ := ⊤, includeStart := false, includeEnd := false,
         alwaysTrue := true } null null

end KeyPart

namespace Head

/-- The formula of a part and what follows it. -/
def Holds (row : ℤ → α) (h : Head α) : Prop :=
  h.key.Contains (row h.key.offset) ∧ (h.andNext.isNull = true ∨ h.andNext.Holds row)

end Head

end OceanBase.QueryRange
