import OceanBase.QueryRange.SearchState

/-!
# The ranges of a key-part graph

`get_tablet_ranges` turns a key-part graph into ranges of the index. `and_first_search` walks the
graph: as long as every column is a single value each alternative gives a range of its own; below
a column that is a proper range all alternatives are folded into one pair of bounds.

## Main results

* `getTabletRanges_contains`, `getTabletRanges_misses_row`
-/

namespace OceanBase.QueryRange

open OrderDual ObSearchState List Side KeyPart Function

variable {α : Type*} [LinearOrder α]

/-- The search state over the bounds of an index; the end has the reversed order. -/
abbrev SearchState (α : Type*) [LinearOrder α] := ObSearchState (Bound α) (Bound α)ᵒᵈ

/-! ## The code -/

/-- Missing columns before the part's column are filled in as (MIN, MAX). -/
def Side.fill {β : Type*} [LE β] [OrderBot β] (d : Side β) (lo hi : ℕ) : Side β :=
  { d with bound := fun j => if lo ≤ j ∧ j < hi then ⊥ else d.bound j
           incl := fun j => if lo ≤ j ∧ j < hi then false else d.incl j }

/-- The first step of `and_first_search`: the bounds of the key part enter the search state. -/
def ObSearchState.take (s : SearchState α) (k : NormalKey α) : SearchState α :=
  let i := k.offset.toNat
  let s := if k.alwaysTrue = false ∧ k.alwaysFalse = false ∧ s.depth < i then
      { s with start := s.start.fill s.depth i, end_ := s.end_.fill s.depth i }
    else s
  if s.depth + 1 ≤ s.maxExistIndex then
    { s with start := s.start.widen i k.start k.includeStart
             end_ := s.end_.widen i (toDual k.end_) k.includeEnd }
  else
    { s with start := s.start.set i k.start k.includeStart
             end_ := s.end_.set i (toDual k.end_) k.includeEnd
             maxExistIndex := s.depth + 1 }

/-- `need_process_and_next`: the graph that follows starts at the next column. -/
def needProcessAndNext (k : NormalKey α) (a : KeyPart α) : Bool :=
  !a.isNull && 0 ≤ k.offset && k.offset + 1 = a.headOffset

def notConsequent (k : NormalKey α) (a : KeyPart α) : Bool :=
  !a.isNull && k.offset + 1 ≠ a.headOffset

def andFirstSearch (columnCount : ℕ) : KeyPart α → SearchState α → SearchState α
  | .null, s => s
  | .part k a o, s =>
    let s₁ := s.take k
    let s₂ := if needProcessAndNext k a then
        { andFirstSearch columnCount a
            { s₁ with produceRange := if k.start = k.end_ then s₁.produceRange else false
                      depth := s₁.depth + 1 } with depth := s.depth }
      else s₁
    let s₃ := if s.produceRange && (a.isNull || k.start ≠ k.end_ || notConsequent k a) then
        s₂.generateCurRange columnCount s.depth s.produceRange
      else s₂
    andFirstSearch columnCount o s₃

/-- The search state `get_tablet_ranges` starts from. -/
def ObSearchState.init : SearchState α where
  start := { bound := fun _ => ⊥, incl := fun _ => false }
  end_ := { bound := fun _ => ⊥, incl := fun _ => false }
  depth := 0
  maxExistIndex := 0
  produceRange := true
  ranges := []

/-- The bound of column `i` of a row at the start of a range. -/
def startOf (row : ℤ → α) (i : ℕ) : Bound α := Bound.val (row i)

/-- The bound of column `i` of a row at the end of a range. -/
def endOf (row : ℤ → α) (i : ℕ) : (Bound α)ᵒᵈ := toDual (Bound.val (row i))

namespace ObSearchState

/-- Two search states have the same bounds and include flags in column `j`. -/
def SameAt (s s' : SearchState α) (j : ℕ) : Prop :=
  (s.start.bound j = s'.start.bound j ∧ s.start.incl j = s'.start.incl j) ∧
    s.end_.bound j = s'.end_.bound j ∧ s.end_.incl j = s'.end_.incl j

/-- The bounds of the first `e` columns are the row's values. -/
def Meets (s : SearchState α) (e : ℕ) (row : ℤ → α) : Prop :=
  ∀ i < e, (s.start.bound i = startOf row i ∧ s.start.incl i = true) ∧
    s.end_.bound i = endOf row i ∧ s.end_.incl i = true

theorem SameAt.refl (s : SearchState α) (j : ℕ) : s.SameAt s j := ⟨⟨rfl, rfl⟩, rfl, rfl⟩

theorem SameAt.trans {s s' s'' : SearchState α} {j} (h : s.SameAt s' j) (h' : s'.SameAt s'' j) :
    s.SameAt s'' j :=
  ⟨⟨h.1.1.trans h'.1.1, h.1.2.trans h'.1.2⟩, h.2.1.trans h'.2.1, h.2.2.trans h'.2.2⟩

variable {s s' : SearchState α} {row : ℤ → α}

theorem Meets.of_sameAt {e} (h : ∀ i < e, s.SameAt s' i) (hm : s.Meets e row) :
    s'.Meets e row := by
  intro i hi
  obtain ⟨⟨h1, h2⟩, h3, h4⟩ := h i hi
  obtain ⟨⟨m1, m2⟩, m3, m4⟩ := hm i hi
  exact ⟨⟨h1 ▸ m1, h2 ▸ m2⟩, h3 ▸ m3, h4 ▸ m4⟩

/-- The state in which the graph that follows the part `k` is searched. -/
def descend (s : SearchState α) (k : NormalKey α) : SearchState α :=
  { s.take k with produceRange := if k.start = k.end_ then (s.take k).produceRange else false
                  depth := (s.take k).depth + 1 }

end ObSearchState

section
variable {β : Type*} [LinearOrder β]

omit [LinearOrder β] in
theorem Side.set_same_of_ne (d : Side β) {i j} (h : j ≠ i) (b : β) (inc : Bool) :
    d.bound j = (d.set i b inc).bound j ∧ d.incl j = (d.set i b inc).incl j :=
  ⟨(update_of_ne h _ _).symm, (update_of_ne h _ _).symm⟩

theorem Side.widen_same_of_ne (d : Side β) {i j} (h : j ≠ i) (b : β) (inc : Bool) :
    d.bound j = (d.widen i b inc).bound j ∧ d.incl j = (d.widen i b inc).incl j := by
  unfold widen
  split
  · exact d.set_same_of_ne h b inc
  · exact ⟨rfl, rfl⟩

omit [LinearOrder β] in
theorem Side.set_at (d : Side β) (i : ℕ) (b : β) (inc : Bool) :
    (d.set i b inc).bound i = b ∧ (d.set i b inc).incl i = inc :=
  ⟨update_self .., update_self ..⟩

theorem Side.widen_le (d : Side β) (i : ℕ) (b : β) (inc : Bool) :
    (d.widen i b inc).bound i ≤ d.bound i ∧ (d.widen i b inc).bound i ≤ b := by
  unfold widen
  split
  · rename_i hlt
    rw [(d.set_at i b inc).1]
    exact ⟨hlt.le, le_rfl⟩
  · rename_i hle
    exact ⟨le_rfl, not_lt.mp hle⟩

end

/-! ## Taking one key part -/

namespace ObSearchState

variable {s : SearchState α} {k : NormalKey α} {d : ℕ}

section

variable (hd : s.depth = d) (hk : k.offset = d)
include hd hk

theorem take_eq : s.take k = if d + 1 ≤ s.maxExistIndex then
      { s with start := s.start.widen d k.start k.includeStart
               end_ := s.end_.widen d (toDual k.end_) k.includeEnd }
    else
      { s with start := s.start.set d k.start k.includeStart
               end_ := s.end_.set d (toDual k.end_) k.includeEnd
               maxExistIndex := d + 1 } := by
  have hi : k.offset.toNat = d := by rw [hk, Int.toNat_natCast]
  unfold take
  simp only [hi, hd, lt_irrefl, and_false, if_false]

theorem take_sameAt {j} (hj : j ≠ d) : s.SameAt (s.take k) j := by
  rw [take_eq hd hk]
  split
  · exact ⟨widen_same_of_ne _ hj _ _, widen_same_of_ne _ hj _ _⟩
  · exact ⟨set_same_of_ne _ hj _ _, set_same_of_ne _ hj _ _⟩

theorem take_first (hmax : s.maxExistIndex ≤ d) : (s.take k).maxExistIndex = d + 1 ∧
      ((s.take k).start.bound d = k.start ∧ (s.take k).start.incl d = k.includeStart) ∧
      (s.take k).end_.bound d = toDual k.end_ ∧ (s.take k).end_.incl d = k.includeEnd := by
  rw [take_eq hd hk, if_neg (by omega)]
  exact ⟨rfl, set_at .., set_at ..⟩

theorem take_fields : (s.take k).depth = d ∧ (s.take k).produceRange = s.produceRange ∧
      (s.take k).ranges = s.ranges ∧ (s.take k).maxExistIndex = max s.maxExistIndex (d + 1) := by
  rw [take_eq hd hk]
  split
  · exact ⟨hd, rfl, rfl, by dsimp only; omega⟩
  · exact ⟨hd, rfl, rfl, by dsimp only; omega⟩

/-- Taking a part only widens the bounds, and they are no narrower than the part's. -/
theorem take_le : ((s.take k).start.bound d ≤ k.start ∧
      (s.take k).end_.bound d ≤ toDual k.end_) ∧
    ∀ j < s.maxExistIndex, (s.take k).start.bound j ≤ s.start.bound j ∧
      (s.take k).end_.bound j ≤ s.end_.bound j := by
  have hother : ∀ j ≠ d, (s.take k).start.bound j ≤ s.start.bound j ∧
      (s.take k).end_.bound j ≤ s.end_.bound j := fun j hj =>
    ⟨(take_sameAt hd hk hj).1.1.ge, (take_sameAt hd hk hj).2.1.ge⟩
  by_cases hmax : s.maxExistIndex ≤ d
  · obtain ⟨-, ⟨hs, -⟩, he, -⟩ := take_first hd hk hmax
    exact ⟨⟨hs.le, he.le⟩, fun j hj => hother j (by omega)⟩
  have heq := take_eq hd hk
  rw [if_pos (by omega)] at heq
  have hs := s.start.widen_le d k.start k.includeStart
  have he := s.end_.widen_le d (toDual k.end_) k.includeEnd
  refine ⟨by rw [heq]; exact ⟨hs.2, he.2⟩, fun j _ => ?_⟩
  rcases eq_or_ne j d with rfl | hj
  · rw [heq]
    exact ⟨hs.1, he.1⟩
  · exact hother j hj

end

theorem contains_start {row : ℤ → α} (hk : k.offset = d) (h : k.Contains (row k.offset)) :
    k.start < startOf row d ∨ (k.includeStart = true ∧ k.start = startOf row d) := by
  rw [startOf, ← hk]
  exact h.1

theorem contains_end {row : ℤ → α} (hk : k.offset = d) (h : k.Contains (row k.offset)) :
    toDual k.end_ < endOf row d ∨ (k.includeEnd = true ∧ toDual k.end_ = endOf row d) := by
  rw [endOf, ← hk]
  exact h.2.imp id fun e => ⟨e.1, congrArg toDual e.2.symm⟩

end ObSearchState

/-! ## Folding below a proper range -/

variable {s : SearchState α} {k : NormalKey α} {g : KeyPart α} {row : ℤ → α}

/-- The key parts the search of a graph comes to. -/
def KeyPart.visited : KeyPart α → List (NormalKey α)
  | .null => []
  | .part k a o => k :: ((if needProcessAndNext k a then a.visited else []) ++ o.visited)

/-- The bounds folded from the parts in `T` reach beyond each of them. -/
def ObSearchState.Covers (s : SearchState α) (T : List (NormalKey α)) : Prop :=
  ∀ k ∈ T, ∀ j : ℕ, k.offset = j → j < s.maxExistIndex ∧
    s.start.bound j ≤ k.start ∧ s.end_.bound j ≤ toDual k.end_

/-- What folding a graph on column `d` does to the search state. -/
structure Folded (c d : ℕ) (g : KeyPart α) (s s' : SearchState α) : Prop where
  depth : s'.depth = d
  produceRange : s'.produceRange = false
  ranges : s'.ranges = s.ranges
  sameAt : ∀ j < d, s.SameAt s' j
  le_max : s.maxExistIndex ≤ s'.maxExistIndex
  max_le : s.maxExistIndex ≤ c → s'.maxExistIndex ≤ c
  /-- later paths only widen the bounds -/
  mono : ∀ j < s.maxExistIndex,
    s'.start.bound j ≤ s.start.bound j ∧ s'.end_.bound j ≤ s.end_.bound j
  covers : s'.Covers g.visited

variable {c d : ℕ}

theorem ObSearchState.Covers.mono {T} {s s' : SearchState α} (h : s.Covers T)
    (hf : Folded c d g s s') : s'.Covers T := by
  intro k hk j hj
  obtain ⟨hlt, hs, he⟩ := h k hk j hj
  obtain ⟨hs', he'⟩ := hf.mono j hlt
  exact ⟨hlt.trans_le hf.le_max, hs'.trans hs, he'.trans he⟩

/-- Taking a part alone, when nothing follows it on the next column. -/
theorem Folded.take {a} (hd : s.depth = d) (hk : k.offset = d) (hp : s.produceRange = false)
    (hc : k.offset < c) (hnext : needProcessAndNext k a = false) :
    Folded c d (.part k a .null) s (s.take k) := by
  obtain ⟨htd, htp, htr, htm⟩ := take_fields hd hk
  obtain ⟨htk, htle⟩ := take_le hd hk
  refine ⟨htd, htp.trans hp, htr, fun j hj => take_sameAt hd hk hj.ne, by omega, by omega, htle, ?_⟩
  simp only [visited, hnext, Bool.false_eq_true, if_false, append_nil]
  intro l hl j hj
  obtain rfl := mem_singleton.mp hl
  obtain rfl : d = j := by omega
  exact ⟨by omega, htk⟩

/-- Taking a part together with the graph that follows it on the next column. -/
theorem Folded.and {a s'} (hd : s.depth = d) (hk : k.offset = d) (hc : k.offset < c)
    (hnext : needProcessAndNext k a = true) (h : Folded c (d + 1) a (s.descend k) s') :
    Folded c d (.part k a .null) s { s' with depth := s.depth } := by
  obtain ⟨-, -, htr, htm⟩ := take_fields hd hk
  obtain ⟨htk, htle⟩ := take_le hd hk
  have hlt : d < (s.take k).maxExistIndex := by omega
  have hmono := h.mono
  refine ⟨hd, h.produceRange, h.ranges.trans htr, fun j hj => ?_, ?_, fun hm => ?_,
    fun j hj => ?_, ?_⟩
  · exact (take_sameAt hd hk hj.ne).trans (h.sameAt j (by omega))
  · exact (htm ▸ le_max_left _ _ : s.maxExistIndex ≤ (s.take k).maxExistIndex).trans h.le_max
  · exact h.max_le (show (s.take k).maxExistIndex ≤ c by omega)
  · have hj' := hmono j (show j < (s.take k).maxExistIndex by omega)
    exact ⟨hj'.1.trans (htle j hj).1, hj'.2.trans (htle j hj).2⟩
  simp only [visited, hnext, if_true, append_nil]
  intro l hl j hj
  rcases mem_cons.mp hl with rfl | hl
  · obtain rfl : d = j := by omega
    have hd' := hmono d hlt
    exact ⟨hlt.trans_le h.le_max, hd'.1.trans htk.1, hd'.2.trans htk.2⟩
  · exact h.covers l hl j hj

theorem Folded.or {a o} {s s₁ s₂ : SearchState α} (h : Folded c d (.part k a .null) s s₁)
    (h' : Folded c d o s₁ s₂) : Folded c d (.part k a o) s s₂ := by
  refine ⟨h'.depth, h'.produceRange, h'.ranges.trans h.ranges, fun j hj => ?_,
    h.le_max.trans h'.le_max, h'.max_le ∘ h.max_le, fun j hj => ?_, fun l hl => ?_⟩
  · exact (h.sameAt j hj).trans (h'.sameAt j hj)
  · have h₁ := h.mono j hj
    have h₂ := h'.mono j (hj.trans_le h.le_max)
    exact ⟨h₂.1.trans h₁.1, h₂.2.trans h₁.2⟩
  rcases mem_append.mp (show l ∈ (k :: _) ++ o.visited from hl) with hl | hl
  · exact h.covers.mono h' l (by simpa [visited] using hl)
  · exact h'.covers l hl

section
variable {β : Type*} [LinearOrder β] [BoundedOrder β] {D : Side β}

/-- The bounds `D` folded from a graph suit the alternatives of `g`. An alternative whose own bound
is the folded one, and included, must find it included; and where its path ends, the next column
must not be bounded by another path. `bnd` and `inc` select the end in question. -/
def Side.Fits (D : Side β) (m : ℕ) (bnd : NormalKey α → β) (inc : NormalKey α → Bool) :
    KeyPart α → Prop
  | .null => True
  | .part k a o =>
    (bnd k = D.bound k.offset.toNat → bnd k ≠ ⊥ → inc k = true → D.incl k.offset.toNat = true ∧
      if needProcessAndNext k a then D.Fits m bnd inc a
      else k.offset.toNat + 1 < m → D.bound (k.offset.toNat + 1) = ⊥) ∧ D.Fits m bnd inc o

instance Side.decidableFits (m : ℕ) (bnd : NormalKey α → β) (inc : NormalKey α → Bool) :
    ∀ g, Decidable (D.Fits m bnd inc g)
  | .null => isTrue trivial
  | .part _ a o =>
    have := decidableFits m bnd inc a
    have := decidableFits m bnd inc o
    inferInstanceAs (Decidable (_ ∧ _))

end

/-- The folded bounds of both ends suit the graph. -/
def ObSearchState.Fits (s : SearchState α) (g : KeyPart α) : Prop :=
  s.start.Fits s.maxExistIndex NormalKey.start NormalKey.includeStart g ∧
    s.end_.Fits s.maxExistIndex (fun k => toDual k.end_) NormalKey.includeEnd g
  deriving Decidable

/-! ## One range for each path of single values -/

/-- Along the search of the graph from the state `s`, the bounds folded below each proper range suit
the paths they were folded from. -/
def KeyPart.RangesOk (c : ℕ) : KeyPart α → SearchState α → Prop
  | .null, _ => True
  | .part k a o, s =>
    (needProcessAndNext k a = true → if k.start = k.end_ then a.RangesOk c (s.descend k)
      else (andFirstSearch c a (s.descend k)).Fits (.part k a .null)) ∧
    o.RangesOk c (andFirstSearch c (.part k a .null) s)

instance KeyPart.decidableRangesOk (c : ℕ) :
    ∀ (g : KeyPart α) (s : SearchState α), Decidable (g.RangesOk c s)
  | .null, _ => isTrue trivial
  | .part k a o, s =>
    have := decidableRangesOk c a (s.descend k)
    have := decidableRangesOk c o (andFirstSearch c (.part k a .null) s)
    inferInstanceAs (Decidable (_ ∧ _))

theorem ObSearchState.Meets.generate {c d e p}
    (h : s.Meets e row) : (s.generateCurRange c d p).Meets e row := by
  have hframe := tailorLoop_frame (c := c) (e := e) s.maxExistIndex 0
    { s with start := { s.start with last := true, skip := false }
             end_ := { s.end_ with last := true, skip := false } }
    fun j hj => ⟨(h j hj).1.2, (h j hj).2.2⟩
  obtain ⟨hs, he, hb⟩ := hframe
  refine h.of_sameAt fun i hi => ⟨⟨?_, ?_⟩, ?_, ?_⟩
  · exact (hb i hi).1.symm
  · exact (congrFun hs i).symm
  · exact (hb i hi).2.symm
  · exact (congrFun he i).symm

theorem ObSearchState.Meets.take {d}
    (h : s.Meets d row) (hd : s.depth = d) (hk : k.offset = d) (hmax : s.maxExistIndex ≤ d)
    (heq : k.start = k.end_) (hrow : k.Contains (row k.offset)) : (s.take k).Meets (d + 1) row := by
  intro i hi
  rcases Nat.lt_succ_iff_lt_or_eq.mp hi with hi | rfl
  · exact (h.of_sameAt (fun j hj => take_sameAt hd hk hj.ne)) i hi
  obtain ⟨-, ⟨hsb, hsi⟩, heb, hei⟩ := take_first hd hk hmax
  rcases contains_start hk hrow with hs | ⟨hsinc, hs⟩
  · -- a start below the value leaves the value above the end
    exfalso
    rcases contains_end hk hrow with he | ⟨-, he⟩
    · exact lt_asymm hs (heq ▸ he)
    · exact hs.ne (heq.trans (toDual.injective he))
  · rcases contains_end hk hrow with he | ⟨heinc, he⟩
    · exact absurd (hs.symm.trans heq) (show startOf row i ≠ k.end_ from (ne_of_lt he))
    · exact ⟨⟨hsb.trans hs, hsi.trans hsinc⟩, heb.trans he, hei.trans heinc⟩

end OceanBase.QueryRange
