import OceanBase.Sequence.Cache

/-!
# Values of a sequence are distinct

The ranges that the transactions hand out follow each other in the direction of the increment, and
each has one owner. A server takes values only out of its own ranges, one after the other. So no
value of a sequence without `CYCLE` is returned twice, on one server or on two.

The direction is dealt with once, by `Before` and `AtMost`: `need_refill_cache` and `move_next`
compare differently for the two signs, and agree on what they leave.

## Main results

* `nextval_distinct`: no value is returned twice
-/

namespace OceanBase.Sequence

open Function State List Option

variable {schema : SequenceSchema}

/-- The options of a sequence without `CYCLE`. -/
structure Valid (schema : SequenceSchema) : Prop where
  noCycle : schema.cycleFlag = false
  increment : schema.incrementBy ≠ 0
  cache : 1 ≤ schema.cacheSize
  min_le : schema.minValue ≤ schema.startWith
  le_max : schema.startWith ≤ schema.maxValue

section

variable (schema : SequenceSchema)

/-- `a` comes before `b` in the direction of the increment. -/
def Before (a b : ℤ) : Prop :=
  0 < schema.incrementBy ∧ a < b ∨ schema.incrementBy < 0 ∧ b < a

/-- `a` does not come after `b`. -/
def AtMost (a b : ℤ) : Prop :=
  0 < schema.incrementBy ∧ a ≤ b ∨ schema.incrementBy < 0 ∧ b ≤ a

/-- The value is some increments from the start. -/
def OnLattice (v : ℤ) : Prop :=
  ∃ k : ℕ, v = schema.startWith + k * schema.incrementBy

/-- A range with this end has no value past the limit. -/
def StopOk (stop : ℤ) : Prop :=
  0 < schema.incrementBy ∧ stop ≤ schema.maxValue + 1 ∨
    schema.incrementBy < 0 ∧ schema.minValue - 1 ≤ stop

end

section Order

variable {a b c : ℤ}

theorem AtMost.trans (h₁ : AtMost schema a b) (h₂ : AtMost schema b c) : AtMost schema a c := by
  unfold AtMost at *
  omega

theorem Before.trans_atMost (h₁ : Before schema a b) (h₂ : AtMost schema b c) :
    Before schema a c := by
  unfold Before AtMost at *
  omega

theorem AtMost.trans_before (h₁ : AtMost schema a b) (h₂ : Before schema b c) :
    Before schema a c := by
  unfold Before AtMost at *
  omega

theorem Before.atMost (h : Before schema a b) : AtMost schema a b := by
  unfold Before AtMost at *
  omega

theorem Before.not_atMost (h : Before schema a b) : ¬AtMost schema b a := by
  unfold Before AtMost at *
  omega

theorem AtMost.refl (hv : Valid schema) (a : ℤ) : AtMost schema a a := by
  have := hv.increment
  unfold AtMost
  omega

theorem AtMost.refl_right (h : AtMost schema a b) : AtMost schema b b := by
  unfold AtMost at *
  omega

theorem before_or_atMost (hv : Valid schema) (a b : ℤ) : Before schema a b ∨ AtMost schema b a := by
  have := hv.increment
  unfold Before AtMost
  omega

theorem OnLattice.add (h : OnLattice schema a) : OnLattice schema (a + schema.incrementBy) := by
  obtain ⟨k, rfl⟩ := h
  exact ⟨k + 1, by push_cast; ring⟩

theorem OnLattice.atMost (hv : Valid schema) (h : OnLattice schema a) :
    AtMost schema schema.startWith a := by
  obtain ⟨k, rfl⟩ := h
  have hk : (0 : ℤ) ≤ k := Int.natCast_nonneg k
  rcases lt_or_gt_of_ne hv.increment with hneg | hpos
  · exact .inr ⟨hneg, by nlinarith⟩
  · exact .inl ⟨hpos, by nlinarith⟩

end Order

/-! ## Transactions -/

def SequenceCacheNode.Has (schema : SequenceSchema) (r : SequenceCacheNode) (v : ℤ) : Prop :=
  AtMost schema r.start v ∧ Before schema v r.stop

/-- A range that starts with a value of the sequence and stays within the limit. -/
structure RangeOk (schema : SequenceSchema) (r : SequenceCacheNode) : Prop where
  start : OnLattice schema r.start
  before : Before schema r.start r.stop
  stop : StopOk schema r.stop

/-- The values of the row. Past the limit it need not be a value of the sequence. -/
structure RowOk (schema : SequenceSchema) (row : ℤ) : Prop where
  ge : AtMost schema schema.startWith row
  lattice : 0 < schema.incrementBy ∧ row ≤ schema.maxValue ∨
    schema.incrementBy < 0 ∧ schema.minValue ≤ row → OnLattice schema row

theorem RangeOk.limits (hv : Valid schema) {r : SequenceCacheNode} (hr : StopOk schema r.stop) {v}
    (hlattice : OnLattice schema v) (hbefore : Before schema v r.stop) :
    schema.minValue ≤ v ∧ v ≤ schema.maxValue := by
  have hge := hlattice.atMost hv
  have := hv.min_le
  have := hv.le_max
  unfold StopOk at hr
  unfold Before at hbefore
  unfold AtMost at hge
  omega

theorem OnLattice.addBatch (hv : Valid schema) {row n} (hn : 1 ≤ n)
    (h : OnLattice schema row) : OnLattice schema (schema.incrementBy * n + row) ∧
      Before schema row (schema.incrementBy * n + row) := by
  have hrow := h
  obtain ⟨k, rfl⟩ := h
  constructor
  · refine ⟨n.toNat + k, ?_⟩
    push_cast
    rw [Int.toNat_of_nonneg (by omega)]
    ring
  · rcases lt_or_gt_of_ne hv.increment with hneg | hpos
    · exact .inr ⟨hneg, by nlinarith⟩
    · exact .inl ⟨hpos, by nlinarith⟩

/-- **What a transaction hands out**: a range from the value of the row to its new value. -/
theorem nextBatch_ok (hv : Valid schema) {row next r}
    (hrow : RowOk schema row) (h : nextBatch schema row = .ok (r, next)) :
    r.start = row ∧ RangeOk schema r ∧ AtMost schema r.stop next ∧ RowOk schema next := by
  have hsize : 1 ≤ if schema.orderFlag then 1 else schema.cacheSize := by
    have := hv.cache
    split_ifs <;> omega
  have hne := hv.increment
  have hge := hrow.ge
  have hmin := hv.min_le
  have hmax := hv.le_max
  simp only [nextBatch, hv.noCycle, Bool.false_eq_true, if_false] at h
  set size := if schema.orderFlag then 1 else schema.cacheSize
  split_ifs at h with hover hpast hunder hbelow
  · -- cut at the maximum
    obtain ⟨rfl, rfl⟩ := Prod.mk.inj (Except.ok.inj h)
    have hlattice := hrow.lattice (.inl ⟨hover.1, by omega⟩)
    refine ⟨rfl, ⟨hlattice, .inl ⟨hover.1, ?_⟩, .inl ⟨hover.1, le_rfl⟩⟩, .refl hv _, ?_, ?_⟩
    · change row < schema.maxValue + 1
      omega
    · exact .inl ⟨hover.1, by omega⟩
    · intro hwithin
      omega
  · -- cut at the minimum
    obtain ⟨rfl, rfl⟩ := Prod.mk.inj (Except.ok.inj h)
    have hlattice := hrow.lattice (.inr ⟨hunder.1, by omega⟩)
    refine ⟨rfl, ⟨hlattice, .inr ⟨hunder.1, ?_⟩, .inr ⟨hunder.1, le_rfl⟩⟩, .refl hv _, ?_, ?_⟩
    · change schema.minValue - 1 < row
      omega
    · exact .inr ⟨hunder.1, by omega⟩
    · intro hwithin
      omega
  obtain ⟨rfl, rfl⟩ := Prod.mk.inj (Except.ok.inj h)
  have hwithin : 0 < schema.incrementBy ∧ row ≤ schema.maxValue ∨
      schema.incrementBy < 0 ∧ schema.minValue ≤ row := by
    rcases lt_or_gt_of_ne hne with hneg | hpos
    · have : schema.incrementBy * size ≤ 0 := by nlinarith
      omega
    · have : 0 ≤ schema.incrementBy * size := by nlinarith
      omega
  obtain ⟨hlattice, hbefore⟩ := (hrow.lattice hwithin).addBatch hv hsize
  refine ⟨rfl, ⟨hrow.lattice hwithin, hbefore, ?_⟩, .refl hv _, hge.trans hbefore.atMost,
    fun _ => hlattice⟩
  change StopOk schema (schema.incrementBy * size + row)
  unfold StopOk
  omega

/-! ## The item of a server -/

section Item

variable {G : ℤ → Prop} {row : ℤ} {cache : SequenceCacheItem}

/-- An item with a range. `G` holds for the values of the ranges of its server, and `row` is the
value of the shared row. -/
structure Loaded (schema : SequenceSchema) (G : ℤ → Prop) (row : ℤ) (cache : SequenceCacheItem) :
    Prop where
  range : RangeOk schema cache.currNode
  /-- the values still to come belong to the server -/
  avail : ∀ v, OnLattice schema v → cache.currNode.Has schema v →
    (cache.baseOnLastNumber = true → Before schema cache.lastNumber v) → G v
  last : cache.baseOnLastNumber = true →
    OnLattice schema cache.lastNumber ∧ AtMost schema cache.lastNumber cache.currNode.start
  stop_row : AtMost schema cache.currNode.stop row
  prefetch : cache.withPrefetchNode = true →
    RangeOk schema cache.prefetchNode ∧
      AtMost schema cache.currNode.stop cache.prefetchNode.start ∧
      AtMost schema cache.prefetchNode.stop row ∧
      ∀ v, OnLattice schema v → cache.prefetchNode.Has schema v → G v

/-- An item before its first range. -/
structure Empty (cache : SequenceCacheItem) : Prop where
  range : cache.currNode.start = cache.currNode.stop
  base : cache.baseOnLastNumber = false
  prefetch : cache.withPrefetchNode = false

theorem Loaded.mono {G' : ℤ → Prop} {row'} (h : Loaded schema G row cache)
    (hG : ∀ v, G v → G' v) (hrow : AtMost schema row row') : Loaded schema G' row' cache := by
  refine ⟨h.range, fun v h₁ h₂ h₃ => hG v (h.avail v h₁ h₂ h₃), h.last, h.stop_row.trans hrow,
    fun hp => ?_⟩
  obtain ⟨h₁, h₂, h₃, h₄⟩ := h.prefetch hp
  exact ⟨h₁, h₂, h₃.trans hrow, fun v hv hhas => hG v (h₄ v hv hhas)⟩

section

variable (hv : Valid schema) (h : Loaded schema G row cache)
include hv h

theorem Loaded.combine (hwith : cache.withPrefetchNode = true) :
    Loaded schema G row cache.combinePrefetchNode := by
  obtain ⟨hrange, hnext, hrow, hG⟩ := h.prefetch hwith
  unfold SequenceCacheItem.combinePrefetchNode
  rw [if_pos hwith]
  by_cases heq : cache.currNode.stop = cache.prefetchNode.start
  · -- the ranges are adjacent and become one
    have hbefore : Before schema cache.currNode.start cache.prefetchNode.stop :=
      h.range.before.trans_atMost (hnext.trans hrange.before.atMost)
    refine ⟨⟨?_, ?_, hrange.stop⟩, fun v hl hhas hlast => ?_, fun hb => ?_, hrow, nofun⟩
    · simpa [heq] using h.range.start
    · simpa [heq] using hbefore
    · have hhas' : AtMost schema cache.currNode.start v ∧
        Before schema v cache.prefetchNode.stop := by
        simpa [heq, SequenceCacheNode.Has] using hhas
      rcases before_or_atMost hv v cache.currNode.stop with hleft | hright
      · exact h.avail v hl ⟨hhas'.1, hleft⟩ hlast
      · exact hG v hl ⟨heq ▸ hright, hhas'.2⟩
    · simpa [heq] using h.last hb
  · refine ⟨⟨?_, ?_, hrange.stop⟩, fun v hl hhas _ => hG v hl ?_, fun hb => ?_, hrow, nofun⟩
    · simpa [heq] using hrange.start
    · simpa [heq] using hrange.before
    · simpa [heq, SequenceCacheNode.Has] using hhas
    have hle := ((h.last hb).2.trans h.range.before.atMost).trans hnext
    exact ⟨(h.last hb).1, by simpa [heq] using hle⟩

theorem Loaded.of_not_short (hbase : cache.baseOnLastNumber = true)
    (hshort : isShort schema cache = false) :
    Before schema (cache.lastNumber + schema.incrementBy) cache.currNode.stop := by
  have hne := hv.increment
  have hle := (h.last hbase).2
  unfold isShort at hshort
  unfold AtMost at hle
  unfold Before
  split_ifs at hshort with hpos hlt hlt
  · omega
  · simp only [decide_eq_false_iff_not] at hshort
    omega
  · omega
  · simp only [decide_eq_false_iff_not] at hshort
    omega

theorem Loaded.needRefill : Loaded schema G row (needRefillCache schema cache).1 ∧
      (needRefillCache schema cache).1.baseOnLastNumber = cache.baseOnLastNumber ∧
      (needRefillCache schema cache).1.lastNumber = cache.lastNumber ∧
      ((needRefillCache schema cache).2 = true →
        (needRefillCache schema cache).1.withPrefetchNode = false) ∧
      ((needRefillCache schema cache).2 = false → cache.baseOnLastNumber = true →
        Before schema (cache.lastNumber + schema.incrementBy)
          (needRefillCache schema cache).1.currNode.stop) := by
  unfold needRefillCache
  split_ifs with hempty hbase hshort
  · exact ⟨h, rfl, rfl, fun _ => hempty.2, nofun⟩
  · exact ⟨h, rfl, rfl, nofun, fun _ hb => absurd (hbase.symm.trans hb) (by simp)⟩
  · have hcombine := h.combine hv hshort.2
    have hsame : cache.combinePrefetchNode.baseOnLastNumber = cache.baseOnLastNumber ∧
        cache.combinePrefetchNode.lastNumber = cache.lastNumber ∧
        cache.combinePrefetchNode.withPrefetchNode = false := by
      unfold SequenceCacheItem.combinePrefetchNode
      rw [if_pos hshort.2]
      exact ⟨rfl, rfl, rfl⟩
    refine ⟨hcombine, hsame.1, hsame.2.1, fun _ => hsame.2.2, fun hno hb => ?_⟩
    rw [← hsame.2.1]
    exact hcombine.of_not_short hv (hsame.1.trans hb) hno
  · refine ⟨h, rfl, rfl, fun hyes => ?_, fun hno hb => h.of_not_short hv hb hno⟩
    by_contra hwith
    exact hshort ⟨hyes, by simpa using hwith⟩

theorem Loaded.advance (hroom : cache.baseOnLastNumber = true →
      Before schema (cache.lastNumber + schema.incrementBy) cache.currNode.stop) :
    (Sequence.advance schema cache).lastNumber = cache.lastNumber ∧
      ∃ v, (cache.baseOnLastNumber = true → Before schema cache.lastNumber v) ∧
        OnLattice schema v ∧ cache.currNode.Has schema v ∧ Sequence.advance schema cache =
          { cache with baseOnLastNumber := true, currNode := ⟨v, cache.currNode.stop⟩ } := by
  have hstart : cache.currNode.Has schema cache.currNode.start := ⟨.refl hv _, h.range.before⟩
  have hne := hv.increment
  unfold Sequence.advance
  simp only [hv.noCycle, Bool.false_eq_true, false_and, if_false]
  by_cases hbase : cache.baseOnLastNumber = true
  · have hlast := (h.last hbase).1
    -- an increment after the last number
    have hnew : Before schema cache.lastNumber (cache.lastNumber + schema.incrementBy) := by
      unfold Before
      omega
    have hself : cache = { cache with baseOnLastNumber := true,
                                      currNode := ⟨cache.currNode.start,
                                        cache.currNode.stop⟩ } := by
      rw [← hbase]
    rw [if_neg (by simp [hbase])]
    have hmove (hle : AtMost schema cache.currNode.start (cache.lastNumber + schema.incrementBy)) :
        cache.currNode.Has schema (cache.lastNumber + schema.incrementBy) := ⟨hle, hroom hbase⟩
    have hstay {v} (hle : AtMost schema (cache.lastNumber + schema.incrementBy) v) :
        Before schema cache.lastNumber v := hnew.trans_atMost hle
    unfold AtMost at hstay hmove
    split_ifs with hpos hlt hlt
    · exact ⟨rfl, _, fun _ => hnew, hlast.add, hmove (by omega), by rw [← hbase]⟩
    · exact ⟨rfl, _, fun _ => hstay (by omega), h.range.start, hstart, hself⟩
    · exact ⟨rfl, _, fun _ => hnew, hlast.add, hmove (by omega), by rw [← hbase]⟩
    · exact ⟨rfl, _, fun _ => hstay (by omega), h.range.start, hstart, hself⟩
  · rw [if_pos (by simpa using hbase)]
    exact ⟨rfl, _, fun hb => absurd hb hbase, h.range.start, hstart, rfl⟩

end

/-- What a call of `move_next` did: it returned the next value, or it needs another range. -/
inductive Moved (schema : SequenceSchema) (G : ℤ → Prop) (row : ℤ)
    (cache cache' : SequenceCacheItem) : Except SequenceErr ℤ → Prop
  | value {v} (hv : G v ∧ OnLattice schema v)
      (hlimits : schema.minValue ≤ v ∧ v ≤ schema.maxValue)
      (hlast : cache.baseOnLastNumber = true → Before schema cache.lastNumber v)
      (hbase : cache'.baseOnLastNumber = true) (hlast' : cache'.lastNumber = v)
      (hloaded : Loaded schema G row cache') : Moved schema G row cache cache' (.ok v)
  | overflow (hbase : cache'.baseOnLastNumber = cache.baseOnLastNumber)
      (hlast : cache'.lastNumber = cache.lastNumber) (hwith : cache'.withPrefetchNode = false)
      (hitem : Empty cache' ∨ Loaded schema G row cache') :
      Moved schema G row cache cache' (.error .sizeOverflow)

/-- **`move_next`** on an item. -/
theorem moveNext_moved (hv : Valid schema) (h : Empty cache ∨ Loaded schema G row cache) :
    Moved schema G row cache (moveNext schema cache).1 (moveNext schema cache).2 := by
  unfold moveNext
  rcases h with h | h
  · have hneed : needRefillCache schema cache = (cache, true) := by
      unfold needRefillCache
      rw [if_pos ⟨h.range, h.prefetch⟩]
    simp only [hneed, if_true]
    exact .overflow rfl rfl h.prefetch (.inl h)
  obtain ⟨hload, hbase, hlast, hyes, hno⟩ := h.needRefill hv
  generalize needRefillCache schema cache = need at *
  obtain ⟨item, needRefill⟩ := need
  cases needRefill with
  | true => exact .overflow hbase hlast (hyes rfl) (.inr hload)
  | false =>
  obtain ⟨hsame, v, hafter, hlattice, hhas, heq⟩ :=
    hload.advance hv fun hb => hlast ▸ hno rfl (hbase ▸ hb)
  have hlimits := RangeOk.limits hv hload.range.stop hlattice hhas.2
  simp only [Bool.false_eq_true, if_false, heq]
  rw [if_neg (by omega)]
  refine .value ⟨hload.avail v hlattice hhas hafter, hlattice⟩ hlimits ?_ rfl rfl ?_
  · rw [← hbase, ← hlast]
    exact hafter
  -- what is left of the range starts with the value just taken
  refine ⟨⟨hlattice, hhas.2, hload.range.stop⟩, fun w hl hw hvw => ?_,
    fun _ => ⟨hlattice, .refl hv v⟩, hload.stop_row, hload.prefetch⟩
  have hvw : Before schema v w := hvw rfl
  exact hload.avail w hl ⟨hhas.1.trans hvw.atMost, hw.2⟩
    fun hb => (hafter hb).trans_atMost hvw.atMost

end Item

/-! ## All servers -/

/-- The value is in a range of the server. -/
def Granted (schema : SequenceSchema) (grants : List Grant) (i : ℕ) (v : ℤ) : Prop :=
  ∃ g ∈ grants, g.server = i ∧ g.range.Has schema v

abbrev ItemOk (schema : SequenceSchema) (s : State) (i : ℕ) (cache : SequenceCacheItem) : Prop :=
  Empty cache ∨ Loaded schema (Granted schema s.grants i) (s.row schema) cache

structure Inv (schema : SequenceSchema) (s : State) : Prop where
  row : RowOk schema (s.row schema)
  /-- a range starts after all older ranges -/
  grants : s.grants.Pairwise fun new old => AtMost schema old.range.stop new.range.start
  grants_row : ∀ g ∈ s.grants, AtMost schema g.range.stop (s.row schema)
  item : ∀ i, ItemOk schema s i (s.item i)
  refill : ∀ i, s.pc i = .refill → (s.item i).withPrefetchNode = false
  prefetch : ∀ i, s.pc i = .prefetch →
    Loaded schema (Granted schema s.grants i) (s.row schema) (s.item i)
  values : ∀ p ∈ s.values, Granted schema s.grants p.1 p.2 ∧ OnLattice schema p.2 ∧
    schema.minValue ≤ p.2 ∧ p.2 ≤ schema.maxValue
  /-- the last number of a server is its newest value -/
  last : ∀ p ∈ s.values,
    (s.item p.1).baseOnLastNumber = true ∧ AtMost schema p.2 (s.item p.1).lastNumber
  order : s.values.Pairwise fun new old => new.1 = old.1 → Before schema old.2 new.2

section Run

variable {s : State}

variable {range : SequenceCacheNode} {cache : SequenceCacheItem} {i : ℕ} {next : ℤ}

theorem Granted.cons {grants v} (g : Grant)
    (h : Granted schema grants i v) : Granted schema (g :: grants) i v := by
  obtain ⟨g', hg', h⟩ := h
  exact ⟨g', mem_cons_of_mem _ hg', h⟩

section

variable (h : Inv schema s)
include h

theorem Inv.setRow (hrow : RowOk schema next)
    (hle : AtMost schema (s.row schema) next) :
    Inv schema { s with nextValue := some next } := { h with
  row := hrow
  grants_row := fun g hg => (h.grants_row g hg).trans hle
  item := fun i => (h.item i).imp_right fun hload => hload.mono (fun _ hG => hG) hle
  prefetch := fun i hi => (h.prefetch i hi).mono (fun _ hG => hG) hle }

theorem Inv.grant (hstop : AtMost schema range.stop (s.row schema))
    (hstart : ∀ g ∈ s.grants, AtMost schema g.range.stop range.start) :
    Inv schema { s with grants := ⟨i, range⟩ :: s.grants } := { h with
  grants := pairwise_cons.mpr ⟨hstart, h.grants⟩
  grants_row := by
    intro g hg
    rcases mem_cons.mp hg with rfl | hg
    · exact hstop
    · exact h.grants_row g hg
  item := fun j => (h.item j).imp_right fun hload => hload.mono (fun _ => .cons _)
    (hload.stop_row.refl_right)
  prefetch := fun j hj => (h.prefetch j hj).mono (fun _ => .cons _)
    (h.prefetch j hj).stop_row.refl_right
  values := fun p hp => ⟨(h.values p hp).1.cons _, (h.values p hp).2⟩ }

theorem Inv.setItem {pc} (hitem : ItemOk schema s i cache)
    (hlast : (s.item i).baseOnLastNumber = true →
      cache.baseOnLastNumber = true ∧ AtMost schema (s.item i).lastNumber cache.lastNumber)
    (hrefill : pc = .refill → cache.withPrefetchNode = false) (hprefetch : pc = .prefetch →
      Loaded schema (Granted schema s.grants i) (s.row schema) cache) :
    Inv schema { s with
      item := Function.update s.item i cache, pc := Function.update s.pc i pc } := { h with
  item := by
    intro j
    by_cases hj : j = i
    · subst hj
      simp only [update_self]
      exact hitem
    · simp only [update_of_ne hj]
      exact h.item j
  refill := by
    intro j
    by_cases hj : j = i
    · subst hj
      simpa only [update_self] using hrefill
    · simpa only [update_of_ne hj] using h.refill j
  prefetch := by
    intro j
    by_cases hj : j = i
    · subst hj
      simp only [update_self]
      exact hprefetch
    · simp only [update_of_ne hj]
      exact h.prefetch j
  last := by
    intro p hp
    by_cases hj : p.1 = i
    · obtain ⟨hbase, hle⟩ := h.last p hp
      rw [hj] at hbase hle
      simp only [hj, update_self]
      exact ⟨(hlast hbase).1, hle.trans (hlast hbase).2⟩
    · simpa only [update_of_ne hj] using h.last p hp }

theorem Inv.addValue {v} (hv : Granted schema s.grants i v ∧ OnLattice schema v ∧
      schema.minValue ≤ v ∧ v ≤ schema.maxValue)
    (hlast : (s.item i).baseOnLastNumber = true ∧ AtMost schema v (s.item i).lastNumber)
    (hnew : ∀ p ∈ s.values, p.1 = i → Before schema p.2 v) :
    Inv schema { s with values := (i, v) :: s.values } := { h with
  values := by
    intro p hp
    rcases mem_cons.mp hp with rfl | hp
    · exact hv
    · exact h.values p hp
  last := by
    intro p hp
    rcases mem_cons.mp hp with rfl | hp
    · exact hlast
    · exact h.last p hp
  order := pairwise_cons.mpr ⟨fun p hp heq => hnew p hp heq.symm, h.order⟩ }

end

section

variable (hv : Valid schema) (h : Inv schema s)
include hv h

theorem Inv.callMoveNext {afterRefill} (hitem : ItemOk schema s i cache)
    (hbase : cache.baseOnLastNumber = (s.item i).baseOnLastNumber)
    (hlast : cache.lastNumber = (s.item i).lastNumber) :
    Inv schema (s.callMoveNext schema i cache afterRefill) := by
  have hmoved := moveNext_moved hv hitem
  unfold State.callMoveNext
  generalize moveNext schema cache = r at hmoved ⊢
  obtain ⟨cache', r⟩ := r
  cases hmoved with
  | @value v hval hlimits hafter hbase' hlast' hload =>
    have hnew : ∀ p ∈ s.values, p.1 = i → Before schema p.2 v := by
      rintro p hp rfl
      obtain ⟨hb, hle⟩ := h.last p hp
      rw [← hlast] at hle
      exact hle.trans_before (hafter (hbase.trans hb))
    have hkeep (hb : (s.item i).baseOnLastNumber = true) : cache'.baseOnLastNumber = true ∧
        AtMost schema (s.item i).lastNumber cache'.lastNumber := by
      rw [← hlast, hlast']
      exact ⟨hbase', (hafter (hbase.trans hb)).atMost⟩
    refine (h.setItem (.inr hload) hkeep ?_ fun _ => hload).addValue ⟨hval.1, hval.2,
      hlimits⟩ ?_ hnew
    · split_ifs <;> nofun
    simp only [update_self]
    exact ⟨hbase', hlast' ▸ .refl hv _⟩
  | overflow hbase' hlast' hwith hitem' =>
    refine h.setItem hitem' (fun hb => ?_) (fun _ => hwith) (by split_ifs <;> nofun)
    rw [hbase', hlast', hbase, hlast]
    exact ⟨hb, .refl hv _⟩

theorem Inv.batchGrant (i : ℕ) (hbatch : nextBatch schema (s.row schema) = .ok (range, next)) :
    Inv schema { s with nextValue := some next, grants := ⟨i, range⟩ :: s.grants } := by
  obtain ⟨hstart, hrange, hstop, hnext⟩ := nextBatch_ok hv h.row hbatch
  have hle : AtMost schema (s.row schema) next := hstart ▸ hrange.before.atMost.trans hstop
  exact (h.setRow hnext hle).grant hstop fun g hg => hstart ▸ h.grants_row g hg

/-- **A range arrives**: the server goes on with it, or keeps it as its prefetched range. -/
theorem Inv.batch (hpc : s.pc i ≠ .idle)
    (hbatch : nextBatch schema (s.row schema) = .ok (range, next)) :
    Inv schema (s.batch schema i range next) := by
  obtain ⟨hstart, hrange, hstop, hnext⟩ := nextBatch_ok hv h.row hbatch
  have hgrant := h.batchGrant hv i hbatch
  have hmine (v : ℤ) (hhas : range.Has schema v) :
      Granted schema (⟨i, range⟩ :: s.grants) i v :=
    ⟨_, List.mem_cons_self, rfl, hhas⟩
  unfold State.batch
  cases hp : s.pc i with
  | idle => exact absurd hp hpc
  | refill =>
    simp only [hp, refillSequenceCache, hv.noCycle, Bool.false_eq_true, false_and, if_false]
    refine hgrant.callMoveNext hv (.inr ⟨hrange, fun v _ hhas _ => hmine v hhas, fun hb => ?_,
      hstop, fun hwith => ?_⟩) rfl rfl
    · -- the last number came out of an older range
      rcases h.item i with hempty | hload
      · exact absurd (hempty.base.symm.trans hb) nofun
      refine ⟨(hload.last hb).1, ?_⟩
      exact hstart ▸ ((hload.last hb).2.trans hload.range.before.atMost).trans hload.stop_row
    · exact absurd ((h.refill i hp).symm.trans hwith) nofun
  | prefetch =>
  have hload := hgrant.prefetch i hp
  simp only [hp]
  refine hgrant.setItem (.inr ?_) (fun hb => ?_) nofun nofun
  · split_ifs with hwith
    · exact hload
    exact { hload with
      prefetch := fun _ => ⟨hrange, hstart ▸ (h.prefetch i hp).stop_row, hstop,
        fun v _ => hmine v⟩ }
  · split_ifs with hwith
    · exact ⟨hb, .refl hv _⟩
    · exact ⟨hb, .refl hv _⟩

/-- **A step** keeps the invariant. -/
theorem Inv.step {a s'} (hstep : s.step schema a = some s') : Inv schema s' := by
  -- a call that ends without a value
  have hidle (i : ℕ) {s : State} (h : Inv schema s) :
      Inv schema { s with pc := Function.update s.pc i .idle } := by
    have := h.setItem (i := i) (h.item i) (fun hb => ⟨hb, .refl hv _⟩)
      (nofun : Pc.idle = .refill → _) nofun
    rwa [update_eq_self] at this
  cases a with
  | nextval i =>
    obtain ⟨-, ⟨⟩⟩ := ite_none_right_eq_some.mp hstep
    exact h.callMoveNext hv (h.item i) rfl rfl
  | batch i =>
    obtain ⟨hpc, hstep⟩ := ite_none_left_eq_some.mp hstep
    split at hstep
    next range next hbatch =>
      cases hstep
      exact h.batch hv hpc hbatch
    next =>
      cases hstep
      exact hidle i h
  | batchFails i committed =>
  obtain ⟨-, hstep⟩ := ite_none_left_eq_some.mp hstep
  split at hstep
  next range next hbatch =>
    cases hstep
    split_ifs
    · -- the row has moved on, and nobody has the range
      obtain ⟨hstart, hrange, hstop, hnext⟩ := nextBatch_ok hv h.row hbatch
      exact hidle i (h.setRow hnext (hstart ▸ hrange.before.atMost.trans hstop))
    · exact hidle i h
  next =>
    cases hstep
    exact hidle i h

end

theorem Inv.init (hv : Valid schema) : Inv schema .init where
  row := ⟨.refl hv _, fun _ => ⟨0, by simp [State.row, State.init]⟩⟩
  grants := .nil
  grants_row := by simp [State.init]
  item := fun _ => .inl ⟨rfl, rfl, rfl⟩
  refill := nofun
  prefetch := nofun
  values := by simp [State.init]
  last := by simp [State.init]
  order := .nil

theorem Inv.server_unique (h : Inv schema s) {i j v}
    (hi : Granted schema s.grants i v) (hj : Granted schema s.grants j v) : i = j := by
  obtain ⟨g, hg, rfl, hv⟩ := hi
  obtain ⟨g', hg', rfl, hv'⟩ := hj
  by_contra hne
  have hapart : s.grants.Pairwise fun a b => AtMost schema a.range.stop b.range.start ∨
      AtMost schema b.range.stop a.range.start := h.grants.imp fun hab => .inr hab
  have : Std.Symm fun a b : Grant => AtMost schema a.range.stop b.range.start ∨
      AtMost schema b.range.stop a.range.start := ⟨fun _ _ => Or.symm⟩
  rcases hapart.forall hg hg' (fun heq => hne (heq ▸ rfl)) with hle | hle
  · exact hv.2.not_atMost (hle.trans hv'.1)
  · exact hv'.2.not_atMost (hle.trans hv.1)

end Run

/-- **No value of a sequence without `CYCLE` is returned twice.** In every state that any number of
servers reach, the values of all calls are distinct, lie between the limits, are whole increments
from the start, and go in the direction of the increment on each server. -/
theorem nextval_distinct (hv : Valid schema) {s : State} (hs : (sequenceCache schema).Reachable s) :
    (s.values.map Prod.snd).Nodup ∧ (∀ p ∈ s.values, schema.minValue ≤ p.2 ∧ p.2 ≤ schema.maxValue ∧
        ∃ k : ℕ, p.2 = schema.startWith + k * schema.incrementBy) ∧
      s.values.Pairwise fun new old => new.1 = old.1 →
        if 0 < schema.incrementBy then old.2 < new.2 else new.2 < old.2 := by
  have h : Inv schema s := by
    refine hs.of_keeps ?_ ?_
    · rintro s rfl
      exact .init hv
    · rintro s s' h ⟨a, hstep⟩
      exact h.step hv hstep
  refine ⟨?_, fun p hp => ?_, h.order.imp fun horder heq => ?_⟩
  · refine List.pairwise_map.mpr (h.order.imp_of_mem fun {a b} ha hb horder heq => ?_)
    have hserver := h.server_unique (h.values a ha).1 (heq ▸ (h.values b hb).1)
    exact (horder hserver).not_atMost (heq ▸ .refl hv _)
  · obtain ⟨-, hlattice, hmin, hmax⟩ := h.values p hp
    exact ⟨hmin, hmax, hlattice⟩
  · have := horder heq
    unfold Before at this
    split_ifs <;> omega

def run (schema : SequenceSchema) : State → List Act → Option State
  | s, [] => some s
  | s, a :: as => (s.step schema a).bind fun s' => run schema s' as

theorem run_reachable {s s' as} (hs : (sequenceCache schema).Reachable s)
    (h : run schema s as = some s') : (sequenceCache schema).Reachable s' :=
  hs.of_run h (fun _ => rfl) (fun _ _ _ => rfl) fun _ a _ ha => ⟨a, ha⟩

/-- A sequence from 10 down to 1 by 2, in batches of two. -/
def descending : SequenceSchema := ⟨1, 10, -2, 10, 2, false, false⟩

/-- Two servers take the values in turn: the first has 10 and 8, the second 6 and 4; the first goes
on with its prefetched 2, while the transaction of the second fails. -/
theorem nextval_distinct_descending : Valid descending ∧
    ∃ s, (sequenceCache descending).Reachable s ∧
      s.values = [(0, 2), (1, 4), (0, 8), (1, 6), (0, 10)] ∧ (s.values.map Prod.snd).Nodup := by
  have hv : Valid descending := ⟨rfl, by decide, by decide, by decide, by decide⟩
  have hrun : (run descending .init [.nextval 0, .batch 0, .nextval 1, .batch 1, .nextval 0,
      .batch 0, .nextval 1, .batchFails 1 false, .nextval 0]).map State.values =
        some [(0, 2), (1, 4), (0, 8), (1, 6), (0, 10)] := by decide
  obtain ⟨s, hrun, hvalues⟩ := Option.map_eq_some_iff.mp hrun
  have hs := run_reachable (.init rfl) hrun
  exact ⟨hv, s, hs, hvalues, (nextval_distinct hv hs).1⟩

end OceanBase.Sequence
