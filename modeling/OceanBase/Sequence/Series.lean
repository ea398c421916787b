import OceanBase.Sequence.Distinct

/-!
# The series of one server

Used by one server, a sequence is the series of its definition, without gaps: from the start by the
increment up to the limit, and with `CYCLE` again from the other limit on, forever.

The ranges of the transactions follow each other. A range ends with a value of the series that the
next one starts with, or at the limit. So where the range of the item is used up, the next value is
the start of the next range, prefetched or not. With a cycle of one value that start is the last
value again: the item takes this for a range that is too short, and fetches another one.

## Main results

* `nextval_series`: every call returns the next value of the series
-/

namespace OceanBase.Sequence

variable (schema : SequenceSchema)

/-! ## A server and the series -/

structure Usable : Prop where
  increment : schema.incrementBy ≠ 0
  cache : 1 ≤ schema.cacheSize
  min_le : schema.minValue ≤ schema.startWith
  le_max : schema.startWith ≤ schema.maxValue

/-- The item of a server, and the row `next_value`. -/
structure Server where
  item : SequenceCacheItem := {}
  nextValue : Option ℤ := none

namespace Server

def nextBatch (s : Server) : Except SequenceErr (SequenceCacheNode × ℤ) :=
  Sequence.nextBatch schema (s.nextValue.getD schema.startWith)

/-- The loop of `refill_sequence_cache`, with the number of passes as fuel. -/
def refill : ℕ → Server → Option (Server × Option SequenceErr)
  | 0, _ => none
  | fuel + 1, s =>
    match s.nextBatch schema with
    | .error e => some (s, some e)
    | .ok b =>
      let r := refillSequenceCache schema s.item b.1
      if r.2 then refill fuel ⟨r.1, some b.2⟩ else some (⟨r.1, some b.2⟩, none)

/-- The last step of `nextval`: an error of the prefetch is ignored. -/
def prefetch (s : Server) : Server :=
  if wantsPrefetch schema s.item then
    match s.nextBatch schema with
    | .error _ => s
    | .ok b => ⟨{ s.item with withPrefetchNode := true, prefetchNode := b.1 }, some b.2⟩
  else s

/-- What `nextval` makes of a call of `move_next` after the refill. -/
def afterRefill (s : Server) : Server × Except SequenceErr ℤ :=
  let m := moveNext schema s.item
  match m.2 with
  | .ok v => (prefetch schema ⟨m.1, s.nextValue⟩, .ok v)
  | .error _ => (⟨m.1, s.nextValue⟩, .error .valueExceedLimit)

/-- A whole call, with its transactions one after the other. None fails, and no other server gets in
between. -/
def nextval (fuel : ℕ) (s : Server) : Option (Server × Except SequenceErr ℤ) :=
  let m := moveNext schema s.item
  match m.2 with
  | .ok v => some (prefetch schema ⟨m.1, s.nextValue⟩, .ok v)
  | .error .valueExceedLimit => some (⟨m.1, s.nextValue⟩, .error .valueExceedLimit)
  | .error .sizeOverflow => (refill schema fuel ⟨m.1, s.nextValue⟩).map fun r =>
    match r.2 with
    | some _ => (r.1, .error .valueExceedLimit)
    | none => afterRefill schema r.1

end Server

def InRange (v : ℤ) : Prop := schema.minValue ≤ v ∧ v ≤ schema.maxValue
  deriving Decidable

def succValue (v : ℤ) : Option ℤ :=
  if InRange schema (v + schema.incrementBy) then some (v + schema.incrementBy)
  else if schema.cycleFlag then
    some (if 0 < schema.incrementBy then schema.minValue else schema.maxValue)
  else none

/-- The ideal series, which ends without `CYCLE`. -/
def series : ℕ → Option ℤ
  | 0 => some schema.startWith
  | k + 1 => (series k).bind (succValue schema)

/-- What a call returns for a value of the series, or behind its end. -/
def resultOf : Option ℤ → Except SequenceErr ℤ
  | some v => .ok v
  | none => .error .valueExceedLimit

/-! ## Ranges -/

/-- The first number past the limit. -/
def IsLimit (x : ℤ) : Prop :=
  0 < schema.incrementBy ∧ x = schema.maxValue + 1 ∨
    schema.incrementBy < 0 ∧ x = schema.minValue - 1

/-- The first value of a new cycle. -/
def IsReset (x : ℤ) : Prop :=
  0 < schema.incrementBy ∧ x = schema.minValue ∨ schema.incrementBy < 0 ∧ x = schema.maxValue

/-- A range ends at the limit, and `next` comes after it. -/
def Clipped (stop next : ℤ) : Prop :=
  IsLimit schema stop ∧ (schema.cycleFlag = true ∧ IsReset schema next ∨
    schema.cycleFlag = false ∧ next = stop)

/-- From `v` on, a range up to `stop` has values of the series, and `next` comes after them. -/
inductive Covers (v stop next : ℤ) : Prop
  | clipped (h : Clipped schema stop next)
  | full (k : ℕ) (hstop : stop = v + schema.incrementBy * (k + 1)) (hin : InRange schema stop)
      (hnext : next = stop)

/-- The range after that of the item starts with `next`. It is prefetched, or the row is there. -/
inductive Follows (s : Server) (next : ℤ) : Prop
  | prefetched (row : ℤ) (hwith : s.item.withPrefetchNode = true)
      (hstart : s.item.prefetchNode.start = next) (hin : InRange schema next)
      (hcovers : Covers schema next s.item.prefetchNode.stop row) (hvalue : s.nextValue = some row)
  | later (hwith : s.item.withPrefetchNode = false) (hvalue : s.nextValue = some next)

/-- The last value was `v`, and the values after it are at hand. -/
structure Ready (v : ℤ) (s : Server) : Prop where
  inRange : InRange schema v
  base : s.item.baseOnLastNumber = true
  last : s.item.lastNumber = v
  start : s.item.currNode.start = v
  covers : ∃ next, Covers schema v s.item.currNode.stop next ∧ Follows schema s next

def Returns (s : Server) (w : ℤ) : Prop :=
  ∃ s', s.nextval schema 2 = some (s', .ok w) ∧ Ready schema w s'

/-- The next call has to return this value of the series. -/
def Expects (o : Option ℤ) (s : Server) : Prop :=
  s = {} ∧ o = some schema.startWith ∨ ∃ v, Ready schema v s ∧ o = succValue schema v

/-- A call returns what was expected, and the next value is expected of the next one. -/
def Serves (o : Option ℤ) (s : Server) : Prop :=
  ∃ s', s.nextval schema 2 = some (s', resultOf o) ∧
    Expects schema (o.bind (succValue schema)) s'

variable {schema} {v w x stop next row : ℤ} {cache item : SequenceCacheItem} {s : Server}

theorem IsReset.unique {y} (hx : IsReset schema x) (hy : IsReset schema y) : x = y := by
  unfold IsReset at *
  omega

theorem IsReset.inRange (hx : IsReset schema x) (hv : InRange schema v) : InRange schema x := by
  unfold IsReset InRange at *
  omega

theorem Before.ne {a b} (h : Before schema a b) : a ≠ b := by
  unfold Before at h
  omega

theorem Returns.serves (h : Returns schema s w) : Serves schema (some w) s := by
  obtain ⟨s', hs', hready⟩ := h
  exact ⟨s', hs', .inr ⟨w, hready, rfl⟩⟩

section Usable

variable (hu : Usable schema)
include hu

theorem before_add_mul (v : ℤ) (k : ℕ) : Before schema v (v + schema.incrementBy * (k + 1)) := by
  have hk : (0 : ℤ) ≤ k := Int.natCast_nonneg k
  rcases lt_or_gt_of_ne hu.increment with hneg | hpos
  · exact .inr ⟨hneg, by nlinarith⟩
  · exact .inl ⟨hpos, by nlinarith⟩

theorem Covers.before (hv : InRange schema v) (h : Covers schema v stop next) :
    Before schema v stop := by
  have hinc := hu.increment
  cases h with
  | clipped h =>
    have hstop := h.1
    unfold IsLimit InRange Before at *
    omega
  | full k hstop hin hnext => exact hstop ▸ before_add_mul hu v k

/-- The next value is in the range or the start of the next one, or the limit has been reached. -/
theorem Covers.succ (hv : InRange schema v) (h : Covers schema v stop next)
    (hw : w = v + schema.incrementBy) :
    InRange schema w ∧ Before schema w stop ∧ Covers schema w stop next ∨
    InRange schema w ∧ stop = w ∧ next = w ∨ ¬ InRange schema w ∧ Clipped schema stop next := by
  have hinc := hu.increment
  cases h with
  | clipped h =>
    by_cases hin : InRange schema w
    · exact .inl ⟨hin, Covers.before hu hin (.clipped h), .clipped h⟩
    · exact .inr (.inr ⟨hin, h⟩)
  | full k hstop hin hnext =>
    cases k with
    | zero =>
      obtain rfl : stop = w := by simpa [hw] using hstop
      exact .inr (.inl ⟨hin, rfl, hnext⟩)
    | succ k =>
    have hrest : stop = w + schema.incrementBy * (k + 1) := by
      rw [hstop, hw]
      push_cast
      ring
    have hbefore : Before schema w stop := hrest ▸ before_add_mul hu w k
    refine .inl ⟨?_, hbefore, .full k hrest hin hnext⟩
    unfold Before InRange at *
    omega

/-- **A transaction hands out values of the series.** -/
theorem nextBatch_covers (hrow : InRange schema row) :
    ∃ stop next, nextBatch schema row = .ok (⟨row, stop⟩, next) ∧ Covers schema row stop next := by
  obtain ⟨k, hk⟩ : ∃ k : ℕ, (if schema.orderFlag then 1 else schema.cacheSize) = (k : ℤ) + 1 := by
    refine ⟨((if schema.orderFlag then 1 else schema.cacheSize) - 1).toNat, ?_⟩
    have := hu.cache
    split_ifs <;> omega
  have hbefore := before_add_mul hu row k
  unfold InRange at hrow
  unfold nextBatch
  simp only [hk, add_comm _ row]
  by_cases hover : 0 < schema.incrementBy ∧ schema.maxValue < row + schema.incrementBy * (k + 1)
  · rw [if_pos hover, if_neg (not_lt.mpr hrow.2)]
    cases hc : schema.cycleFlag with
    | true => exact ⟨_, _, rfl, .clipped ⟨.inl ⟨hover.1, rfl⟩, .inl ⟨hc, .inl ⟨hover.1, rfl⟩⟩⟩⟩
    | false => exact ⟨_, _, rfl, .clipped ⟨.inl ⟨hover.1, rfl⟩, .inr ⟨hc, rfl⟩⟩⟩
  rw [if_neg hover]
  by_cases hunder : schema.incrementBy < 0 ∧ row + schema.incrementBy * (k + 1) < schema.minValue
  · rw [if_pos hunder, if_neg (not_lt.mpr hrow.1)]
    cases hc : schema.cycleFlag with
    | true => exact ⟨_, _, rfl, .clipped ⟨.inr ⟨hunder.1, rfl⟩, .inl ⟨hc, .inr ⟨hunder.1, rfl⟩⟩⟩⟩
    | false => exact ⟨_, _, rfl, .clipped ⟨.inr ⟨hunder.1, rfl⟩, .inr ⟨hc, rfl⟩⟩⟩
  rw [if_neg hunder]
  refine ⟨_, _, rfl, .full k rfl ?_ rfl⟩
  unfold Before InRange at *
  omega

theorem nextBatch_limit (hc : schema.cycleFlag = false) (hrow : IsLimit schema row) :
    nextBatch schema row = .error .valueExceedLimit := by
  have hsize : 1 ≤ if schema.orderFlag then 1 else schema.cacheSize := by
    have := hu.cache
    split_ifs <;> omega
  unfold nextBatch
  simp only [hc, Bool.false_eq_true, if_false]
  rcases hrow with ⟨hpos, rfl⟩ | ⟨hneg, rfl⟩
  · rw [if_pos ⟨hpos, by nlinarith⟩, if_pos (by omega)]
  · rw [if_neg fun h => by omega, if_pos ⟨hneg, by nlinarith⟩, if_pos (by omega)]

/-! ## The item -/

omit hu in
theorem moveNext_first (hbase : cache.baseOnLastNumber = false)
    (hne : cache.currNode.start ≠ cache.currNode.stop) (hin : InRange schema cache.currNode.start) :
    moveNext schema cache = ({ cache with baseOnLastNumber := true
                                          lastNumber := cache.currNode.start },
      .ok cache.currNode.start) := by
  unfold InRange at hin
  simp only [moveNext, needRefillCache, hne, false_and, if_false, hbase, if_true, advance]
  rw [if_neg Bool.false_ne_true, if_neg (by omega)]

omit hu in
theorem moveNext_refill (h : needRefillCache schema cache = (item, true)) :
    moveNext schema cache = (item, .error .sizeOverflow) := by
  simp only [moveNext, h, if_true]

/-- The item has values: the next one, or the start of its range if that is a new cycle or the next
value itself. -/
theorem moveNext_eq (hrefill : needRefillCache schema cache = (item, false))
    (hbase : item.baseOnLastNumber = true) (hin : InRange schema w)
    (hw : w = item.lastNumber + schema.incrementBy ∧
        (item.currNode.start = item.lastNumber ∨ item.currNode.start = w) ∨
      schema.cycleFlag = true ∧ item.currNode.start = w ∧ Before schema w item.lastNumber) :
    moveNext schema cache =
      ({ item with currNode := ⟨w, item.currNode.stop⟩, lastNumber := w }, .ok w) := by
  have hinc := hu.increment
  have hadvance : advance schema item = { item with currNode := ⟨w, item.currNode.stop⟩ } := by
    obtain ⟨⟨start, stop⟩, pre, hasPre, base, last⟩ := item
    dsimp only at *
    subst hbase
    simp only [advance, Bool.true_eq_false, if_false]
    rcases hw with ⟨rfl, hstart⟩ | ⟨hc, rfl, hbefore⟩
    · rw [if_neg (by omega)]
      rcases hstart with rfl | rfl
      · rcases lt_or_gt_of_ne hinc with hneg | hpos
        · rw [if_neg (by omega), if_pos (by omega)]
        · rw [if_pos hpos, if_pos (by omega)]
      · rw [if_neg (lt_irrefl _), ite_self]
    · rw [if_pos ⟨hc, hbefore⟩]
  unfold InRange at hin
  simp only [moveNext, hrefill, Bool.false_eq_true, if_false, hadvance]
  rw [if_neg (by omega)]

theorem isShort_iff : isShort schema cache = true ↔
    AtMost schema cache.lastNumber cache.currNode.start ∧
      AtMost schema cache.currNode.stop (cache.lastNumber + schema.incrementBy) := by
  have hinc := hu.increment
  unfold isShort AtMost
  split_ifs <;> simp only [decide_eq_true_eq, false_iff] <;> omega

theorem not_isShort (h : Before schema (cache.lastNumber + schema.incrementBy) cache.currNode.stop ∨
    Before schema cache.currNode.start cache.lastNumber) : isShort schema cache = false := by
  rw [Bool.eq_false_iff, Ne, isShort_iff hu]
  rintro ⟨hstart, hstop⟩
  exact h.elim (·.not_atMost hstop) (·.not_atMost hstart)

omit hu in
theorem needRefill_of_long (hbase : cache.baseOnLastNumber = true)
    (hne : cache.currNode.start ≠ cache.currNode.stop) (hlong : isShort schema cache = false) :
    needRefillCache schema cache = (cache, false) := by
  rw [needRefillCache, if_neg fun h => hne h.1, if_neg (by simp [hbase]), if_neg (by simp [hlong]),
    hlong]

theorem Ready.needRefill_of_used (h : Ready schema v s) (hne : v ≠ s.item.currNode.stop)
    (hstop : AtMost schema s.item.currNode.stop (v + schema.incrementBy)) :
    needRefillCache schema s.item = if s.item.withPrefetchNode = true then
      (s.item.combinePrefetchNode, isShort schema s.item.combinePrefetchNode)
    else (s.item, true) := by
  have hinc := hu.increment
  have hshort : isShort schema s.item = true := by
    rw [isShort_iff hu, h.last, h.start]
    refine ⟨?_, hstop⟩
    unfold AtMost
    omega
  rw [needRefillCache, if_neg fun h' => hne (h.start ▸ h'.1), if_neg (by simp [h.base])]
  simp only [hshort, true_and]

/-! ## Calls -/

open Server Option

theorem Ready.prefetch (h : Ready schema v s) : Ready schema v (s.prefetch schema) := by
  unfold Server.prefetch
  by_cases hwants : wantsPrefetch schema s.item = true
  swap
  · rwa [if_neg hwants]
  rw [if_pos hwants]
  obtain ⟨next, hcovers, hfollows⟩ := h.covers
  cases hfollows with
  | prefetched row hwith => simp [wantsPrefetch, hwith] at hwants
  | later hwith hvalue =>
  by_cases hin : InRange schema next
  · obtain ⟨stop, row, hbatch, hrow⟩ := nextBatch_covers hu hin
    simp only [Server.nextBatch, hvalue, Option.getD_some, hbatch]
    exact ⟨h.inRange, h.base, h.last, h.start, next, hcovers, .prefetched row rfl rfl hin hrow rfl⟩
  -- a sequence without cycles has reached its limit
  obtain ⟨hc, hlimit⟩ : schema.cycleFlag = false ∧ IsLimit schema next := by
    cases hcovers with
    | clipped hclip =>
      obtain ⟨hstop, ⟨-, hreset⟩ | ⟨hc, rfl⟩⟩ := hclip
      · exact absurd (hreset.inRange h.inRange) hin
      · exact ⟨hc, hstop⟩
    | full k hstop hin' hnext => exact absurd (hnext ▸ hin') hin
  simp only [Server.nextBatch, hvalue, Option.getD_some, nextBatch_limit hu hc hlimit]
  exact h

theorem Returns.of_moveNext (hmove : moveNext schema s.item = (item, .ok w))
    (h : Ready schema w ⟨item, s.nextValue⟩) : Returns schema s w := by
  refine ⟨_, ?_, h.prefetch hu⟩
  simp only [Server.nextval, hmove]

theorem Returns.of_refill {item' s'} (hneed : needRefillCache schema s.item = (item, true))
    (hrefill : refill schema 2 ⟨item, s.nextValue⟩ = some (s', none))
    (hmove : moveNext schema s'.item = (item', .ok w)) (h : Ready schema w ⟨item', s'.nextValue⟩) :
    Returns schema s w := by
  refine ⟨_, ?_, h.prefetch hu⟩
  simp only [nextval, moveNext_refill hneed, hrefill, map_some, afterRefill, hmove]

theorem refill_next (hin : InRange schema w) (item : SequenceCacheItem)
    (hitem : item.baseOnLastNumber = false ∨
      w = item.lastNumber + schema.incrementBy ∧ item.currNode.start = item.lastNumber) (fuel : ℕ)
    (nextValue : Option ℤ) (hrow : nextValue.getD schema.startWith = w) :
    ∃ stop next, Covers schema w stop next ∧ refill schema (fuel + 1) ⟨item, nextValue⟩ =
        some (⟨{ item with currNode := ⟨w, stop⟩ }, some next⟩, none) := by
  obtain ⟨stop, next, hbatch, hcovers⟩ := nextBatch_covers hu hin
  have hbefore := hcovers.before hu hin
  have hrefill : refillSequenceCache schema item ⟨w, stop⟩ =
      ({ item with currNode := ⟨w, stop⟩ }, false) := by
    unfold refillSequenceCache
    by_cases hc : schema.cycleFlag = true ∧ item.baseOnLastNumber = true
    · obtain ⟨hw, hstart⟩ := hitem.resolve_left (by simp [hc.2])
      unfold Before at hbefore
      dsimp only
      rw [if_pos hc, if_neg (by omega), if_neg (by omega)]
    · exact if_neg hc
  refine ⟨stop, next, hcovers, ?_⟩
  simp only [Server.refill, Server.nextBatch, hrow, hbatch, hrefill]
  rfl

section Reset

variable (hc : schema.cycleFlag = true) (hx : IsReset schema x) (hv : InRange schema v)
  (hout : ¬ InRange schema (v + schema.incrementBy)) (hbase : item.baseOnLastNumber = true)
  (hlast : item.lastNumber = v) (hstart : item.currNode.start = v)
include hc hx hv hout hbase hlast hstart

/-- A refill with a new cycle. If the cycle has one value it takes two passes. -/
theorem refill_reset : ∃ stop next, Covers schema x stop next ∧
    refill schema 2 ⟨item, some x⟩ = some (⟨{ item with
      baseOnLastNumber := false, currNode := ⟨x, stop⟩ }, some next⟩, none) := by
  have hin := hx.inRange hv
  obtain ⟨stop, next, hbatch, hcovers⟩ := nextBatch_covers hu hin
  by_cases hxv : x = v
  · subst hxv
    obtain ⟨h, -⟩ | ⟨h, -⟩ | ⟨-, hlimit, hnext⟩ := hcovers.succ hu hin rfl
    · exact absurd h hout
    · exact absurd h hout
    obtain ⟨-, hnext⟩ := hnext.resolve_right (by simp [hc])
    have hrefill : refillSequenceCache schema item ⟨x, stop⟩ =
        ({ item with baseOnLastNumber := false }, true) := by
      unfold refillSequenceCache
      unfold IsLimit at hlimit
      unfold InRange at *
      dsimp only
      rw [if_pos ⟨hc, hbase⟩, if_neg (by omega), if_pos (by omega)]
    obtain ⟨stop', next', hcovers', hrec⟩ :=
      refill_next hu hin { item with baseOnLastNumber := false }
      (.inl rfl) 0 (some next) (hnext.unique hx)
    refine ⟨stop', next', hcovers', ?_⟩
    rw [refill]
    simp only [Server.nextBatch, Option.getD_some, hbatch, hrefill, if_true]
    exact hrec
  · refine ⟨stop, next, hcovers, ?_⟩
    have hrefill : refillSequenceCache schema item ⟨x, stop⟩ =
        ({ item with baseOnLastNumber := false, currNode := ⟨x, stop⟩ }, false) := by
      unfold refillSequenceCache
      unfold IsReset at hx
      unfold InRange at hv
      dsimp only
      rw [if_pos ⟨hc, hbase⟩, if_pos (by omega)]
    simp only [Server.refill, Server.nextBatch, Option.getD_some, hbatch, hrefill]
    rfl

theorem Returns.of_reset (hneed : needRefillCache schema s.item = (item, true))
    (hwith : item.withPrefetchNode = false) (hvalue : s.nextValue = some x) :
    Returns schema s x := by
  have hin := hx.inRange hv
  obtain ⟨stop, next, hcovers, hrefill⟩ := refill_reset hu hc hx hv hout hbase hlast hstart
  rw [← hvalue] at hrefill
  exact .of_refill hu hneed hrefill (moveNext_first rfl (hcovers.before hu hin).ne hin)
    ⟨hin, rfl, rfl, rfl, next, hcovers, .later hwith rfl⟩

end Reset

namespace Ready

variable (h : Ready schema v s)
include h

/-- The next range starts with the next value. -/
theorem returns_contiguous (hw : w = v + schema.incrementBy) (hin : InRange schema w)
    (hstop : s.item.currNode.stop = w) (hfollows : Follows schema s w) : Returns schema s w := by
  have hinc := hu.increment
  have hstart : s.item.currNode.start = s.item.lastNumber := h.start.trans h.last.symm
  have hlast : w = s.item.lastNumber + schema.incrementBy := by rw [hw, h.last]
  have hneed := h.needRefill_of_used hu (by omega) (by unfold AtMost; omega)
  cases hfollows with
  | prefetched row hwith hpre _ hrow hvalue =>
    have hcomb : s.item.combinePrefetchNode = { s.item with
        currNode := ⟨s.item.currNode.start, s.item.prefetchNode.stop⟩
        withPrefetchNode := false } := by
      simp [SequenceCacheItem.combinePrefetchNode, hwith, hstop, hpre]
    have hlong : isShort schema s.item.combinePrefetchNode = false := by
      refine not_isShort hu (.inl ?_)
      rw [hcomb, ← hlast]
      exact hrow.before hu hin
    rw [if_pos hwith, hlong, hcomb] at hneed
    exact .of_moveNext hu (moveNext_eq hu hneed h.base hin (.inl ⟨hlast, .inl hstart⟩))
      ⟨hin, h.base, rfl, rfl, row, hrow, .later rfl hvalue⟩
  | later hwith hvalue =>
    rw [if_neg (by simp [hwith])] at hneed
    obtain ⟨stop, next, hcovers, hrefill⟩ := refill_next hu hin s.item (.inr ⟨hlast, hstart⟩) 1
      s.nextValue (by rw [hvalue]; rfl)
    have hbefore := hcovers.before hu hin
    have hlong : isShort schema { s.item with currNode := ⟨w, stop⟩ } = false :=
      not_isShort hu (.inl (hlast ▸ hbefore))
    exact .of_refill hu hneed hrefill
      (moveNext_eq hu (needRefill_of_long h.base hbefore.ne hlong) h.base hin
        (.inl ⟨hlast, .inr rfl⟩))
      ⟨hin, h.base, rfl, rfl, next, hcovers, .later hwith rfl⟩

/-- The next range is a new cycle. -/
theorem returns_cycle (hc : schema.cycleFlag = true) (hx : IsReset schema x)
    (hout : ¬ InRange schema (v + schema.incrementBy))
    (hlimit : IsLimit schema s.item.currNode.stop)
    (hused : AtMost schema s.item.currNode.stop (v + schema.incrementBy))
    (hfollows : Follows schema s x) : Returns schema s x := by
  have hinc := hu.increment
  have hv := h.inRange
  have hin := hx.inRange hv
  have hne : v ≠ s.item.currNode.stop ∧ s.item.currNode.stop ≠ x := by
    unfold IsLimit InRange at *
    omega
  have hneed := h.needRefill_of_used hu hne.1 hused
  cases hfollows with
  | prefetched row hwith hpre _ hrow hvalue =>
    have hcomb : s.item.combinePrefetchNode = { s.item with
        currNode := ⟨x, s.item.prefetchNode.stop⟩
        withPrefetchNode := false } := by
      simp [SequenceCacheItem.combinePrefetchNode, hwith, hpre, hne.2]
    rw [if_pos hwith, hcomb] at hneed
    by_cases hxv : x = v
    · -- a cycle of one value: the prefetched range is the same one again
      subst hxv
      obtain ⟨h', -⟩ | ⟨h', -⟩ | ⟨-, hlimit', hrow'⟩ := hrow.succ hu hin rfl
      · exact absurd h' hout
      · exact absurd h' hout
      obtain ⟨-, hrow'⟩ := hrow'.resolve_right (by simp [hc])
      obtain rfl := hrow'.unique hx
      have hshort : isShort schema { s.item with
          currNode := ⟨row, s.item.prefetchNode.stop⟩
          withPrefetchNode := false } = true := by
        rw [isShort_iff hu, h.last]
        unfold IsLimit at *
        unfold AtMost at *
        dsimp only
        omega
      rw [hshort] at hneed
      refine .of_reset hu hc hx hv hout ?_ ?_ ?_ hneed rfl hvalue
      exacts [h.base, h.last, rfl]
    · have hbefore : Before schema x v := by
        unfold IsReset InRange Before at *
        omega
      rw [← h.last] at hbefore
      rw [not_isShort hu (.inr hbefore)] at hneed
      exact .of_moveNext hu (moveNext_eq hu hneed h.base hin (.inr ⟨hc, rfl, hbefore⟩))
        ⟨hin, h.base, rfl, rfl, row, hrow, .later rfl hvalue⟩
  | later hwith hvalue =>
    rw [if_neg (by simp [hwith])] at hneed
    exact .of_reset hu hc hx hv hout h.base h.last h.start hneed hwith hvalue

/-- **A call returns the value after the last one.** -/
theorem nextval : Serves schema (succValue schema v) s := by
  have hinc := hu.increment
  have hv := h.inRange
  obtain ⟨w, hw⟩ : ∃ w, w = v + schema.incrementBy := ⟨_, rfl⟩
  have hlast : w = s.item.lastNumber + schema.incrementBy := by rw [hw, h.last]
  obtain ⟨next, hcovers, hfollows⟩ := h.covers
  have hne : v ≠ s.item.currNode.stop := (hcovers.before hu hv).ne
  rcases hcovers.succ hu hv hw with ⟨hin, hbefore, hrest⟩ | ⟨hin, hstop, rfl⟩ | ⟨hout,
    hlimit, hcycle⟩
  · -- the range has another value
    have hneed := needRefill_of_long h.base (h.start ▸ hne)
      (not_isShort hu (.inl (hlast ▸ hbefore)))
    rw [succValue, ← hw, if_pos hin]
    refine (Returns.of_moveNext hu
      (moveNext_eq hu hneed h.base hin (.inl ⟨hlast, .inl (h.start.trans h.last.symm)⟩))
      ⟨hin, h.base, rfl, rfl, next, hrest, ?_⟩).serves
    cases hfollows with
    | prefetched row hwith hpre hpin hrow hvalue =>
      exact .prefetched row hwith hpre hpin hrow hvalue
    | later hwith hvalue => exact .later hwith hvalue
  · rw [succValue, ← hw, if_pos hin]
    exact (h.returns_contiguous hu hw hin hstop hfollows).serves
  rw [hw] at hout
  have hused : AtMost schema s.item.currNode.stop (v + schema.incrementBy) := by
    unfold IsLimit InRange AtMost at *
    omega
  rcases hcycle with ⟨hc, hreset⟩ | ⟨hc, rfl⟩
  · have hnext : succValue schema v = some next := by
      rw [succValue, if_neg hout, if_pos hc]
      unfold IsReset at hreset
      split_ifs <;> congr 1 <;> omega
    rw [hnext]
    exact (h.returns_cycle hu hc hreset hout hlimit hused hfollows).serves
  -- the end of the series
  have hend : succValue schema v = none := by rw [succValue, if_neg hout, hc]; rfl
  cases hfollows with
  | prefetched _ _ _ hin =>
    unfold IsLimit InRange at *
    omega
  | later hwith hvalue =>
  have hneed := h.needRefill_of_used hu hne hused
  rw [if_neg (by simp [hwith])] at hneed
  refine ⟨s, ?_, .inr ⟨v, h, by rw [hend]; rfl⟩⟩
  simp only [Server.nextval, moveNext_refill hneed, Server.refill, Server.nextBatch, hvalue,
    Option.getD_some, nextBatch_limit hu hc hlimit, Option.map_some, hend, resultOf]
  rw [← hvalue]

end Ready

theorem returns_first : Returns schema {} schema.startWith := by
  have hin : InRange schema schema.startWith := ⟨hu.min_le, hu.le_max⟩
  obtain ⟨stop, next, hcovers, hrefill⟩ := refill_next hu hin {} (.inl rfl) 1 none rfl
  exact .of_refill hu rfl hrefill (moveNext_first rfl (hcovers.before hu hin).ne hin)
    ⟨hin, rfl, rfl, rfl, next, hcovers, .later rfl rfl⟩

theorem Expects.nextval {o} (h : Expects schema o s) : Serves schema o s := by
  rcases h with ⟨rfl, rfl⟩ | ⟨v, h, rfl⟩
  · exact (returns_first hu).serves
  · exact h.nextval hu

end Usable

def afterCall (schema : SequenceSchema) (s : Server) : Server :=
  ((s.nextval schema 2).map Prod.fst).getD s

/-- **The series of one server**: for every sequence, the k-th call returns the k-th value of the
ideal series, and fails behind its end. A refill takes at most two passes. -/
theorem nextval_series (hu : Usable schema) (k : ℕ) : ((afterCall schema)^[k] {}).nextval schema 2 =
      some ((afterCall schema)^[k + 1] {}, resultOf (series schema k)) := by
  have hcall : ∀ {o s}, Expects schema o s →
    s.nextval schema 2 = some (afterCall schema s, resultOf o) ∧
      Expects schema (o.bind (succValue schema)) (afterCall schema s) := fun h => by
    obtain ⟨s', hs', h'⟩ := h.nextval hu
    rw [afterCall, hs']
    exact ⟨rfl, h'⟩
  have hinv : Expects schema (series schema k) ((afterCall schema)^[k] {}) := by
    induction k with
    | zero => exact .inl ⟨rfl, rfl⟩
    | succ k ih =>
    rw [Function.iterate_succ_apply']
    exact (hcall ih).2
  rw [Function.iterate_succ_apply']
  exact (hcall hinv).1

/-- A cycle of one value. -/
theorem nextval_series_single : Usable ⟨1, 5, 7, 3, 4, false, true⟩ ∧
    ((afterCall ⟨1, 5, 7, 3, 4, false, true⟩)^[2] {}).nextval ⟨1, 5, 7, 3, 4, false, true⟩ 2 =
      some ((afterCall ⟨1, 5, 7, 3, 4, false, true⟩)^[3] {}, .ok 1) := by
  have hu : Usable ⟨1, 5, 7, 3, 4, false, true⟩ := ⟨by decide, by decide, by decide, by decide⟩
  exact ⟨hu, nextval_series hu 2⟩

end OceanBase.Sequence
