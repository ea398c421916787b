import OceanBase.Lib.Machine

/-!
# The sequence cache

A server takes the values of a sequence from a cached range, `ObSequenceCacheItem`. When it is used
up the server fetches the next range in a transaction on the row `next_value` that all servers
share; when half of it is used a further range is prefetched. `nextval` holds the lock of the item
during the whole call, so that a server is in one call at a time, and the servers interleave at the
transactions.

The numbers are integers. What makes a transaction fail is left to the environment; one that fails
may have taken its range nevertheless.
-/

namespace OceanBase.Sequence

open Function

/-- The options of a sequence. -/
structure SequenceSchema where
  minValue : ℤ
  maxValue : ℤ
  incrementBy : ℤ
  startWith : ℤ
  cacheSize : ℤ
  orderFlag : Bool
  cycleFlag : Bool

structure SequenceCacheNode where
  start : ℤ := 0
  stop : ℤ := 0

structure SequenceCacheItem where
  currNode : SequenceCacheNode := {}
  prefetchNode : SequenceCacheNode := {}
  withPrefetchNode : Bool := false
  baseOnLastNumber : Bool := false
  lastNumber : ℤ := 0

inductive SequenceErr
  | sizeOverflow
  | valueExceedLimit
  deriving DecidableEq

def SequenceCacheItem.combinePrefetchNode (cache : SequenceCacheItem) : SequenceCacheItem :=
  if cache.withPrefetchNode then
    { cache with
      currNode :=
        ⟨if cache.currNode.stop ≠ cache.prefetchNode.start then cache.prefetchNode.start
          else cache.currNode.start, cache.prefetchNode.stop⟩
      withPrefetchNode := false }
  else cache

section

variable (schema : SequenceSchema)

section

variable (cache : SequenceCacheItem)

/-- Whether the range is short of one increment, in `need_refill_cache`. -/
def isShort : Bool :=
  if 0 < schema.incrementBy then
    if cache.currNode.start < cache.lastNumber then false
    else decide (cache.currNode.stop - cache.lastNumber ≤ schema.incrementBy)
  else
    if cache.lastNumber < cache.currNode.start then false
    else decide (schema.incrementBy ≤ cache.currNode.stop - cache.lastNumber)

/-- `need_refill_cache`: the item, which may have taken over the prefetched range, and the
answer. -/
def needRefillCache : SequenceCacheItem × Bool :=
  if cache.currNode.start = cache.currNode.stop ∧ cache.withPrefetchNode = false then (cache, true)
  else if cache.baseOnLastNumber = false then (cache, false)
  else if isShort schema cache ∧ cache.withPrefetchNode then
    (cache.combinePrefetchNode, isShort schema cache.combinePrefetchNode)
  else (cache, isShort schema cache)

/-- The item after the next value was chosen in `move_next`; its range starts with that value. -/
def advance : SequenceCacheItem :=
  if cache.baseOnLastNumber = false then { cache with baseOnLastNumber := true }
  else if schema.cycleFlag ∧
      (0 < schema.incrementBy ∧ cache.currNode.start < cache.lastNumber ∨
        schema.incrementBy < 0 ∧ cache.lastNumber < cache.currNode.start) then cache
  else
    let newStart := cache.lastNumber + schema.incrementBy
    if 0 < schema.incrementBy then
      if cache.currNode.start < newStart then
        { cache with currNode := { cache.currNode with start := newStart } }
      else cache
    else
      if newStart < cache.currNode.start then
        { cache with currNode := { cache.currNode with start := newStart } }
      else cache

def moveNext : SequenceCacheItem × Except SequenceErr ℤ :=
  let (cache, needRefill) := needRefillCache schema cache
  if needRefill then (cache, .error .sizeOverflow)
  else
    let cache := advance schema cache
    let nextval := cache.currNode.start
    if nextval < schema.minValue ∨ schema.maxValue < nextval then
      (cache, .error (if schema.cycleFlag then .sizeOverflow else .valueExceedLimit))
    else ({ cache with lastNumber := nextval }, .ok nextval)

/-- `refill_sequence_cache` for the range that `next_batch` returned: the item, and whether the
range is fetched once more. -/
def refillSequenceCache (nextRange : SequenceCacheNode) :
    SequenceCacheItem × Bool :=
  if schema.cycleFlag ∧ cache.baseOnLastNumber then
    let newCycle := 0 < schema.incrementBy ∧ nextRange.start < cache.currNode.start ∨
      ¬0 < schema.incrementBy ∧ cache.currNode.start < nextRange.start
    let nextNumber := cache.lastNumber + schema.incrementBy
    let notEnough := 0 < schema.incrementBy ∧ nextRange.stop ≤ nextNumber ∨
      ¬0 < schema.incrementBy ∧ nextNumber ≤ nextRange.stop
    if newCycle then ({ cache with baseOnLastNumber := false, currNode := nextRange }, false)
    else if notEnough then ({ cache with baseOnLastNumber := false }, true)
    else ({ cache with currNode := nextRange }, false)
  else ({ cache with currNode := nextRange }, false)

end

/-- `next_batch` on the row with the value `nextValue`: the range and the new value of the row. -/
def nextBatch (nextValue : ℤ) : Except SequenceErr (SequenceCacheNode × ℤ) :=
  let cacheSize := if schema.orderFlag then 1 else schema.cacheSize
  let stop := schema.incrementBy * cacheSize + nextValue
  if 0 < schema.incrementBy ∧ schema.maxValue < stop then
    if schema.cycleFlag then .ok (⟨nextValue, schema.maxValue + 1⟩, schema.minValue)
    else if schema.maxValue < nextValue then .error .valueExceedLimit
    else .ok (⟨nextValue, schema.maxValue + 1⟩, schema.maxValue + 1)
  else if schema.incrementBy < 0 ∧ stop < schema.minValue then
    if schema.cycleFlag then .ok (⟨nextValue, schema.minValue - 1⟩, schema.maxValue)
    else if nextValue < schema.minValue then .error .valueExceedLimit
    else .ok (⟨nextValue, schema.minValue - 1⟩, schema.minValue - 1)
  else .ok (⟨nextValue, stop⟩, stop)

/-- Whether `nextval` prefetches after it got a value. -/
def wantsPrefetch (cache : SequenceCacheItem) : Bool :=
  1 < schema.cacheSize && !schema.orderFlag && !cache.withPrefetchNode &&
    |(cache.currNode.stop - cache.currNode.start) * 2| ≤ |schema.incrementBy * schema.cacheSize|

end

/-! ## The servers -/

/-- Where the call of `nextval` on a server stands. -/
inductive Pc
  | idle
  /-- before the transaction of `refill_sequence_cache` -/
  | refill
  /-- before the transaction of `prefetch_sequence_cache` -/
  | prefetch
  deriving DecidableEq

structure Grant where
  server : ℕ
  range : SequenceCacheNode

structure State where
  /-- `next_value`; the row is made by the first transaction -/
  nextValue : Option ℤ
  item : ℕ → SequenceCacheItem
  pc : ℕ → Pc
  /-- the ranges so far, the newest first -/
  grants : List Grant
  /-- the values that calls of `nextval` got, with the server, the newest first -/
  values : List (ℕ × ℤ)

inductive Act
  | nextval (i : ℕ)
  /-- the transaction for which the server waits succeeds -/
  | batch (i : ℕ)
  /-- it fails, and may have been committed -/
  | batchFails (i : ℕ) (committed : Bool)

namespace State

variable (schema : SequenceSchema) (s : State)

/-- The value that `next_batch` reads, `start_with` if there is no row yet. -/
def row : ℤ := s.nextValue.getD schema.startWith

/-- `move_next` and what `nextval` does with its result. -/
def callMoveNext (i : ℕ) (cache : SequenceCacheItem) (afterRefill : Bool) : State :=
  match moveNext schema cache with
  | (cache, .ok v) =>
    { s with
      item := update s.item i cache
      pc := update s.pc i (if wantsPrefetch schema cache then .prefetch else .idle)
      values := (i, v) :: s.values }
  | (cache, .error e) =>
    { s with
      item := update s.item i cache
      pc := update s.pc i
        (if e = .sizeOverflow ∧ afterRefill = false then .refill else .idle) }

def batch (i : ℕ) (range : SequenceCacheNode) (next : ℤ) : State :=
  let s := { s with nextValue := some next, grants := ⟨i, range⟩ :: s.grants }
  match s.pc i with
  | .refill =>
    let (cache, needRefetch) := refillSequenceCache schema (s.item i) range
    if needRefetch then { s with item := update s.item i cache }
    else s.callMoveNext schema i cache true
  | _ =>
    { s with
      item := update s.item i
        (if (s.item i).withPrefetchNode then s.item i
          else { s.item i with withPrefetchNode := true, prefetchNode := range })
      pc := update s.pc i .idle }

def step : Act → Option State
  | .nextval i => if s.pc i = .idle then some (s.callMoveNext schema i (s.item i) false) else none
  | .batch i =>
    if s.pc i = .idle then none
    else
      match nextBatch schema (s.row schema) with
      | .ok (range, next) => some (s.batch schema i range next)
      | .error _ => some { s with pc := update s.pc i .idle }
  | .batchFails i committed =>
    if s.pc i = .idle then none
    else
      let s' := { s with pc := update s.pc i .idle }
      match nextBatch schema (s.row schema) with
      | .ok (_, next) => some (if committed then { s' with nextValue := some next } else s')
      | .error _ => some s'

end State

def State.init : State := ⟨none, fun _ => {}, fun _ => .idle, [], []⟩

/-- **The machine**: any number of servers on one sequence. -/
def sequenceCache (schema : SequenceSchema) : Machine State where
  init s := s = .init
  step s s' := ∃ a, s.step schema a = some s'

end OceanBase.Sequence
