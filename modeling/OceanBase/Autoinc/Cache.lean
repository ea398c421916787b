import OceanBase.Lib.Machine

/-!
# The auto-increment cache of a server

A server keeps, for each auto-increment column, a range of values that it fetched from the global
service (`curr_node_`) and the value its next statement starts from (`next_value_`). A statement
gets a handle with an interval out of the range (`TableNode::alloc_handle`) and takes its values
from the handle (`CacheHandle::next_value`). If the range is not enough, `get_handle_noorder`
fetches another one. Values that users insert themselves move `local_sync_`, past which the next
statement starts.

All numbers are `uint64_t`, and sums wrap. `prefetch_condition` is constantly false, so no range is
ever prefetched; `alloc_handle` still looks at the prefetched range. A new version of the column's
settings clears the node, and what follows it is not part of this model.
-/

namespace OceanBase.Autoinc

def uint64Max : ℕ := 2 ^ 64 - 1

def add64 (a b : ℕ) : ℕ := (a + b) % 2 ^ 64

inductive AutoincErr
  /-- `OB_SIZE_OVERFLOW` -/
  | sizeOverflow
  /-- `OB_ERR_REACH_AUTOINC_MAX` -/
  | reachAutoincMax
  /-- `OB_ERR_UNEXPECTED` -/
  | unexpected

/-- `CacheNode`: a range with both ends. -/
structure CacheNode where
  cacheStart : ℕ := 0
  cacheEnd : ℕ := 0

structure CacheHandle where
  prefetchStart : ℕ
  prefetchEnd : ℕ
  nextValue : ℕ
  offset : ℕ
  increment : ℕ
  maxValue : ℕ
  lastValueToConfirm : ℕ := 0
  lastRowDupFlag : Bool := false

structure TableNode where
  nextValue : ℕ := 0
  localSync : ℕ := 0
  currNode : CacheNode := {}
  prefetchNode : CacheNode := {}
  currNodeStateIsPending : Bool := false

/-- `combine_cache_node`; the new node is reset by the caller. -/
def CacheNode.combineCacheNode (node newNode : CacheNode) : Except AutoincErr CacheNode :=
  if newNode.cacheStart > 0 then
    if node.cacheEnd < node.cacheStart ∨ newNode.cacheEnd < newNode.cacheStart ∨
        newNode.cacheStart < node.cacheEnd then
      .error .unexpected
    else if node.cacheEnd > 0 ∧ node.cacheEnd = newNode.cacheStart - 1 then
      .ok { node with cacheEnd := newNode.cacheEnd }
    else .ok newNode
  else .ok node

def realOffset (offset increment : ℕ) : ℕ := if increment < offset then 0 else offset

/-- `calc_next_value`: the first value from `lastNextValue` on with the offset. -/
def calcNextValue (lastNextValue offset increment : ℕ) : Except AutoincErr ℕ :=
  if increment = 0 then .error .unexpected
  else
    let real := realOffset offset increment
    let newNextValue :=
      if lastNextValue ≤ real then real
      else
        add64 ((lastNextValue - real + increment - 1) % 2 ^ 64 / increment * increment) real
    .ok (if newNextValue < lastNextValue then uint64Max else newNextValue)

def calcPrevValue (maxValue offset increment : ℕ) : Except AutoincErr ℕ :=
  if maxValue ≤ offset then .ok maxValue
  else if increment = 0 then .error .unexpected
  else .ok ((maxValue - offset) / increment * increment + offset)

namespace TableNode

variable (node : TableNode)

def minValue (maxValue : ℕ) : ℕ :=
  let minValue :=
    if node.localSync < node.nextValue then node.nextValue
    else if maxValue ≤ node.localSync then maxValue
    else node.localSync + 1
  if minValue < node.currNode.cacheStart then node.currNode.cacheStart else minValue

section

variable (offset increment desiredCount maxValue : ℕ)

/-- The interval of `alloc_handle`: its first value and its end. -/
def interval : Except AutoincErr (ℕ × ℕ) :=
  let minValue := node.minValue maxValue
  let reachUpperLimit := maxValue = node.currNode.cacheEnd
  if node.currNodeStateIsPending then .error .sizeOverflow
  else if maxValue ≤ minValue then .ok (maxValue, maxValue)
  else if node.currNode.cacheEnd < minValue then .error .sizeOverflow
  else
    match calcNextValue minValue offset increment with
    | .error e => .error e
    | .ok newNextValue =>
      if node.currNode.cacheEnd < newNextValue then
        if reachUpperLimit then .ok (maxValue, maxValue) else .error .sizeOverflow
      else
        let sum := add64 newNextValue (increment * (desiredCount - 1))
        let neededInterval := if sum < newNextValue then uint64Max else sum
        if node.currNode.cacheEnd < neededInterval then
          if reachUpperLimit then .ok (newNextValue, maxValue) else .error .sizeOverflow
        else .ok (newNextValue, neededInterval)

def tryAlloc :
    Except AutoincErr (CacheHandle × TableNode) :=
  match node.interval offset increment desiredCount maxValue with
  | .error e => .error e
  | .ok (newNextValue, neededInterval) =>
    if neededInterval = uint64Max then .error .reachAutoincMax
    else
      .ok (⟨newNextValue, neededInterval, newNextValue, offset, increment, maxValue, 0, false⟩,
        { node with nextValue := add64 neededInterval increment })

/-- `alloc_handle`. Its second try finds no prefetched range, so there is no third. -/
def allocHandle :
    TableNode × Except AutoincErr CacheHandle :=
  match node.tryAlloc offset increment desiredCount maxValue with
  | .ok (handle, node) => (node, .ok handle)
  | .error .sizeOverflow =>
    if node.prefetchNode.cacheStart > 0 then
      match node.currNode.combineCacheNode node.prefetchNode with
      | .error e => (node, .error e)
      | .ok currNode =>
        let node := { node with currNode, prefetchNode := {} }
        match node.tryAlloc offset increment desiredCount maxValue with
        | .ok (handle, node) => (node, .ok handle)
        | .error e => (node, .error e)
    else (node, .error .sizeOverflow)
  | .error e => (node, .error e)

end

def updateLocalSync (value : ℕ) : TableNode := { node with localSync := max node.localSync value }

/-- `fetch_table_node` into an empty node, for what the global service returned: the new range. -/
def fetchTableNode (maxValue syncValue startInclusive endInclusive : ℕ) :
    Except AutoincErr CacheNode :=
  if maxValue < syncValue ∨ maxValue < startInclusive then .error .reachAutoincMax
  else CacheNode.combineCacheNode {} ⟨startInclusive, min maxValue endInclusive⟩

/-- What `get_handle_noorder` does with the new range. -/
def refill (syncValue : ℕ) (mock : CacheNode) : TableNode :=
  { node.updateLocalSync syncValue with
    prefetchNode := {}
    currNode :=
      if mock.cacheStart = add64 node.currNode.cacheEnd 1 then
        { node.currNode with cacheEnd := mock.cacheEnd }
      else mock
    currNodeStateIsPending := false }

end TableNode

def nextValue (handle : CacheHandle) : CacheHandle × Except AutoincErr ℕ :=
  if handle.lastRowDupFlag ∧ handle.lastValueToConfirm ≠ 0 then
    ({ handle with lastRowDupFlag := false }, .ok handle.lastValueToConfirm)
  else if handle.maxValue ≤ handle.nextValue then
    (handle, calcPrevValue handle.maxValue handle.offset handle.increment)
  else if handle.prefetchEnd < handle.nextValue then (handle, .error .unexpected)
  else
    ({ handle with
        lastValueToConfirm := handle.nextValue
        lastRowDupFlag := false
        nextValue := add64 handle.nextValue handle.increment }, .ok handle.nextValue)

/-- Whether `next_value` takes a new value: no row is repeated, and the maximum is not reached. -/
def CacheHandle.Fresh (handle : CacheHandle) : Prop :=
  ¬(handle.lastRowDupFlag = true ∧ handle.lastValueToConfirm ≠ 0) ∧
    handle.nextValue < handle.maxValue
  deriving Decidable

/-! ## The statements of one server -/

/-- A handle, and what `local_sync_` was set to before its allocation. -/
structure Issued where
  handle : CacheHandle
  syncs : List ℕ

/-- The node of a column, and what happened so far. -/
structure State where
  node : TableNode := {}
  /-- the handles in the order of their allocation -/
  handles : List Issued := []
  /-- the ranges fetched -/
  fetched : List CacheNode := []
  /-- the values for `local_sync_` -/
  syncs : List ℕ := []
  /-- the new values that handles returned, with the number of the handle, the newest first -/
  values : List (ℕ × ℕ) := []

/-- The steps. Allocation and refill hold the lock of the node. -/
inductive Act
  | alloc (offset increment desiredCount : ℕ)
  | next (i : ℕ)
  /-- the last row of the statement was a duplicate -/
  | dupRow (i : ℕ)
  | sync (value : ℕ)
  | refill (syncValue startInclusive endInclusive : ℕ)

namespace State

variable (maxValue : ℕ) (s : State)

def next (i : ℕ) (issued : Issued) : State :=
  let (handle, result) := nextValue issued.handle
  let s' := { s with handles := s.handles.set i { issued with handle } }
  match result with
  | .ok v => if issued.handle.Fresh then { s' with values := (i, v) :: s.values } else s'
  | .error _ => s'

/-- A step; a column's maximum is fixed. -/
def step : Act → Option State
  | .alloc offset increment desiredCount =>
    if offset < 2 ^ 64 ∧ (1 ≤ increment ∧ increment ≤ 65535) ∧
        1 ≤ desiredCount ∧ desiredCount ≤ 2 ^ 32 then
      match s.node.allocHandle offset increment desiredCount maxValue with
      | (node, .ok handle) =>
        some { s with node, handles := s.handles ++ [⟨handle, s.syncs⟩] }
      | (node, .error _) => some { s with node }
    else none
  | .next i => s.handles[i]?.map (s.next i)
  | .dupRow i => s.handles[i]?.map fun issued =>
      let handle := { issued.handle with lastRowDupFlag := true }
      { s with handles := s.handles.set i { issued with handle } }
  | .sync value =>
    if value < 2 ^ 64 then
      some { s with node := s.node.updateLocalSync value, syncs := value :: s.syncs }
    else none
  | .refill syncValue startInclusive endInclusive =>
    -- the global service hands out ranges above the earlier ones
    if endInclusive < 2 ^ 64 ∧ ∀ r ∈ s.fetched, r.cacheEnd < startInclusive then
      match TableNode.fetchTableNode maxValue syncValue startInclusive endInclusive with
      | .ok mock =>
        some { s with
          node := s.node.refill syncValue mock
          fetched := ⟨startInclusive, min maxValue endInclusive⟩ :: s.fetched
          syncs := syncValue :: s.syncs }
      | .error _ => some s
    else none

end State

/-- **The machine**: the statements of one server on one column. -/
def autoincCache (maxValue : ℕ) : Machine State where
  init s := s = {}
  step s s' := ∃ a, s.step maxValue a = some s'

end OceanBase.Autoinc
